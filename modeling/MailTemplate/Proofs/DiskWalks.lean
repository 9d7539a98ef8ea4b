import MailTemplate.Proofs.TreeWrites

/-!
# Walks on a disk

A path is walked segment by segment, through directories and links that exist, until it leads to a node
or to a free name.  A tree that grows keeps its directories and its links, so a walk through them leads
to where it led before, and so does a walk to a file that stays.

## Main definitions

* `Disk.IsName` — a name that a directory can hold.
* `Disk.Passes` — where segments lead through directories and links that exist.

## Main results

* `Disk.Passes.walkFrom_append` — a walk goes on from where it has come to.
* `Disk.Passes.grows`, `Disk.resolve_of_grows` — what leads somewhere leads there when the tree grows.
-/

namespace MailTemplate

namespace Disk

/-! ## Steps of a walk -/

/-- A name that a directory can hold. -/
structure IsName (segment : String) : Prop where
  /-- It is not empty. -/
  ne_nil : segment ≠ ""
  /-- It is not the directory itself. -/
  ne_current : segment ≠ "."
  /-- It is not the directory above. -/
  ne_parent : segment ≠ ".."
  /-- It is not too long. -/
  length : segment.utf8ByteSize ≤ maxName

section Walk

variable {root root' : Node} {follow : Bool} {links links' : Nat} {segment : String}
  {segments rest here here' : List String}

theorem walkFrom_cons_skip (h : segment = "" ∨ segment = ".") :
    walkFrom root follow links (segment :: rest) here = walkFrom root follow links rest here := by
  cases links <;> simp [walkFrom, walkBy, h]

theorem walkFrom_cons_up :
    walkFrom root follow links (".." :: rest) here = walkFrom root follow links rest here.dropLast := by
  cases links <;> simp [walkFrom, walkBy]

/-- Where a name leads. -/
theorem walkFrom_cons_name (h : IsName segment) :
    walkFrom root follow links (segment :: rest) here =
      match root.at? (here ++ [segment]) with
      | none =>
        if rest.all (· == "") then .ok (.free here segment (rest ≠ [])) else .error .missing
      | some (.directory _) => walkFrom root follow links rest (here ++ [segment])
      | some (.file bytes executable) =>
        if rest = [] then .ok (.found (here ++ [segment]) (.file bytes executable))
        else .error .notDirectory
      | some (.link target) =>
        if rest = [] ∧ follow = false then .ok (.found (here ++ [segment]) (.link target))
        else
          match links with
          | 0 => .error .loop
          | links + 1 => walkFrom root follow links (target.segments.map String.ofList ++ rest)
            (if target.isAbsolute then [] else here) := by
  have hskip : ¬ (segment = "" ∨ segment = ".") := not_or.2 ⟨h.ne_nil, h.ne_current⟩
  have hlength : ¬ maxName < segment.utf8ByteSize := Nat.not_lt.2 h.length
  cases hat : root.at? (here ++ [segment]) with
  | none => cases links <;> simp [walkFrom, walkBy, hskip, h.ne_parent, hlength, hat]
  | some node =>
    cases node <;> cases links <;> simp [walkFrom, walkBy, hskip, h.ne_parent, hlength, hat]

theorem walkFrom_cons_directory (h : IsName segment) {es : List (String × Node)}
    (hdirectory : root.at? (here ++ [segment]) = some (.directory es)) :
    walkFrom root follow links (segment :: rest) here =
      walkFrom root follow links rest (here ++ [segment]) := by
  rw [walkFrom_cons_name h, hdirectory]

theorem walkFrom_cons_link (h : IsName segment) {target : Path}
    (hlink : root.at? (here ++ [segment]) = some (.link target)) (hfollow : rest ≠ [] ∨ follow = true) :
    walkFrom root follow (links + 1) (segment :: rest) here =
      walkFrom root follow links (target.segments.map String.ofList ++ rest)
        (if target.isAbsolute then [] else here) := by
  -- Only at the end, and only if it is not asked for, a link is not followed.
  have hon : ¬ (rest = [] ∧ follow = false) := by
    rintro ⟨rfl, rfl⟩
    rcases hfollow with hne | hfalse
    · exact hne rfl
    · exact Bool.noConfusion hfalse
  rw [walkFrom_cons_name h, hlink]
  exact if_neg hon

theorem walkFrom_cons_file (h : IsName segment) {bytes : Bytes} {executable : Bool}
    (hfile : root.at? (here ++ [segment]) = some (.file bytes executable)) :
    walkFrom root follow links (segment :: rest) here =
      if rest = [] then .ok (.found (here ++ [segment]) (.file bytes executable))
      else .error .notDirectory := by
  rw [walkFrom_cons_name h, hfile]

theorem walkFrom_cons_none (h : IsName segment) (hrest : ∀ name ∈ rest, IsName name)
    (hnone : root.at? (here ++ [segment]) = none) :
    walkFrom root follow links (segment :: rest) here =
      if rest = [] then .ok (.free here segment false) else .error .missing := by
  rw [walkFrom_cons_name h, hnone]
  cases rest with
  | nil => rfl
  | cons name rest => simp [(hrest name List.mem_cons_self).ne_nil]

theorem walkFrom_nil :
    walkFrom root follow links [] here = .ok (.found here ((root.at? here).getD (.directory []))) := by
  cases links <;> rfl

/-! ## Walks to files -/

variable {names : List String} {bytes : Bytes} {executable : Bool}
  {onLink onLink' : List String → List String → Except Fault Place}

/-- A walk to a file ends where the file is. -/
theorem at?_of_walkBy
    (hlink : ∀ segments here, onLink segments here = .ok (.found names (.file bytes executable)) →
      root.at? names = some (.file bytes executable))
    (h : walkBy root follow onLink segments here = .ok (.found names (.file bytes executable))) :
    root.at? names = some (.file bytes executable) := by
  induction segments generalizing here with
  | nil =>
    obtain ⟨rfl, hnode⟩ := Place.found.inj (Except.ok.inj h)
    cases hat : root.at? here with
    | none => rw [hat] at hnode; exact absurd hnode (by simp)
    | some node => rw [hat] at hnode; exact congrArg some hnode
  | cons segment rest ih =>
    rw [walkBy] at h
    split at h
    · exact ih h
    split at h
    · exact ih h
    split at h
    · exact absurd h (by simp)
    split at h
    · split at h <;> exact absurd h (by simp)
    · exact ih h
    · next hat =>
      split at h
      · obtain ⟨rfl, hnode⟩ := Place.found.inj (Except.ok.inj h)
        rw [hat, hnode]
      · exact absurd h (by simp)
    · split at h
      · exact absurd h (by simp)
      · exact hlink _ _ h

theorem at?_of_walkFrom
    (h : walkFrom root follow links segments here = .ok (.found names (.file bytes executable))) :
    root.at? names = some (.file bytes executable) := by
  induction links generalizing segments here with
  | zero => exact at?_of_walkBy (fun _ _ hloop => absurd hloop (by simp)) h
  | succ links ih => exact at?_of_walkBy (fun _ _ => ih) h

/-- A walk to a file leads to the file when the tree grows and the file stays. -/
theorem walkBy_file_of_grows (hgrows : root.Grows root')
    (hfile : root'.at? names = some (.file bytes executable))
    (hlink : ∀ segments here, onLink segments here = .ok (.found names (.file bytes executable)) →
      onLink' segments here = .ok (.found names (.file bytes executable)))
    (h : walkBy root follow onLink segments here = .ok (.found names (.file bytes executable))) :
    walkBy root' follow onLink' segments here = .ok (.found names (.file bytes executable)) := by
  -- A walk that ends at a file goes on at every step, and what it goes on through has not changed.
  induction segments generalizing here with
  | nil =>
    obtain ⟨rfl, -⟩ := Place.found.inj (Except.ok.inj h)
    rw [walkBy, hfile]
    rfl
  | cons segment rest ih =>
    rw [walkBy] at h ⊢
    split at h
    · next hskip => exact (if_pos hskip).trans (ih h)
    next hskip =>
    rw [if_neg hskip]
    split at h
    · next hup => exact (if_pos hup).trans (ih h)
    next hup =>
    rw [if_neg hup]
    split at h
    · exact absurd h (by simp)
    next hlength =>
    rw [if_neg hlength]
    split at h
    · split at h <;> exact absurd h (by simp)
    · next hdirectory =>
      obtain ⟨es', hes'⟩ := hgrows.directory _ _ hdirectory
      rw [hes']
      exact ih h
    · split at h
      · next hrest =>
        obtain ⟨rfl, hsame⟩ := Place.found.inj (Except.ok.inj h)
        rw [hfile]
        exact if_pos hrest
      · exact absurd h (by simp)
    · next target htarget =>
      rw [(hgrows.link _ _).2 htarget]
      split at h
      · exact absurd h (by simp)
      · next hend => exact (if_neg hend).trans (hlink _ _ h)

theorem walkFrom_file_of_grows (hgrows : root.Grows root')
    (hfile : root'.at? names = some (.file bytes executable))
    (h : walkFrom root follow links segments here = .ok (.found names (.file bytes executable))) :
    walkFrom root' follow links segments here = .ok (.found names (.file bytes executable)) := by
  induction links generalizing segments here with
  | zero => exact walkBy_file_of_grows hgrows hfile (fun _ _ hloop => hloop) h
  | succ links ih => exact walkBy_file_of_grows hgrows hfile (fun _ _ => ih) h

/-! ## Walks through what exists -/

/-- Segments lead from one directory to another one, through directories and links that exist, and leave
so many links to follow. -/
inductive Passes (root : Node) : Nat → List String → List String → Nat → List String → Prop
  | done (links : Nat) (here : List String) : Passes root links [] here links here
  | skip {links links' : Nat} {segment : String} {segments here here' : List String}
    (h : segment = "" ∨ segment = ".") (hrest : Passes root links segments here links' here') :
    Passes root links (segment :: segments) here links' here'
  | up {links links' : Nat} {segments here here' : List String}
    (hrest : Passes root links segments here.dropLast links' here') :
    Passes root links (".." :: segments) here links' here'
  | down {links links' : Nat} {segment : String} {segments here here' : List String}
    {es : List (String × Node)} (h : IsName segment)
    (hdirectory : root.at? (here ++ [segment]) = some (.directory es))
    (hrest : Passes root links segments (here ++ [segment]) links' here') :
    Passes root links (segment :: segments) here links' here'
  | follow {links links' : Nat} {segment : String} {segments here here' : List String} {target : Path}
    (h : IsName segment) (hlink : root.at? (here ++ [segment]) = some (.link target))
    (hrest : Passes root links (target.segments.map String.ofList ++ segments)
      (if target.isAbsolute then [] else here) links' here') :
    Passes root (links + 1) (segment :: segments) here links' here'

/-- **A walk goes on** from where it has come to. -/
theorem Passes.walkFrom_append (h : Passes root links segments here links' here')
    (hfollow : rest ≠ [] ∨ follow = true) :
    walkFrom root follow links (segments ++ rest) here = walkFrom root follow links' rest here' := by
  induction h with
  | done => rfl
  | skip h hrest ih => rw [List.cons_append, walkFrom_cons_skip h, ih]
  | up hrest ih => rw [List.cons_append, walkFrom_cons_up, ih]
  | down h hdirectory hrest ih => rw [List.cons_append, walkFrom_cons_directory h hdirectory, ih]
  | follow h hlink hrest ih =>
    -- Behind the target of a link come the segments that are left, so the rest stays at the end.
    have hmore : ∀ segments : List String, segments ++ rest ≠ [] ∨ follow = true := by
      intro segments
      rcases hfollow with hne | htrue
      · exact .inl (List.append_ne_nil_of_right_ne_nil segments hne)
      · exact .inr htrue
    rw [List.cons_append, walkFrom_cons_link h hlink (hmore _), ← List.append_assoc, ih]

/-- A walk leads somewhere also if a link at its end is not followed. -/
theorem Passes.exists_found (h : Passes root links segments here links' here') (follow : Bool) :
    ∃ names node, walkFrom root follow links segments here = .ok (.found names node) := by
  induction h with
  | done => exact ⟨_, _, walkFrom_nil⟩
  | skip h hrest ih => rwa [walkFrom_cons_skip h]
  | up hrest ih => rwa [walkFrom_cons_up]
  | down h hdirectory hrest ih => rwa [walkFrom_cons_directory h hdirectory]
  | @follow links links' segment segments here here' target h hlink hrest ih =>
    by_cases hend : segments = [] ∧ follow = false
    · refine ⟨here ++ [segment], .link target, ?_⟩
      rw [walkFrom_cons_name h, hlink]
      exact if_pos hend
    · have hfollow : segments ≠ [] ∨ follow = true := by
        by_cases hsegments : segments = []
        · exact .inr (by simpa [hsegments] using hend)
        · exact .inl hsegments
      rwa [walkFrom_cons_link h hlink hfollow]

/-- **A walk through what exists stays** when the tree grows. -/
theorem Passes.grows (h : Passes root links segments here links' here') (hgrows : root.Grows root') :
    Passes root' links segments here links' here' := by
  induction h with
  | done => exact .done _ _
  | skip h hrest ih => exact .skip h ih
  | up hrest ih => exact .up ih
  | down h hdirectory hrest ih =>
    obtain ⟨es', hes'⟩ := hgrows.directory _ _ hdirectory
    exact .down h hes' ih
  | follow h hlink hrest ih => exact .follow h ((hgrows.link _ _).2 hlink) ih

/-- Walks follow each other. -/
theorem Passes.append {links'' : Nat} {segments' here'' : List String}
    (h : Passes root links segments here links' here')
    (h' : Passes root links' segments' here' links'' here'') :
    Passes root links (segments ++ segments') here links'' here'' := by
  induction h with
  | done => exact h'
  | skip h hrest ih => exact .skip h (ih h')
  | up hrest ih => exact .up (ih h')
  | down h hdirectory hrest ih => exact .down h hdirectory (ih h')
  | follow h hlink hrest ih => exact .follow h hlink (List.append_assoc .. ▸ ih h')

/-- A walk is divided where its segments are. -/
theorem Passes.exists_of_append {all segments' : List String}
    (h : Passes root links all here links' here') (hall : all = segments ++ segments') :
    ∃ links'' here'', Passes root links segments here links'' here'' ∧
      Passes root links'' segments' here'' links' here' := by
  induction h generalizing segments with
  | done =>
    obtain ⟨rfl, rfl⟩ := List.append_eq_nil_iff.1 hall.symm
    exact ⟨_, _, .done _ _, .done _ _⟩
  | skip h hrest ih =>
    cases segments with
    | nil =>
      obtain rfl : segments' = _ := hall.symm
      exact ⟨_, _, .done _ _, .skip h hrest⟩
    | cons s segments =>
      obtain ⟨rfl, rfl⟩ := List.cons.inj hall
      obtain ⟨_, _, hfirst, hmore⟩ := ih rfl
      exact ⟨_, _, .skip h hfirst, hmore⟩
  | up hrest ih =>
    cases segments with
    | nil =>
      obtain rfl : segments' = _ := hall.symm
      exact ⟨_, _, .done _ _, .up hrest⟩
    | cons s segments =>
      obtain ⟨rfl, rfl⟩ := List.cons.inj hall
      obtain ⟨_, _, hfirst, hmore⟩ := ih rfl
      exact ⟨_, _, .up hfirst, hmore⟩
  | down h hdirectory hrest ih =>
    cases segments with
    | nil =>
      obtain rfl : segments' = _ := hall.symm
      exact ⟨_, _, .done _ _, .down h hdirectory hrest⟩
    | cons s segments =>
      obtain ⟨rfl, rfl⟩ := List.cons.inj hall
      obtain ⟨_, _, hfirst, hmore⟩ := ih rfl
      exact ⟨_, _, .down h hdirectory hfirst, hmore⟩
  | follow h hlink hrest ih =>
    cases segments with
    | nil =>
      obtain rfl : segments' = _ := hall.symm
      exact ⟨_, _, .done _ _, .follow h hlink hrest⟩
    | cons s segments =>
      obtain ⟨rfl, rfl⟩ := List.cons.inj hall
      obtain ⟨_, _, hfirst, hmore⟩ := ih (List.append_assoc ..).symm
      exact ⟨_, _, .follow h hlink hfirst, hmore⟩

/-- Segments that are no components lead nowhere. -/
theorem Passes.of_trivial {trail : List String} (htrail : ∀ s ∈ trail, s = "" ∨ s = ".") (links : Nat)
    (here : List String) : Passes root links trail here links here := by
  induction trail with
  | nil => exact .done _ _
  | cons s trail ih =>
    obtain ⟨hs, htrail⟩ := List.forall_mem_cons.1 htrail
    exact .skip hs (ih htrail)

theorem Passes.eq_of_trivial (h : Passes root links segments here links' here')
    (htrail : ∀ s ∈ segments, s = "" ∨ s = ".") : links' = links ∧ here' = here := by
  induction h with
  | done => exact ⟨rfl, rfl⟩
  | skip h hrest ih => exact ih (List.forall_mem_cons.1 htrail).2
  | up => exact absurd (htrail ".." List.mem_cons_self) (by decide)
  | down h =>
    rcases htrail _ List.mem_cons_self with rfl | rfl
    · exact absurd rfl h.ne_nil
    · exact absurd rfl h.ne_current
  | follow h =>
    rcases htrail _ List.mem_cons_self with rfl | rfl
    · exact absurd rfl h.ne_nil
    · exact absurd rfl h.ne_current

/-- Names lead down through directories. -/
theorem Passes.of_directory {names : List String} (hnames : ∀ name ∈ names, IsName name)
    {es : List (String × Node)} (h : root.at? (here ++ names) = some (.directory es)) :
    Passes root links names here links (here ++ names) := by
  induction names generalizing here with
  | nil =>
    rw [List.append_nil]
    exact .done _ _
  | cons name names ih =>
    obtain ⟨hname, hnames⟩ := List.forall_mem_cons.1 hnames
    have happend : here ++ name :: names = here ++ [name] ++ names := by simp
    rw [happend] at h ⊢
    obtain ⟨es', hes'⟩ := Node.exists_directory_of_append h
    exact .down hname hes' (ih hnames h)

end Walk

/-! ## Paths to files -/

section Resolve

variable {disk : Disk} {path : Path} {place : List String} {follow executable : Bool} {bytes : Bytes}
  {root' : Node}

/-- A path that leads to a file leads to where it is. -/
theorem at?_of_resolve
    (h : disk.resolve follow path = .ok (.found place (.file bytes executable))) :
    disk.root.at? place = some (.file bytes executable) := by
  unfold resolve at h
  split at h
  · exact absurd h (by simp)
  split at h
  · exact absurd h (by simp)
  split at h
  · exact absurd h (by simp)
  exact at?_of_walkFrom h

/-- **A path that leads to a file** leads there when the tree grows and the file stays. -/
theorem resolve_of_grows (hgrows : disk.root.Grows root')
    (hfile : root'.at? place = some (.file bytes executable))
    (h : disk.resolve follow path = .ok (.found place (.file bytes executable))) :
    resolve { disk with root := root' } follow path = .ok (.found place (.file bytes executable)) := by
  unfold resolve at h ⊢
  split at h
  · exact absurd h (by simp)
  next htext =>
  rw [if_neg htext]
  split at h
  · exact absurd h (by simp)
  next hnul =>
  rw [if_neg hnul]
  split at h
  · exact absurd h (by simp)
  next hlength => exact (if_neg hlength).trans (walkFrom_file_of_grows hgrows hfile h)

theorem readText_of_resolve
    (h : disk.resolve true path = .ok (.found place (.file bytes executable))) :
    disk.readText path = match Bytes.toString? bytes with
      | some text => .ok text
      | none => .error .notText := by
  rw [readText, read, node, h]
  cases hbytes : Bytes.toString? bytes with
  | none => simp [bind, Except.bind, pure, Except.pure, hbytes, throw, throwThe, MonadExceptOf.throw]
  | some text => simp [bind, Except.bind, pure, Except.pure, hbytes]

end Resolve

end Disk

end MailTemplate
