import MailTemplate.Proofs.DiskWalks
import MailTemplate.Proofs.PathParents

/-!
# Ways to a place on a disk

A path that goes down from a directory which exists, through names that no link stands at, leads to one
place, whether there is something yet or not.  Writing to such a path makes the directories on the way,
puts a file at the place and does nothing else, and if a file stands on the way it does nothing at all.
The way stays when the tree grows, so what is written to other places does not lead the path elsewhere.

## Main definitions

* `Disk.WayBy`, `Disk.Way` — the place that a path leads down to.

## Main results

* `Disk.WayBy.exists_parent` — the directory of a path leads down to the place above.
* `Disk.WayBy.makeDirectories_run` — how the directories on a way are made.
* `Disk.Way.grows` — a way stays when the tree grows.
* `Disk.Way.read_iff`, `Disk.Way.writeIfChanged_run` — what is read and what is written on a way.
-/

namespace MailTemplate

namespace Disk

/-! ## Ways -/

/-- A path goes through some segments to a directory that exists, and down from it by names that no link
stands at. -/
structure WayBy (disk : Disk) (path : Path) (front names : List String) (links : Nat)
    (here : List String) : Prop where
  /-- A path can hold its text. -/
  noNul : (path.text.toList.any fun c => c.toNat == 0) = false
  /-- It is not too long. -/
  length : path.text.utf8ByteSize ≤ maxPath
  /-- Its segments are those that lead to the directory and the names. -/
  segments : path.segments.map String.ofList = front ++ names
  /-- Something leads to the directory. -/
  front_ne_nil : front ≠ []
  /-- The path goes on from there. -/
  names_ne_nil : names ≠ []
  /-- The segments lead to the directory. -/
  passes : Passes disk.root maxLinks front (if path.isAbsolute then [] else disk.current) links here
  /-- It is one. -/
  directory : ∃ es, disk.root.at? here = some (.directory es)
  /-- The names are names. -/
  isName : ∀ name ∈ names, IsName name
  /-- No link stands on the way down. -/
  noLink : ∀ below, below <+: names → ∀ target, disk.root.at? (here ++ below) ≠ some (.link target)

/-- A path leads down to a place, whether there is something or not. -/
def Way (disk : Disk) (path : Path) (place : List String) : Prop :=
  ∃ front names links here, disk.WayBy path front names links here ∧ place = here ++ names

/-! ### Texts of directories -/

/-- What holds of the text of a path holds of a text at its front. -/
theorem noNul_of_text {p q : Path} (h : (p.text.toList.any fun c => c.toNat == 0) = false)
    (htext : q.text.toList <+: p.text.toList) : (q.text.toList.any fun c => c.toNat == 0) = false := by
  obtain ⟨rest, hrest⟩ := htext
  rw [← hrest, List.any_append, Bool.or_eq_false_iff] at h
  exact h.1

theorem length_of_text {p q : Path} (h : p.text.utf8ByteSize ≤ maxPath)
    (htext : q.text.toList <+: p.text.toList) : q.text.utf8ByteSize ≤ maxPath := by
  obtain ⟨rest, hrest⟩ := htext
  have happend : p.text = q.text ++ String.ofList rest := by
    rw [← String.toList_inj, String.toList_append, String.toList_ofList, hrest]
  rw [happend, String.utf8ByteSize_append] at h
  omega

/-- Segments that are no components lead nowhere, so the path of a directory leads to it without those at
its end. -/
theorem passes_of_trail {q : Path} {root : Node} {kept trail start here : List String} {links links' : Nat}
    (h : Passes root links (kept ++ trail) start links' here) (htrail : ∀ s ∈ trail, s = "" ∨ s = ".")
    (hq : q.segments.map String.ofList = kept ∨ kept = [""] ∧ q.segments.map String.ofList = ["", ""]) :
    Passes root links (q.segments.map String.ofList) start links' here := by
  obtain ⟨_, _, hfirst, hmore⟩ := h.exists_of_append rfl
  obtain ⟨rfl, rfl⟩ := hmore.eq_of_trivial htrail
  rcases hq with hq | ⟨rfl, hq⟩
  · rw [hq]
    exact hfirst
  · rw [hq]
    have hempty : ∀ s ∈ [""], s = "" ∨ s = "." := by simp
    exact hfirst.append (.of_trivial hempty links' here)

namespace WayBy

variable {disk : Disk} {path : Path} {front names init rest here : List String} {name : String}
  {links : Nat} {root' : Node} {es : List (String × Node)}

theorem text_ne (h : disk.WayBy path front names links here) : path.text ≠ "" := by
  intro htext
  have hlength := congrArg List.length h.segments
  have hone : path.segments = [[]] := by
    rw [Path.segments, htext]
    decide
  rw [hone, List.length_append] at hlength
  have hfront := List.length_pos_iff.2 h.front_ne_nil
  have hnames := List.length_pos_iff.2 h.names_ne_nil
  simp only [List.map_cons, List.map_nil, List.length_cons, List.length_nil] at hlength
  omega

/-- **A way leads** as its names do. -/
theorem resolve_eq (h : disk.WayBy path front names links here) (follow : Bool) :
    disk.resolve follow path = walkFrom disk.root follow links names here := by
  rw [resolve, if_neg h.text_ne, if_neg (by simp [h.noNul]), if_neg (Nat.not_lt.2 h.length), h.segments,
    h.passes.walkFrom_append (.inl h.names_ne_nil)]

/-- **A way stays** when the tree grows. -/
theorem grows (h : disk.WayBy path front names links here) (hgrows : disk.root.Grows root') :
    WayBy { disk with root := root' } path front names links here := by
  refine ⟨h.noNul, h.length, h.segments, h.front_ne_nil, h.names_ne_nil, h.passes.grows hgrows, ?_,
    h.isName, ?_⟩
  · obtain ⟨es, hes⟩ := h.directory
    exact hgrows.directory here es hes
  · intro below hbelow target hlink
    exact h.noLink below hbelow target ((hgrows.link _ _).1 hlink)

theorem resolve_of_directory (h : disk.WayBy path front (init ++ name :: rest) links here)
    (hdirectory : disk.root.at? (here ++ init) = some (.directory es)) (follow : Bool) :
    disk.resolve follow path = walkFrom disk.root follow links (name :: rest) (here ++ init) := by
  have hinit : ∀ s ∈ init, IsName s := fun s hs => h.isName s (List.mem_append_left _ hs)
  rw [h.resolve_eq follow]
  exact (Passes.of_directory hinit hdirectory).walkFrom_append (.inl (List.cons_ne_nil _ _))

/-- A way goes down through directories until nothing is left of it, or there is nothing, or a file
stands in it. -/
theorem exists_split (h : disk.WayBy path front names links here) :
    ∃ init name rest, names = init ++ name :: rest ∧
      (∃ es, disk.root.at? (here ++ init) = some (.directory es)) ∧
        (disk.root.at? (here ++ init ++ [name]) = none ∨
          (∃ bytes executable, disk.root.at? (here ++ init ++ [name]) = some (.file bytes executable)) ∨
            rest = [] ∧ ∃ es, disk.root.at? (here ++ init ++ [name]) = some (.directory es)) := by
  suffices hbelow : ∀ init rest, rest ≠ [] → names = init ++ rest →
      (∃ es, disk.root.at? (here ++ init) = some (.directory es)) → _ from
    hbelow [] names h.names_ne_nil rfl (by simpa using h.directory)
  intro init rest hne hnames hdirectory
  induction rest generalizing init with
  | nil => exact absurd rfl hne
  | cons name rest ih =>
    have hlink := h.noLink (init ++ [name]) (by rw [hnames]; simp)
    rw [← List.append_assoc] at hlink
    cases hat : disk.root.at? (here ++ init ++ [name]) with
    | none => exact ⟨init, name, rest, hnames, hdirectory, .inl hat⟩
    | some node =>
      cases node with
      | file bytes executable =>
        exact ⟨init, name, rest, hnames, hdirectory, .inr (.inl ⟨bytes, executable, hat⟩)⟩
      | link target => exact absurd hat (hlink target)
      | directory es =>
        by_cases hrest : rest = []
        · exact ⟨init, name, rest, hnames, hdirectory, .inr (.inr ⟨hrest, es, hat⟩)⟩
        · apply ih (init ++ [name]) hrest
          · rw [hnames]
            simp
          · exact ⟨es, by rw [← List.append_assoc, hat]⟩

/-! ### Going up -/

/-- The segments that are no components, unless they lead. -/
theorem isTrivial_toList {s : String} : Path.isTrivial s.toList = true ↔ s = "" ∨ s = "." := by
  rw [Path.isTrivial, Bool.or_eq_true, beq_iff_eq, beq_iff_eq]
  have hnil : s.toList = [] ↔ s = "" := by rw [← String.toList_inj]; rfl
  have hdot : s.toList = ['.'] ↔ s = "." := by rw [← String.toList_inj]; rfl
  rw [hnil, hdot]

/-- The path of the directory that the last name of a way is in. -/
theorem exists_isParent (h : disk.WayBy path front (init ++ [name]) links here) :
    ∃ q kept trail, path.parent? = some q ∧ q.text.toList <+: path.text.toList ∧ q.text ≠ "" ∧
      front ++ init = kept ++ trail ∧ (∀ s ∈ trail, s = "" ∨ s = ".") ∧
        (q.segments.map String.ofList = kept ∨
          kept = [""] ∧ q.segments.map String.ofList = ["", ""]) := by
  have hsegments : path.segments = (front ++ init).map String.toList ++ [name.toList] := by
    have hback := congrArg (List.map String.toList) h.segments
    simpa [Function.comp_def] using hback
  have hname := h.isName name (by simp)
  have hfront : (front ++ init).map String.toList ≠ [] := by simp [h.front_ne_nil]
  have htrivial : Path.isTrivial name.toList = false := by
    refine Bool.eq_false_iff.2 fun htrivial => ?_
    rcases isTrivial_toList.1 htrivial with hnil | hdot
    · exact hname.ne_nil hnil
    · exact hname.ne_current hdot
  obtain ⟨q, hparent⟩ := Path.exists_parent? hsegments hfront htrivial
  obtain ⟨kept, trail, hkept, htrail, hq⟩ := hparent.segments
  refine ⟨q, kept.map String.ofList, trail.map String.ofList, hparent.parent, hparent.text,
    hparent.text_ne, ?_, ?_, ?_⟩
  · rw [← List.map_append, ← hkept]
    simp [Function.comp_def]
  · intro s hs
    obtain ⟨cs, hcs, rfl⟩ := List.mem_map.1 hs
    apply isTrivial_toList.1
    rw [String.toList_ofList]
    exact htrail cs hcs
  · rcases hq with hq | ⟨rfl, hq⟩
    · exact .inl (congrArg _ hq)
    · exact .inr ⟨rfl, congrArg (List.map String.ofList) hq⟩

/-- **The directory of a path** leads down as the path does, to the place above. -/
theorem exists_parent (h : disk.WayBy path front (init ++ [name]) links here) (hinit : init ≠ []) :
    ∃ q, path.parent? = some q ∧ disk.WayBy q front init links here := by
  obtain ⟨q, kept, trail, hparent, htext, htext_ne, hkept, htrail, hq⟩ := h.exists_isParent
  have hprefix : init <+: init ++ [name] := List.prefix_append _ _
  -- The last name of the way is a component, so no segment is dropped.
  obtain ⟨before, last, rfl⟩ : ∃ before last, init = before ++ [last] :=
    ⟨_, _, (List.dropLast_concat_getLast hinit).symm⟩
  have hlast := h.isName last (by simp)
  obtain rfl : trail = [] := by
    rcases List.eq_nil_or_concat trail with hnil | ⟨trail', s, rfl⟩
    · exact hnil
    · rw [List.concat_eq_append, ← List.append_assoc, ← List.append_assoc] at hkept
      obtain ⟨-, hs⟩ := List.append_inj' hkept rfl
      obtain rfl := (List.cons.inj hs).1
      rcases htrail last (by simp) with hnil | hdot
      · exact absurd hnil hlast.ne_nil
      · exact absurd hdot hlast.ne_current
  rw [List.append_nil] at hkept
  have hsegments : q.segments.map String.ofList = front ++ (before ++ [last]) := by
    rcases hq with hq | ⟨hone, -⟩
    · rw [hq, hkept]
    · -- The root has no names.
      have hlengths := congrArg List.length (hkept.trans hone)
      have hfront := List.length_pos_iff.2 h.front_ne_nil
      simp only [List.length_append, List.length_cons, List.length_nil] at hlengths
      omega
  refine ⟨q, hparent, noNul_of_text h.noNul htext, length_of_text h.length htext, hsegments,
    h.front_ne_nil, hinit, ?_, h.directory, ?_, ?_⟩
  · rw [Path.isAbsolute_eq_of_text htext_ne htext]
    exact h.passes
  · intro s hs
    exact h.isName s (List.mem_append_left _ hs)
  · intro below hbelow
    exact h.noLink below (hbelow.trans hprefix)

/-- **The directory of a path with one name** is the one that the way starts from. -/
theorem exists_parent_front (h : disk.WayBy path front [name] links here) :
    ∃ q, path.parent? = some q ∧ q.text ≠ "" ∧ disk.isDirectory q = true ∧
      ∃ names node, disk.resolve false q = .ok (.found names node) := by
  have hone : disk.WayBy path front ([] ++ [name]) links here := h
  obtain ⟨q, kept, trail, hparent, htext, htext_ne, hkept, htrail, hq⟩ := hone.exists_isParent
  rw [List.append_nil] at hkept
  obtain ⟨es, hes⟩ := h.directory
  have hpasses : Passes disk.root maxLinks (q.segments.map String.ofList)
      (if q.isAbsolute then [] else disk.current) links here := by
    rw [Path.isAbsolute_eq_of_text htext_ne htext]
    exact passes_of_trail (hkept ▸ h.passes) htrail hq
  have hresolve : ∀ follow, disk.resolve follow q = walkFrom disk.root follow maxLinks
      (q.segments.map String.ofList) (if q.isAbsolute then [] else disk.current) := by
    intro follow
    rw [resolve, if_neg htext_ne, if_neg (by simp [noNul_of_text h.noNul htext]),
      if_neg (Nat.not_lt.2 (length_of_text h.length htext))]
  refine ⟨q, hparent, htext_ne, ?_, ?_⟩
  · have hwalk : walkFrom disk.root true maxLinks (q.segments.map String.ofList ++ []) _ = _ :=
      hpasses.walkFrom_append (.inr rfl)
    rw [List.append_nil, walkFrom_nil, hes] at hwalk
    simp only [isDirectory, node, hresolve, hwalk]
    rfl
  · rw [hresolve]
    exact hpasses.exists_found false

end WayBy

/-! ## Making directories -/

section Make

variable {disk : Disk} {path : Path} {front names init here : List String}
  {name : String} {links fuel : Nat} {es : List (String × Node)}

/-- Tries to make a directory.  If there is nothing to make it in, something is done first, and if the
directory exists nothing is left to do. -/
def attempt (path : Path) (retry : DiskM Unit) : DiskM Unit :=
  tryCatch (makeDirectory path) fun fault => do
    if fault = .missing then retry
    else if (← get).isDirectory path then return
    else throw fault

theorem makeFirst_cons (h : path.text ≠ "") (rest : List Path) :
    makeFirst (path :: rest) =
      attempt path (makeFirst rest >>= fun _ => attempt path (throw .missing)) := by
  rw [makeFirst, if_neg h]
  rfl

theorem run_get_bind {ε α : Type} (f : Disk → ExceptT ε (StateM Disk) α) (disk : Disk) :
    (get >>= f).run disk = (f disk).run disk := rfl

theorem run_state_get_bind {α : Type} (f : Disk → StateM Disk α) (disk : Disk) :
    (get >>= f).run disk = (f disk).run disk := rfl

theorem run_state_bind {α β : Type} {disk after : Disk} {m : StateM Disk α} {a : α}
    (f : α → StateM Disk β) (h : m.run disk = (a, after)) : (m >>= f).run disk = (f a).run after := by
  show (f (m.run disk).1).run (m.run disk).2 = _
  rw [h]

theorem run_bind {ε α β : Type} (m : ExceptT ε (StateM Disk) α) (f : α → ExceptT ε (StateM Disk) β)
    (disk : Disk) :
    (m >>= f).run disk = match m.run disk with
      | (.ok a, after) => (f a).run after
      | (.error fault, after) => (.error fault, after) := by
  show ExceptT.bind m f disk = match m disk with
    | (.ok a, after) => f a after
    | (.error fault, after) => (.error fault, after)
  simp only [ExceptT.bind, ExceptT.mk, bind, StateT.bind]
  rcases m disk with ⟨outcome, after⟩
  cases outcome <;> rfl

theorem run_tryCatch {α : Type} (m : DiskM α) (handler : Fault → DiskM α) (disk : Disk) :
    (tryCatch m handler).run disk = match m.run disk with
      | (.ok a, after) => (.ok a, after)
      | (.error fault, after) => (handler fault).run after := by
  show ExceptT.tryCatch m handler disk = match m disk with
    | (.ok a, after) => (.ok a, after)
    | (.error fault, after) => handler fault after
  simp only [ExceptT.tryCatch, ExceptT.mk, bind, StateT.bind]
  rcases m disk with ⟨outcome, after⟩
  cases outcome <;> rfl

theorem makeDirectory_run (path : Path) (disk : Disk) :
    (makeDirectory path).run disk = match disk.resolve false path with
      | .error fault => (.error fault, disk)
      | .ok (.found ..) => (.error .exists, disk)
      | .ok (.free names name _) => (.ok (), disk.put (names ++ [name]) (.directory [])) := by
  rw [makeDirectory, run_get_bind]
  cases disk.resolve false path with
  | error fault => rfl
  | ok place => cases place <;> rfl

theorem attempt_run (path : Path) (retry : DiskM Unit) (disk : Disk) :
    (attempt path retry).run disk = match disk.resolve false path with
      | .error fault =>
        if fault = .missing then retry.run disk
        else (if disk.isDirectory path then .ok () else .error fault, disk)
      | .ok (.found ..) => (if disk.isDirectory path then .ok () else .error .exists, disk)
      | .ok (.free names name _) => (.ok (), disk.put (names ++ [name]) (.directory [])) := by
  have hfault : ∀ fault : Fault, ExceptT.run (do
      if fault = .missing then retry
      else if (← get).isDirectory path then return
      else throw fault) disk = if fault = .missing then retry.run disk
        else (if disk.isDirectory path then .ok () else .error fault, disk) := by
    intro fault
    by_cases hmissing : fault = .missing
    · rw [if_pos hmissing, if_pos hmissing]
    · rw [if_neg hmissing, if_neg hmissing, run_get_bind]
      cases disk.isDirectory path <;> rfl
  rw [attempt, run_tryCatch, makeDirectory_run]
  cases disk.resolve false path with
  | error fault => exact hfault fault
  | ok place =>
    cases place with
    | found => exact hfault .exists
    | free => rfl

theorem ancestors_succ {q : Path} (h : path.parent? = some q) (fuel : Nat) :
    ancestors (fuel + 1) path = path :: ancestors fuel q := by
  rw [ancestors, h]

theorem exists_ancestors (path : Path) (fuel : Nat) :
    ∃ rest, ancestors (fuel + 1) path = path :: rest := by
  rw [ancestors]
  cases path.parent? with
  | none => exact ⟨_, rfl⟩
  | some q => exact ⟨_, rfl⟩

/-- **In a directory that exists** an attempt makes the directory, unless it exists. -/
theorem WayBy.attempt_run_of_directory (retry : DiskM Unit)
    (h : disk.WayBy path front (init ++ [name]) links here)
    (hdirectory : disk.root.at? (here ++ init) = some (.directory es))
    (hfile : ∀ bytes executable,
      disk.root.at? (here ++ init ++ [name]) ≠ some (.file bytes executable)) :
    ∃ root', (attempt path retry).run disk = (.ok (), { disk with root := root' }) ∧
      Node.MadeDown (here ++ init ++ [name]) disk.root root' ∧
        ((∃ es', disk.root.at? (here ++ init ++ [name]) = some (.directory es')) →
          root' = disk.root) := by
  have hresolve := h.resolve_of_directory hdirectory
  have hname : IsName name := h.isName name (by simp)
  have hlink := h.noLink _ (List.prefix_refl _)
  rw [← List.append_assoc] at hlink
  rw [attempt_run, hresolve]
  cases hat : disk.root.at? (here ++ init ++ [name]) with
  | none =>
    rw [walkFrom_cons_none hname (by simp) hat, if_pos rfl]
    exact ⟨_, rfl, .put hdirectory hat, fun ⟨_, hes'⟩ => absurd hes' (by simp)⟩
  | some node =>
    cases node with
    | file bytes executable => exact absurd hat (hfile bytes executable)
    | link target => exact absurd hat (hlink target)
    | directory es' =>
      have hisDirectory : disk.isDirectory path = true := by
        have hwalk := hresolve true
        rw [walkFrom_cons_directory hname hat, walkFrom_nil, hat] at hwalk
        simp only [isDirectory, Disk.node, hwalk]
        rfl
      rw [walkFrom_cons_directory hname hat, walkFrom_nil]
      dsimp only
      rw [if_pos hisDirectory]
      exact ⟨disk.root, rfl, .of_directory hat, fun _ => rfl⟩

/-- A way without files on it, and without the directory that its last name is in, is not there. -/
theorem WayBy.resolve_eq_missing (h : disk.WayBy path front (init ++ [name]) links here)
    (hdirectory : ¬ ∃ es, disk.root.at? (here ++ init) = some (.directory es))
    (hfile : ∀ below, below <+: init ++ [name] →
      ∀ bytes executable, disk.root.at? (here ++ below) ≠ some (.file bytes executable)) :
    disk.resolve false path = .error .missing := by
  obtain ⟨i, m, r, hsplit, hes, hrest⟩ := h.exists_split
  have hr : r ≠ [] := by
    rintro rfl
    obtain ⟨rfl, -⟩ := List.append_inj' hsplit rfl
    exact hdirectory hes
  obtain ⟨es, hes⟩ := hes
  rcases hrest with hnone | ⟨bytes, executable, hat⟩ | ⟨hnil, -⟩
  · have hnames : ∀ s ∈ m :: r, IsName s := fun s hs =>
      h.isName s (hsplit ▸ List.mem_append_right _ hs)
    obtain ⟨hm, hr'⟩ := List.forall_mem_cons.1 hnames
    rw [hsplit] at h
    rw [h.resolve_of_directory hes, walkFrom_cons_none hm hr' hnone, if_neg hr]
  · refine absurd hat (List.append_assoc here i [m] ▸ hfile (i ++ [m]) ?_ bytes executable)
    rw [hsplit]
    simp
  · exact absurd hnil hr

/-- **All directories on a way are made** if there is no file on it. -/
theorem WayBy.makeFirst_run (h : disk.WayBy path front names links here) (hfuel : names.length < fuel)
    (hfile : ∀ below, below <+: names →
      ∀ bytes executable, disk.root.at? (here ++ below) ≠ some (.file bytes executable)) :
    ∃ root', (makeFirst (ancestors fuel path)).run disk = (.ok (), { disk with root := root' }) ∧
      Node.MadeDown (here ++ names) disk.root root' := by
  -- A path has its fuel for the paths of all directories above its last name.
  induction fuel generalizing path names with
  | zero => exact absurd hfuel (Nat.not_lt_zero _)
  | succ fuel ih =>
    obtain ⟨init, name, rfl⟩ : ∃ init name, names = init ++ [name] :=
      ⟨_, _, (List.dropLast_concat_getLast h.names_ne_nil).symm⟩
    have hlast := hfile _ (List.prefix_refl _)
    rw [← List.append_assoc] at hlast
    by_cases hdirectory : ∃ es, disk.root.at? (here ++ init) = some (.directory es)
    · obtain ⟨es, hes⟩ := hdirectory
      obtain ⟨rest, hrest⟩ := exists_ancestors path fuel
      rw [hrest, makeFirst_cons h.text_ne, ← List.append_assoc]
      obtain ⟨root', hrun, hmade, -⟩ := h.attempt_run_of_directory _ hes hlast
      exact ⟨root', hrun, hmade⟩
    · have hinit : init ≠ [] := by
        rintro rfl
        exact hdirectory (by simpa using h.directory)
      obtain ⟨q, hparent, hq⟩ := h.exists_parent hinit
      have hfirst : init <+: init ++ [name] := List.prefix_append _ _
      -- Something is missing on the way, so the attempt fails and the directory above is made first.
      have hmissing := h.resolve_eq_missing hdirectory hfile
      have hlength : init.length < fuel := by
        simp only [List.length_append, List.length_cons, List.length_nil] at hfuel
        omega
      obtain ⟨root₁, hrun₁, hmade₁⟩ := ih hq hlength fun below hbelow =>
        hfile below (hbelow.trans hfirst)
      obtain ⟨es, hes⟩ := hmade₁.directory
      have hlast₁ : ∀ bytes executable,
          root₁.at? (here ++ init ++ [name]) ≠ some (.file bytes executable) := by
        intro bytes executable
        rw [hmade₁.below (List.cons_ne_nil name [])]
        exact hlast bytes executable
      obtain ⟨root₂, hrun₂, hmade₂, -⟩ :=
        (h.grows hmade₁.grows).attempt_run_of_directory (throw .missing) hes hlast₁
      refine ⟨root₂, ?_, ?_⟩
      · rw [ancestors_succ hparent, makeFirst_cons h.text_ne, attempt_run, hmissing]
        dsimp only
        rw [if_pos rfl, run_bind, hrun₁]
        exact hrun₂
      · rw [← List.append_assoc]
        exact hmade₁.trans (by simp) hmade₂

/-- **A file on a way** stops the making of directories. -/
theorem WayBy.makeFirst_run_of_file {m : String} {rest : List String} {bytes : Bytes}
    {executable : Bool} (h : disk.WayBy path front (init ++ m :: rest) links here)
    (hdirectory : disk.root.at? (here ++ init) = some (.directory es))
    (hfile : disk.root.at? (here ++ init ++ [m]) = some (.file bytes executable)) :
    (makeFirst (ancestors (fuel + 1) path)).run disk =
      (.error (if rest = [] then .exists else .notDirectory), disk) := by
  have hresolve := h.resolve_of_directory hdirectory
  have hm : IsName m := h.isName m (by simp)
  obtain ⟨more, hmore⟩ := exists_ancestors path fuel
  rw [hmore, makeFirst_cons h.text_ne, attempt_run, hresolve, walkFrom_cons_file hm hfile]
  have hnot : disk.isDirectory path = false := by
    simp only [isDirectory, Disk.node, hresolve, walkFrom_cons_file hm hfile]
    by_cases hrest : rest = []
    · simp [hrest, bind, Except.bind]
      rfl
    · simp [hrest, bind, Except.bind]
  by_cases hrest : rest = []
  · simp [hrest, hnot]
  · simp [hrest, hnot]

/-- The directory of a path is made, or a file stands on the way to it. -/
theorem WayBy.makeDirectories_run (h : disk.WayBy path front (init ++ [name]) links here) :
    ∃ q, path.parent? = some q ∧
      ((∃ root', (makeDirectories q).run disk = (.ok (), { disk with root := root' }) ∧
          Node.MadeDown (here ++ init) disk.root root' ∧
            (root' = disk.root ∨ disk.root.at? (here ++ init ++ [name]) = none)) ∨
        ∃ fault, (makeDirectories q).run disk = (.error fault, disk) ∧
          ∀ bytes, Node.withFile bytes (here ++ init ++ [name]) (some disk.root) = .error fault) := by
  by_cases hinit : init = []
  · -- With one name the way has no directory of its own: the first one exists, by whatever links.
    subst hinit
    obtain ⟨q, hparent, hne, hisDirectory, names, node, hresolve⟩ := WayBy.exists_parent_front h
    obtain ⟨es, hes⟩ := h.directory
    obtain ⟨rest, hrest⟩ := exists_ancestors q q.segments.length
    refine ⟨q, hparent, .inl ⟨disk.root, ?_, ?_, .inl rfl⟩⟩
    · rw [makeDirectories, hrest, makeFirst_cons hne, attempt_run, hresolve]
      dsimp only
      rw [if_pos hisDirectory]
    · rw [List.append_nil]
      exact .of_directory hes
  · obtain ⟨q, hparent, hq⟩ := h.exists_parent hinit
    refine ⟨q, hparent, ?_⟩
    have hfuel : init.length < q.segments.length + 1 := by
      have hlength := congrArg List.length hq.segments
      rw [List.length_map, List.length_append] at hlength
      omega
    obtain ⟨i, m, r, rfl, ⟨es, hes⟩, hat⟩ := hq.exists_split
    have hbelow : here ++ (i ++ m :: r) ++ [name] = here ++ i ++ [m] ++ (r ++ [name]) := by simp
    rcases hat with hnone | ⟨bytes, executable, hfile⟩ | ⟨rfl, es', hes'⟩
    · -- Directories are made from here on.
      have hplace : disk.root.at? (here ++ (i ++ m :: r) ++ [name]) = none := by
        rw [hbelow, Node.at?_append, hnone]
        rfl
      obtain ⟨root', hrun, hmade⟩ := hq.makeFirst_run hfuel fun below hway bytes executable hfile => by
        rcases List.prefix_or_prefix_of_prefix hway (show i ++ [m] <+: i ++ m :: r by simp) with
          habove | ⟨rest, rfl⟩
        · rcases List.prefix_concat_iff.1 habove with rfl | ⟨rest, rfl⟩
          · rw [← List.append_assoc, hnone] at hfile
            exact absurd hfile (by simp)
          · rw [← List.append_assoc] at hes
            obtain ⟨es', hes'⟩ := Node.exists_directory_of_append hes
            exact absurd (hes'.symm.trans hfile) (by simp)
        · rw [← List.append_assoc, ← List.append_assoc, Node.at?_append, hnone] at hfile
          exact absurd hfile (by simp)
      exact .inl ⟨root', hrun, hmade, .inr hplace⟩
    · -- A file on the way stops the directories in the same way as the write itself.
      right
      refine ⟨_, hq.makeFirst_run_of_file hes hfile, fun bytes' => ?_⟩
      rw [hbelow]
      cases r with
      | nil => exact Node.withFile_of_file hfile
      | cons next r =>
        rw [List.cons_append, Node.withFile_of_file hfile, if_neg (by simp), if_neg (by simp)]
    · obtain ⟨rest, hrest⟩ := exists_ancestors q q.segments.length
      obtain ⟨root', hrun, hmade, hsame⟩ := hq.attempt_run_of_directory _ hes fun _ _ hfile =>
        absurd (hes'.symm.trans hfile) (by simp)
      rw [makeDirectories, hrest, makeFirst_cons hq.text_ne, ← List.append_assoc]
      exact .inl ⟨root', hrun, hmade, .inl (hsame ⟨es', hes'⟩)⟩

end Make

/-! ## Reading and writing -/

section Write

variable {disk : Disk} {path : Path} {front names init here place : List String} {name : String}
  {links : Nat} {bytes : Bytes} {es : List (String × Node)}

/-- **What is read on a way** is the file that its names lead to. -/
theorem WayBy.read_iff (h : disk.WayBy path front names links here) :
    disk.read path = .ok bytes ↔
      ∃ executable, disk.root.at? (here ++ names) = some (.file bytes executable) := by
  -- What stands at the first name that is no directory decides both how the path is read and what is at
  -- the place.
  obtain ⟨init, name, rest, rfl, ⟨es, hes⟩, hat⟩ := h.exists_split
  have hnames : ∀ s ∈ name :: rest, IsName s := fun s hs => h.isName s (List.mem_append_right _ hs)
  obtain ⟨hname, hrest⟩ := List.forall_mem_cons.1 hnames
  have hresolve := h.resolve_of_directory hes true
  have hplace : here ++ (init ++ name :: rest) = here ++ init ++ [name] ++ rest := by simp
  rw [hplace, Node.at?_append]
  rcases hat with hnone | ⟨bytes', executable, hfile⟩ | ⟨rfl, es', hdirectory⟩
  · rw [walkFrom_cons_none hname hrest hnone] at hresolve
    rw [hnone, read, Disk.node, hresolve]
    by_cases hnil : rest = []
    · simp [hnil, bind, Except.bind]
    · simp [hnil, bind, Except.bind]
  · rw [walkFrom_cons_file hname hfile] at hresolve
    rw [hfile, read, Disk.node, hresolve]
    cases rest with
    | nil => simp [bind, Except.bind, pure, Except.pure, Node.at?]
    | cons next rest => simp [bind, Except.bind, Node.at?]
  · rw [walkFrom_cons_directory hname hdirectory, walkFrom_nil, hdirectory] at hresolve
    rw [hdirectory, read, Disk.node, hresolve]
    simp [bind, Except.bind, pure, Except.pure, Node.at?]

/-- **In a directory that exists** a file is written at its name. -/
theorem WayBy.write_run (h : disk.WayBy path front (init ++ [name]) links here)
    (hdirectory : disk.root.at? (here ++ init) = some (.directory es)) (bytes : Bytes) :
    (write path bytes).run disk =
      match Node.withFile bytes (here ++ init ++ [name]) (some disk.root) with
      | .ok root' => (.ok (), { disk with root := root' })
      | .error fault => (.error fault, disk) := by
  have hresolve := h.resolve_of_directory hdirectory true
  have hname : IsName name := h.isName name (by simp)
  rw [Node.withFile_eq_put hdirectory, write, run_get_bind, hresolve]
  cases hat : disk.root.at? (here ++ init ++ [name]) with
  | none =>
    rw [walkFrom_cons_none hname (by simp) hat, if_pos rfl]
    rfl
  | some node =>
    cases node with
    | file bytes' executable =>
      rw [walkFrom_cons_file hname hat, if_pos rfl]
      rfl
    | link target =>
      have hlink := h.noLink _ (List.prefix_refl _) target
      rw [← List.append_assoc] at hlink
      exact absurd hat hlink
    | directory es' =>
      rw [walkFrom_cons_directory hname hat, walkFrom_nil, hat]
      rfl

theorem writeIfChanged_run_of_read (h : disk.read path = .ok bytes) :
    (writeIfChanged path bytes).run disk = (.ok false, disk) := by
  rw [writeIfChanged, run_get_bind, h]
  dsimp only
  rw [beq_self_eq_true, if_pos rfl]
  rfl

theorem writeIfChanged_run_of_ne {q : Path} (h : disk.read path ≠ .ok bytes)
    (hparent : path.parent? = some q) : (writeIfChanged path bytes).run disk =
      (makeDirectories q >>= fun _ => write path bytes >>= fun _ => pure true).run disk := by
  rw [writeIfChanged, run_get_bind, hparent]
  cases hread : disk.read path with
  | error fault => rfl
  | ok existing =>
    have hne : (existing == bytes) = false := by
      rw [hread] at h
      simpa using h
    dsimp only
    rw [hne]
    rfl

/-- What the directory of a path and the file itself come to. -/
theorem WayBy.writeIfChanged_run (h : disk.WayBy path front names links here)
    (hbytes : disk.read path ≠ .ok bytes) : (writeIfChanged path bytes).run disk =
      match Node.withFile bytes (here ++ names) (some disk.root) with
      | .ok root' => (.ok true, { disk with root := root' })
      | .error fault => (.error fault, disk) := by
  obtain ⟨init, name, rfl⟩ : ∃ init name, names = init ++ [name] :=
    ⟨_, _, (List.dropLast_concat_getLast h.names_ne_nil).symm⟩
  obtain ⟨q, hparent, ⟨root', hrun, hmade, hsame⟩ | ⟨fault, hrun, hfault⟩⟩ := h.makeDirectories_run
  · -- The directories are part of the write, so only the write is left to be compared.
    obtain ⟨es, hes⟩ := hmade.directory
    have hwrite := (h.grows hmade.grows).write_run hes bytes
    rw [writeIfChanged_run_of_ne hbytes hparent, run_bind, hrun, ← List.append_assoc]
    dsimp only
    rw [run_bind, hwrite, hmade.withFile_eq bytes [name] (by simp)]
    cases hfile : Node.withFile bytes (here ++ init ++ [name]) (some disk.root) with
    | ok root'' => rfl
    | error fault =>
      -- Only a directory at the place itself can stop the write, and then none is made above it.
      rcases hsame with rfl | hnone
      · rfl
      · rw [← hmade.withFile_eq bytes [name] (by simp), Node.withFile_eq_put hes,
          hmade.below (List.cons_ne_nil name []), hnone] at hfile
        exact absurd hfile (by simp [Node.withFile, Except.map])
  · rw [writeIfChanged_run_of_ne hbytes hparent, run_bind, hrun, ← List.append_assoc, hfault]

/-- **A way stays** when the tree grows. -/
theorem Way.grows {root' : Node} (h : disk.Way path place) (hgrows : disk.root.Grows root') :
    Way { disk with root := root' } path place := by
  obtain ⟨front, names, links, here, hway, hplace⟩ := h
  exact ⟨front, names, links, here, hway.grows hgrows, hplace⟩

/-- **What is read on a way** is the file at its place. -/
theorem Way.read_iff (h : disk.Way path place) :
    disk.read path = .ok bytes ↔ disk.root.holds bytes place = true := by
  obtain ⟨front, names, links, here, hway, rfl⟩ := h
  rw [hway.read_iff, Node.holds_iff]

/-- **What is written on a way** is the file at its place and nothing else. -/
theorem Way.writeIfChanged_run (h : disk.Way path place) (bytes : Bytes) :
    ∃ changed, (writeIfChanged path bytes).run disk =
      ((disk.root.updated bytes place).2.elim (.ok changed) .error,
        { disk with root := (disk.root.updated bytes place).1 }) := by
  have hread : disk.read path = .ok bytes ↔ _ := h.read_iff
  obtain ⟨front, names, links, here, hway, rfl⟩ := h
  by_cases hholds : disk.root.holds bytes (here ++ names) = true
  · rw [Node.updated_of_holds hholds]
    exact ⟨false, writeIfChanged_run_of_read (hread.2 hholds)⟩
  · have hrun := hway.writeIfChanged_run fun hok => hholds (hread.1 hok)
    have hnot : disk.root.holds bytes (here ++ names) = false := Bool.eq_false_iff.2 hholds
    refine ⟨true, ?_⟩
    cases hfile : Node.withFile bytes (here ++ names) (some disk.root) with
    | ok root' =>
      rw [Node.updated_of_ok hnot hfile, hrun, hfile]
      rfl
    | error fault =>
      rw [Node.updated_of_error hnot hfile, hrun, hfile]
      rfl

end Write

end Disk

end MailTemplate
