import MailTemplate.Proofs.DiskWays
import MailTemplate.Proofs.PathDescents
import MailTemplate.Proofs.TreeWalks

/-!
# Places on a disk

A path to a directory leads to one place in the tree, and keeps leading there when the tree grows.  What
is below the directory is reached through its names, unless the path gets too long or holds a character
that no path can hold, and which of these it is does not depend on the disk.  Making a directory leads to
such a place, by whatever links and dots its path goes.

## Main definitions

* `Disk.HasCurrent` — the current directory exists.
* `Disk.LeadsTo` — the place of a directory.

## Main results

* `Disk.isDirectory_iff` — what leads to a directory leads to a place.
* `Disk.LeadsTo.resolve_down_of_at?` — what is reached below a directory.
* `Disk.LeadsTo.child_cases` — a name in a directory is on a way, or is never reached.
* `Disk.isDirectory_of_makeDirectories`, `Disk.grows_makeDirectories` — what making directories comes to.
-/

namespace MailTemplate

namespace Disk

/-- The current directory exists. -/
def HasCurrent (disk : Disk) : Prop := ∃ es, disk.root.at? disk.current = some (.directory es)

section Walk

variable {root root' : Node} {follow trailing : Bool} {links : Nat} {name : String}
  {segments names here place directory : List String} {es : List (String × Node)} {node : Node}
  {onLink : List String → List String → Except Fault Place}

theorem exists_directory_dropLast (h : ∃ es, root.at? here = some (.directory es)) :
    ∃ es, root.at? here.dropLast = some (.directory es) := by
  obtain ⟨es, hes⟩ := h
  rcases List.eq_nil_or_concat here with rfl | ⟨front, last, rfl⟩
  · exact ⟨es, hes⟩
  · rw [List.concat_eq_append] at hes ⊢
    rw [List.dropLast_concat]
    exact Node.exists_directory_of_append hes

theorem exists_directory_start (h : ∃ es, root.at? here = some (.directory es)) (absolute : Bool) :
    ∃ es, root.at? (if absolute then [] else here) = some (.directory es) := by
  cases absolute with
  | false => exact h
  | true =>
    obtain ⟨es, hes⟩ := h
    exact Node.exists_directory_of_append (show root.at? ([] ++ here) = _ from hes)

theorem HasCurrent.start {disk : Disk} (h : disk.HasCurrent) (path : Path) :
    ∃ es, disk.root.at? (if path.isAbsolute then [] else disk.current) = some (.directory es) :=
  exists_directory_start h _

/-! ## Walks to directories -/

theorem passes_of_walkBy (hhere : ∃ es, root.at? here = some (.directory es))
    (hlink : ∀ segments here, (∃ es, root.at? here = some (.directory es)) →
      onLink segments here = .ok (.found place (.directory es)) →
        ∃ left, links = left + 1 ∧ root.at? place = some (.directory es) ∧
          ∃ links', Passes root left segments here links' place)
    (h : walkBy root follow onLink segments here = .ok (.found place (.directory es))) :
    root.at? place = some (.directory es) ∧ ∃ links', Passes root links segments here links' place := by
  induction segments generalizing here with
  | nil =>
    obtain ⟨es', hes'⟩ := hhere
    obtain ⟨rfl, hnode⟩ := Place.found.inj (Except.ok.inj h)
    rw [hes'] at hnode
    exact ⟨hes'.trans (congrArg some hnode), _, .done _ _⟩
  | cons segment rest ih =>
    rw [walkBy] at h
    split at h
    · next hskip =>
      obtain ⟨hplace, links', hpasses⟩ := ih hhere h
      exact ⟨hplace, links', .skip hskip hpasses⟩
    next hskip =>
    split at h
    · next hup =>
      subst hup
      obtain ⟨hplace, links', hpasses⟩ := ih (exists_directory_dropLast hhere) h
      exact ⟨hplace, links', .up hpasses⟩
    next hup =>
    split at h
    · exact absurd h (by simp)
    next hlength =>
    have hname : IsName segment :=
      ⟨fun hnil => hskip (.inl hnil), fun hdot => hskip (.inr hdot), hup, Nat.not_lt.1 hlength⟩
    split at h
    · split at h <;> exact absurd h (by simp)
    · next hdirectory =>
      obtain ⟨hplace, links', hpasses⟩ := ih ⟨_, hdirectory⟩ h
      exact ⟨hplace, links', .down hname hdirectory hpasses⟩
    · split at h <;> exact absurd h (by simp)
    · next target htarget =>
      split at h
      · exact absurd h (by simp)
      · obtain ⟨left, rfl, hplace, links', hpasses⟩ :=
          hlink _ _ (exists_directory_start hhere _) h
        exact ⟨hplace, links', .follow hname htarget hpasses⟩

/-- **A walk to a directory** passes through directories and links that exist. -/
theorem passes_of_walkFrom (hhere : ∃ es, root.at? here = some (.directory es))
    (h : walkFrom root follow links segments here = .ok (.found place (.directory es))) :
    root.at? place = some (.directory es) ∧ ∃ links', Passes root links segments here links' place := by
  induction links generalizing segments here with
  | zero => exact passes_of_walkBy hhere (fun _ _ _ hloop => absurd hloop (by simp)) h
  | succ links ih => exact passes_of_walkBy hhere (fun _ _ hdirectory hok => ⟨links, rfl, ih hdirectory hok⟩) h

/-- Segments lead to a free name of a directory: there is nothing, and when there is a directory they
lead to it. -/
def LeadsToFree (root root' : Node) (links : Nat) (segments here directory : List String)
    (name : String) : Prop :=
  (∃ es, root.at? directory = some (.directory es)) ∧ root.at? (directory ++ [name]) = none ∧
    ∀ es, root'.at? (directory ++ [name]) = some (.directory es) →
      ∃ links', Passes root' links segments here links' (directory ++ [name])

theorem LeadsToFree.imp {links' : Nat} {segments' here' : List String}
    (h : LeadsToFree root root' links segments here directory name)
    (hpasses : ∀ left place, Passes root' links segments here left place →
      Passes root' links' segments' here' left place) :
    LeadsToFree root root' links' segments' here' directory name := by
  obtain ⟨hes, hnone, hfree⟩ := h
  refine ⟨hes, hnone, fun es hnew => ?_⟩
  obtain ⟨left, hleads⟩ := hfree es hnew
  exact ⟨left, hpasses _ _ hleads⟩

theorem leadsToFree_of_walkBy (hgrows : root.Grows root')
    (hhere : ∃ es, root.at? here = some (.directory es))
    (hlink : ∀ segments here, (∃ es, root.at? here = some (.directory es)) →
      onLink segments here = .ok (.free directory name trailing) →
        ∃ left, links = left + 1 ∧ LeadsToFree root root' left segments here directory name)
    (h : walkBy root follow onLink segments here = .ok (.free directory name trailing)) :
    LeadsToFree root root' links segments here directory name := by
  induction segments generalizing here with
  | nil => exact absurd h (by simp [walkBy])
  | cons segment rest ih =>
    rw [walkBy] at h
    split at h
    · next hskip => exact (ih hhere h).imp fun _ _ => .skip hskip
    next hskip =>
    split at h
    · next hup =>
      subst hup
      exact (ih (exists_directory_dropLast hhere) h).imp fun _ _ => .up
    next hup =>
    split at h
    · exact absurd h (by simp)
    next hlength =>
    have hname : IsName segment :=
      ⟨fun hnil => hskip (.inl hnil), fun hdot => hskip (.inr hdot), hup, Nat.not_lt.1 hlength⟩
    split at h
    · next hnone =>
      split at h
      · next hrest =>
        -- Nothing but separators stands behind the free name.
        obtain ⟨rfl, rfl, -⟩ := Place.free.inj (Except.ok.inj h)
        refine ⟨hhere, hnone, fun es hnew => ⟨links, .down hname hnew (.of_trivial ?_ _ _)⟩⟩
        intro s hs
        exact .inl (beq_iff_eq.1 (List.all_eq_true.1 hrest s hs))
      · exact absurd h (by simp)
    · next hdirectory =>
      obtain ⟨es', hes'⟩ := hgrows.directory _ _ hdirectory
      exact (ih ⟨_, hdirectory⟩ h).imp fun _ _ => .down hname hes'
    · split at h <;> exact absurd h (by simp)
    · next target htarget =>
      split at h
      · exact absurd h (by simp)
      · obtain ⟨left, rfl, hfree⟩ := hlink _ _ (exists_directory_start hhere _) h
        exact hfree.imp fun _ _ => .follow hname ((hgrows.link _ _).2 htarget)

/-- **A walk to a free name** leads to the directory that is made there. -/
theorem leadsToFree_of_walkFrom (hgrows : root.Grows root')
    (hhere : ∃ es, root.at? here = some (.directory es))
    (h : walkFrom root follow links segments here = .ok (.free directory name trailing)) :
    LeadsToFree root root' links segments here directory name := by
  induction links generalizing segments here with
  | zero => exact leadsToFree_of_walkBy hgrows hhere (fun _ _ _ hloop => absurd hloop (by simp)) h
  | succ links ih =>
    exact leadsToFree_of_walkBy hgrows hhere (fun _ _ hdirectory hok => ⟨links, rfl, ih hdirectory hok⟩) h

/-! ## Walks down -/

theorem isName_of_isOrdinary (h : Path.IsOrdinary name) (hlength : name.utf8ByteSize ≤ maxName) :
    IsName name :=
  ⟨h.ne_empty, h.ne_current, h.ne_parent, hlength⟩

theorem walkFrom_cons_long (h : Path.IsOrdinary name) (hlength : ¬ name.utf8ByteSize ≤ maxName)
    (rest : List String) :
    walkFrom root follow links (name :: rest) here = .error .nameTooLong := by
  have hskip : ¬ (name = "" ∨ name = ".") := not_or.2 ⟨h.ne_empty, h.ne_current⟩
  cases links <;> simp [walkFrom, walkBy, hskip, h.ne_parent, Nat.lt_of_not_le hlength]

/-- **Names lead down** to what is at their place, unless one of them is too long. -/
theorem walkFrom_down (hnames : ∀ n ∈ names, Path.IsOrdinary n)
    (hat : root.at? (here ++ names) = some node) (hlink : ∀ target, node ≠ .link target) :
    walkFrom root follow links names here =
      if ∀ n ∈ names, n.utf8ByteSize ≤ maxName then .ok (.found (here ++ names) node)
      else .error .nameTooLong := by
  induction names generalizing here with
  | nil =>
    rw [List.append_nil] at hat ⊢
    rw [walkFrom_nil, hat, if_pos (List.forall_mem_nil _)]
    rfl
  | cons name names ih =>
    obtain ⟨hname, hnames⟩ := List.forall_mem_cons.1 hnames
    have happend : here ++ name :: names = here ++ [name] ++ names := by simp
    rw [happend] at hat ⊢
    simp only [List.forall_mem_cons]
    by_cases hlength : name.utf8ByteSize ≤ maxName
    · simp only [hlength, true_and]
      rw [← ih hnames hat]
      have hname := isName_of_isOrdinary hname hlength
      rw [Node.at?_append] at hat
      obtain ⟨inner, hinner, hrest⟩ := Option.bind_eq_some_iff.1 hat
      -- Only a directory has something behind it, and a file is where the walk ends.
      cases inner with
      | directory => exact walkFrom_cons_directory hname hinner
      | link target =>
        cases names with
        | nil => exact absurd (Option.some.inj hrest).symm (hlink target)
        | cons => exact absurd hrest (by simp [Node.at?])
      | file bytes executable =>
        cases names with
        | nil => rw [walkFrom_cons_file hname hinner, if_pos rfl, walkFrom_nil, hinner]; rfl
        | cons => exact absurd hrest (by simp [Node.at?])
    · rw [walkFrom_cons_long hname hlength, if_neg (fun h => hlength h.1)]

end Walk

/-! ## Paths to directories -/

/-- A path leads to the place of a directory, and leaves so many links to follow. -/
structure LeadsTo (disk : Disk) (path : Path) (links : Nat) (place : List String) : Prop where
  /-- It has a text. -/
  text_ne : path.text ≠ ""
  /-- A path can hold it. -/
  noNul : (path.text.toList.any fun c => c.toNat == 0) = false
  /-- It is not too long. -/
  length : path.text.utf8ByteSize ≤ maxPath
  /-- Its segments lead to the place. -/
  passes : Passes disk.root maxLinks (path.segments.map String.ofList)
    (if path.isAbsolute then [] else disk.current) links place
  /-- There is a directory. -/
  directory : ∃ es, disk.root.at? place = some (.directory es)

/-- Why names below a path cannot be reached, whatever there is. -/
def downFault (path : Path) (names : List String) : Option Fault :=
  if (path.down names).text.toList.any fun c => c.toNat == 0 then some .nul
  else if maxPath < (path.down names).text.utf8ByteSize then some .nameTooLong
  else if ∀ n ∈ names, n.utf8ByteSize ≤ maxName then none
  else some .nameTooLong

section Places

variable {disk : Disk} {root' node : Node} {path : Path} {links links' : Nat} {name : String}
  {names place place' : List String} {es : List (String × Node)} {follow : Bool}

theorem downFault_eq_none_iff : downFault path names = none ↔
    ((path.down names).text.toList.any fun c => c.toNat == 0) = false ∧
      (path.down names).text.utf8ByteSize ≤ maxPath ∧ ∀ n ∈ names, n.utf8ByteSize ≤ maxName := by
  rw [downFault]
  split
  · next h => simp [h]
  next hnul =>
  split
  · next h => simp [Nat.not_le.2 h]
  next hlength =>
  split
  · next h => simpa [hnul, Nat.not_lt.1 hlength] using h
  · next h => simp [h]

theorem resolve_eq_ok {found : Place} (h : disk.resolve follow path = .ok found) :
    path.text ≠ "" ∧ (path.text.toList.any fun c => c.toNat == 0) = false ∧
      path.text.utf8ByteSize ≤ maxPath ∧
        walkFrom disk.root follow maxLinks (path.segments.map String.ofList)
          (if path.isAbsolute then [] else disk.current) = .ok found := by
  unfold resolve at h
  split at h
  · exact absurd h (by simp)
  next htext =>
  split at h
  · exact absurd h (by simp)
  next hnul =>
  split at h
  · exact absurd h (by simp)
  next hlength => exact ⟨htext, Bool.eq_false_iff.2 hnul, Nat.not_lt.1 hlength, h⟩

theorem node_eq_ok_iff : disk.node path = .ok node ↔
    ∃ place, disk.resolve true path = .ok (.found place node) := by
  rw [Disk.node]
  cases disk.resolve true path with
  | error fault => simp [bind, Except.bind]
  | ok found => cases found <;> simp [bind, Except.bind, pure, Except.pure, throw, throwThe, MonadExceptOf.throw]

namespace LeadsTo

theorem resolve_eq (h : disk.LeadsTo path links place)
    (hes : disk.root.at? place = some (.directory es)) :
    disk.resolve true path = .ok (.found place (.directory es)) := by
  have hwalk := h.passes.walkFrom_append (@Or.inr ([] ≠ []) _ (rfl : true = true))
  rw [List.append_nil, walkFrom_nil, hes] at hwalk
  rw [resolve, if_neg h.text_ne, if_neg (by simp [h.noNul]), if_neg (Nat.not_lt.2 h.length)]
  exact hwalk

theorem node_eq (h : disk.LeadsTo path links place)
    (hes : disk.root.at? place = some (.directory es)) : disk.node path = .ok (.directory es) :=
  node_eq_ok_iff.2 ⟨place, h.resolve_eq hes⟩

theorem list_eq (h : disk.LeadsTo path links place)
    (hes : disk.root.at? place = some (.directory es)) : disk.list path = .ok es := by
  rw [Disk.list, h.node_eq hes]
  rfl

/-- There is one place only. -/
theorem place_eq (h : disk.LeadsTo path links place) (h' : disk.LeadsTo path links' place') :
    place = place' := by
  obtain ⟨es, hes⟩ := h.directory
  obtain ⟨es', hes'⟩ := h'.directory
  have hsame := (h.resolve_eq hes).symm.trans (h'.resolve_eq hes')
  exact (Place.found.inj (Except.ok.inj hsame)).1

/-- **A path leads where it led** when the tree grows. -/
theorem grows (h : disk.LeadsTo path links place) (hgrows : disk.root.Grows root') :
    LeadsTo { disk with root := root' } path links place := by
  refine ⟨h.text_ne, h.noNul, h.length, h.passes.grows hgrows, ?_⟩
  obtain ⟨es, hes⟩ := h.directory
  exact hgrows.directory place es hes

theorem exists_front (h : disk.LeadsTo path links place) (hnames : ∀ n ∈ names, Path.IsOrdinary n)
    (hne : names ≠ []) :
    ∃ front, front ≠ [] ∧ (path.down names).segments.map String.ofList = front ++ names ∧
      Passes disk.root maxLinks front (if (path.down names).isAbsolute then [] else disk.current) links
        place := by
  obtain ⟨first, hfirst_ne, hfirst, hsegments⟩ := Path.exists_segments_down h.text_ne hnames hne
  refine ⟨first.map String.ofList, by simpa using hfirst_ne, ?_, ?_⟩
  · rw [hsegments]
    simp [Function.comp_def]
  · rw [Path.isAbsolute_down h.text_ne hnames]
    have hpasses := h.passes
    rcases hfirst with hfirst | hfirst
    · rwa [hfirst] at hpasses
    · -- The separator at the end of the path leads nowhere.
      rw [hfirst, List.map_append] at hpasses
      obtain ⟨left, here, hfront, hend⟩ := hpasses.exists_of_append rfl
      obtain ⟨rfl, rfl⟩ := hend.eq_of_trivial (by simp)
      exact hfront

/-- **The directory of an entry** is the one that the entry is in. -/
theorem exists_parent_child (h : disk.LeadsTo path links place) (hname : Path.IsStep name) :
    ∃ q, (path.child name).parent? = some q ∧ disk.LeadsTo q links place := by
  obtain ⟨q, kept, trail, hparent, htext_ne, htext, hsegments, htrail, hq⟩ :=
    Path.exists_parent_child h.text_ne hname
  refine ⟨q, hparent, htext_ne, noNul_of_text h.noNul htext, length_of_text h.length htext, ?_, h.directory⟩
  have hpasses := h.passes
  rw [hsegments, List.map_append] at hpasses
  rw [Path.isAbsolute_eq_of_text htext_ne htext]
  refine passes_of_trail hpasses (fun s hs => ?_) ?_
  · obtain ⟨cs, hcs, rfl⟩ := List.mem_map.1 hs
    apply WayBy.isTrivial_toList.1
    rw [String.toList_ofList]
    exact htrail cs hcs
  · rcases hq with hq | ⟨rfl, hq⟩
    · exact .inl (congrArg _ hq)
    · exact .inr ⟨rfl, congrArg (List.map String.ofList) hq⟩

/-- **Names below a directory** lead on from its place. -/
theorem resolve_down (h : disk.LeadsTo path links place) (hnames : ∀ n ∈ names, Path.IsOrdinary n)
    (hne : names ≠ []) (follow : Bool) :
    disk.resolve follow (path.down names) =
      if (path.down names).text.toList.any fun c => c.toNat == 0 then .error .nul
      else if maxPath < (path.down names).text.utf8ByteSize then .error .nameTooLong
      else walkFrom disk.root follow links names place := by
  obtain ⟨front, -, hsegments, hpasses⟩ := h.exists_front hnames hne
  rw [resolve, if_neg (Path.text_down_ne h.text_ne hnames), hsegments,
    hpasses.walkFrom_append (.inl hne)]

/-- **What is reached below a directory** is what is at its place, unless it cannot be reached at all. -/
theorem resolve_down_of_at? (h : disk.LeadsTo path links place) (hnames : ∀ n ∈ names, Path.IsOrdinary n)
    (hne : names ≠ []) (hat : disk.root.at? (place ++ names) = some node)
    (hlink : ∀ target, node ≠ .link target) :
    disk.resolve true (path.down names) =
      (downFault path names).elim (.ok (.found (place ++ names) node)) .error := by
  rw [h.resolve_down hnames hne, walkFrom_down hnames hat hlink, downFault]
  split
  · rfl
  split
  · rfl
  split
  · rfl
  · rfl

/-- **Names in a directory are on a way** if no link stands on it and they can be reached at all. -/
theorem wayBy_down (h : disk.LeadsTo path links place) (hnames : ∀ n ∈ names, Path.IsOrdinary n)
    (hne : names ≠ []) (hfault : downFault path names = none)
    (hlink : ∀ below, below <+: names → ∀ target, disk.root.at? (place ++ below) ≠ some (.link target)) :
    ∃ front, disk.WayBy (path.down names) front names links place := by
  obtain ⟨hnul, hpath, hlength⟩ := downFault_eq_none_iff.1 hfault
  obtain ⟨front, hfront, hsegments, hpasses⟩ := h.exists_front hnames hne
  exact ⟨front, hnul, hpath, hsegments, hfront, hne, hpasses, h.directory,
    fun n hn => isName_of_isOrdinary (hnames n hn) (hlength n hn), hlink⟩

theorem wayBy_child (h : disk.LeadsTo path links place) (hname : Path.IsOrdinary name)
    (hfault : downFault path [name] = none)
    (hlink : ∀ target, disk.root.at? (place ++ [name]) ≠ some (.link target)) :
    ∃ front, disk.WayBy (path.child name) front [name] links place := by
  have hnames : ∀ n ∈ [name], Path.IsOrdinary n := by simpa using hname
  refine h.wayBy_down hnames (List.cons_ne_nil _ _) hfault fun below hbelow target => ?_
  rcases List.prefix_concat_iff.1 (show below <+: [] ++ [name] from hbelow) with rfl | hnil
  · exact hlink target
  · rw [List.prefix_nil.1 hnil, List.append_nil]
    obtain ⟨es, hes⟩ := h.directory
    rw [hes]
    simp

/-- **A name in a directory is on a way** if no link stands at it, or it is never reached. -/
theorem child_cases (h : disk.LeadsTo path links place) (hname : Path.IsOrdinary name)
    (hlink : ∀ target, disk.root.at? (place ++ [name]) ≠ some (.link target)) :
    (∃ front, disk.WayBy (path.child name) front [name] links place) ∨
      ∃ fault, ∀ root' follow, disk.root.Grows root' →
        resolve { disk with root := root' } follow (path.child name) = .error fault := by
  have hnames : ∀ n ∈ [name], Path.IsOrdinary n := by simpa using hname
  have hdown : ∀ root' follow, disk.root.Grows root' → _ := fun root' follow hgrows =>
    (h.grows hgrows).resolve_down hnames (List.cons_ne_nil _ _) follow
  by_cases hnul : ((path.child name).text.toList.any fun c => c.toNat == 0) = true
  · exact .inr ⟨.nul, fun root' follow hgrows => (hdown root' follow hgrows).trans (if_pos hnul)⟩
  by_cases hpath : maxPath < (path.child name).text.utf8ByteSize
  · exact .inr ⟨.nameTooLong, fun root' follow hgrows =>
      (hdown root' follow hgrows).trans ((if_neg hnul).trans (if_pos hpath))⟩
  by_cases hlength : name.utf8ByteSize ≤ maxName
  · refine .inl (h.wayBy_child hname (downFault_eq_none_iff.2 ⟨?_, Nat.not_lt.1 hpath, ?_⟩) hlink)
    · exact Bool.eq_false_iff.2 hnul
    · simpa using hlength
  · exact .inr ⟨.nameTooLong, fun root' follow hgrows => (hdown root' follow hgrows).trans
      ((if_neg hnul).trans ((if_neg hpath).trans (walkFrom_cons_long hname hlength [])))⟩

end LeadsTo

/-- **What leads to a directory** leads to a place. -/
theorem isDirectory_iff (h : disk.HasCurrent) :
    disk.isDirectory path = true ↔ ∃ links place, disk.LeadsTo path links place := by
  rw [isDirectory]
  constructor
  · intro hdirectory
    cases hnode : disk.node path with
    | error fault => rw [hnode] at hdirectory; exact absurd hdirectory Bool.false_ne_true
    | ok node =>
      rw [hnode] at hdirectory
      cases node with
      | file => exact absurd hdirectory Bool.false_ne_true
      | link => exact absurd hdirectory Bool.false_ne_true
      | directory es =>
        obtain ⟨place, hresolve⟩ := node_eq_ok_iff.1 hnode
        obtain ⟨htext, hnul, hlength, hwalk⟩ := resolve_eq_ok hresolve
        obtain ⟨hes, links, hpasses⟩ := passes_of_walkFrom (h.start path) hwalk
        exact ⟨links, place, htext, hnul, hlength, hpasses, es, hes⟩
  · rintro ⟨links, place, hleads⟩
    obtain ⟨es, hes⟩ := hleads.directory
    rw [hleads.node_eq hes]
    rfl

end Places

/-! ## Making directories -/

section Make

variable {disk after : Disk} {path : Path} {paths : List Path} {retry : DiskM Unit}
  {outcome : Except Fault Unit}

/-- A disk whose tree has grown. -/
def Grows (disk after : Disk) : Prop := disk.root.Grows after.root ∧ after.current = disk.current

theorem Grows.refl (disk : Disk) : disk.Grows disk := ⟨.refl _, rfl⟩

theorem Grows.trans {disk₁ disk₂ disk₃ : Disk} (h : disk₁.Grows disk₂) (h' : disk₂.Grows disk₃) :
    disk₁.Grows disk₃ :=
  ⟨h.1.trans h'.1, h'.2.trans h.2⟩

theorem HasCurrent.grows (h : disk.HasCurrent) (hgrows : disk.Grows after) : after.HasCurrent := by
  obtain ⟨es, hes⟩ := h
  rw [HasCurrent, hgrows.2]
  exact hgrows.1.directory _ _ hes

theorem LeadsTo.of_grows {links : Nat} {place : List String} (h : disk.LeadsTo path links place)
    (hgrows : disk.Grows after) : after.LeadsTo path links place := by
  obtain ⟨root', current⟩ := after
  obtain ⟨hroot, rfl⟩ := hgrows
  exact h.grows hroot

theorem isDirectory_of_grows (hcurrent : disk.HasCurrent) (h : disk.isDirectory path = true)
    (hgrows : disk.Grows after) : after.isDirectory path = true := by
  obtain ⟨links, place, hleads⟩ := (isDirectory_iff hcurrent).1 h
  exact (isDirectory_iff (hcurrent.grows hgrows)).2 ⟨links, place, hleads.of_grows hgrows⟩

/-- A directory that was made at a free name is one. -/
theorem put_directory_of_free {directory : List String} {name : String} {trailing : Bool}
    (hcurrent : disk.HasCurrent) (h : disk.resolve false path = .ok (.free directory name trailing)) :
    disk.Grows (disk.put (directory ++ [name]) (.directory [])) ∧
      (disk.put (directory ++ [name]) (.directory [])).isDirectory path = true := by
  obtain ⟨htext, hnul, hlength, hwalk⟩ := resolve_eq_ok h
  obtain ⟨⟨es, hes⟩, hnone, -⟩ := leadsToFree_of_walkFrom (.refl _) (hcurrent.start path) hwalk
  have hgrows : disk.Grows (disk.put (directory ++ [name]) (.directory [])) :=
    ⟨Node.grows_put_directory hes hnone, rfl⟩
  have hnew : (disk.put (directory ++ [name]) (.directory [])).root.at? (directory ++ [name]) =
      some (.directory []) := Node.at?_put_append hes []
  obtain ⟨-, -, hfree⟩ := leadsToFree_of_walkFrom hgrows.1 (hcurrent.start path) hwalk
  obtain ⟨links, hpasses⟩ := hfree [] hnew
  exact ⟨hgrows, (isDirectory_iff (hcurrent.grows hgrows)).2
    ⟨links, directory ++ [name], htext, hnul, hlength, hpasses, [], hnew⟩⟩

/-- What an attempt comes to: the directory exists, or nothing was done, or what is done if something is
missing was done. -/
theorem attempt_cases (hcurrent : disk.HasCurrent) (h : (attempt path retry).run disk = (outcome, after)) :
    disk.Grows after ∧ after.isDirectory path = true ∨
      (∃ fault, outcome = .error fault) ∧ after = disk ∨ retry.run disk = (outcome, after) := by
  rw [attempt_run] at h
  have hif : ∀ fault : Fault,
      ((if disk.isDirectory path = true then (.ok () : Except Fault Unit) else .error fault), disk) =
        (outcome, after) →
      disk.Grows after ∧ after.isDirectory path = true ∨
        (∃ fault, outcome = .error fault) ∧ after = disk := by
    intro fault hresult
    obtain ⟨houtcome, rfl⟩ := Prod.mk.inj hresult
    by_cases hdirectory : disk.isDirectory path = true
    · exact .inl ⟨.refl _, hdirectory⟩
    · exact .inr ⟨⟨fault, by rw [← houtcome, if_neg hdirectory]⟩, rfl⟩
  cases hresolve : disk.resolve false path with
  | error fault =>
    rw [hresolve] at h
    dsimp only at h
    split at h
    · exact .inr (.inr h)
    · exact (hif fault h).imp_right .inl
  | ok found =>
    rw [hresolve] at h
    cases found with
    | found => exact (hif .exists h).imp_right .inl
    | free directory name trailing =>
      obtain ⟨-, rfl⟩ := Prod.mk.inj h
      exact .inl (put_directory_of_free hcurrent hresolve)

theorem makeFirst_cases (hcurrent : disk.HasCurrent) (h : (makeFirst paths).run disk = (outcome, after)) :
    disk.Grows after ∧ (outcome = .ok () → ∀ path rest, paths = path :: rest → path.text ≠ "" →
      after.isDirectory path = true) := by
  induction paths generalizing disk outcome after with
  | nil =>
    obtain ⟨rfl, rfl⟩ := Prod.mk.inj h
    exact ⟨.refl _, fun hok => absurd hok (by simp)⟩
  | cons path rest ih =>
    by_cases htext : path.text = ""
    · rw [makeFirst, if_pos htext] at h
      obtain ⟨rfl, rfl⟩ := Prod.mk.inj h
      refine ⟨.refl _, fun _ path' rest' heq hne => ?_⟩
      obtain ⟨rfl, -⟩ := List.cons.inj heq
      exact absurd htext hne
    rw [makeFirst_cons htext] at h
    suffices hpath : disk.Grows after ∧ (outcome = .ok () → after.isDirectory path = true) by
      refine ⟨hpath.1, fun hok path' rest' heq _ => ?_⟩
      obtain ⟨rfl, -⟩ := List.cons.inj heq
      exact hpath.2 hok
    rcases attempt_cases hcurrent h with ⟨hgrows, hdirectory⟩ | ⟨⟨fault, rfl⟩, rfl⟩ | hretry
    · exact ⟨hgrows, fun _ => hdirectory⟩
    · exact ⟨.refl _, fun hok => absurd hok (by simp)⟩
    -- The directories above were made, and then the attempt was repeated.
    rw [run_bind] at hretry
    cases hrest : (makeFirst rest).run disk with
    | mk first between =>
      rw [hrest] at hretry
      obtain ⟨hgrows, -⟩ := ih hcurrent hrest
      cases first with
      | error fault =>
        obtain ⟨rfl, rfl⟩ := Prod.mk.inj hretry
        exact ⟨hgrows, fun hok => absurd hok (by simp)⟩
      | ok =>
        rcases attempt_cases (hcurrent.grows hgrows) hretry with
          ⟨hmore, hdirectory⟩ | ⟨⟨fault, rfl⟩, rfl⟩ | hthrow
        · exact ⟨hgrows.trans hmore, fun _ => hdirectory⟩
        · exact ⟨hgrows, fun hok => absurd hok (by simp)⟩
        · obtain ⟨rfl, rfl⟩ := Prod.mk.inj hthrow
          exact ⟨hgrows, fun hok => absurd hok (by simp)⟩

/-- **Making directories** lets the tree grow, also where it fails. -/
theorem grows_makeDirectories (hcurrent : disk.HasCurrent)
    (h : (makeDirectories path).run disk = (outcome, after)) : disk.Grows after :=
  (makeFirst_cases hcurrent h).1

/-- **A directory that was made is one.** -/
theorem isDirectory_of_makeDirectories (hcurrent : disk.HasCurrent) (htext : path.text ≠ "")
    (h : (makeDirectories path).run disk = (.ok (), after)) : after.isDirectory path = true := by
  obtain ⟨rest, hrest⟩ := exists_ancestors path path.segments.length
  exact (makeFirst_cases hcurrent h).2 rfl path rest hrest htext

/-- **A directory that exists** is not made again. -/
theorem makeDirectories_run_of_isDirectory (hcurrent : disk.HasCurrent)
    (h : disk.isDirectory path = true) : (makeDirectories path).run disk = (.ok (), disk) := by
  obtain ⟨links, place, hleads⟩ := (isDirectory_iff hcurrent).1 h
  obtain ⟨rest, hrest⟩ := exists_ancestors path path.segments.length
  obtain ⟨names, node, hwalk⟩ := hleads.passes.exists_found false
  have hresolve : disk.resolve false path = .ok (.found names node) := by
    rw [resolve, if_neg hleads.text_ne, if_neg (by simp [hleads.noNul]),
      if_neg (Nat.not_lt.2 hleads.length)]
    exact hwalk
  rw [makeDirectories, hrest, makeFirst_cons hleads.text_ne, attempt_run, hresolve]
  dsimp only
  rw [if_pos h]

/-! ### Their names -/

theorem isOrdinary_of_isName {name : String} (h : IsName name) (hslash : '/' ∉ name.toList) :
    Path.IsOrdinary name := by
  refine ⟨?_, hslash⟩
  have htrivial : ¬ Path.isTrivial name.toList = true := by
    rw [WayBy.isTrivial_toList, not_or]
    exact ⟨h.ne_nil, h.ne_current⟩
  have hparent : name.toList ≠ ['.', '.'] := by
    intro hdots
    exact h.ne_parent (String.toList_inj.1 hdots)
  rw [Path.component?, if_neg htrivial, if_neg hparent, String.ofList_toList]

theorem noSlash_segments (path : Path) :
    ∀ s ∈ path.segments.map String.ofList, '/' ∉ s.toList := by
  intro s hs
  obtain ⟨segment, hsegment, rfl⟩ := List.mem_map.1 hs
  rw [String.toList_ofList]
  exact Path.not_mem_of_mem_segments hsegment

section Names

variable {root : Node} {follow trailing : Bool} {links : Nat} {name : String}
  {segments here directory : List String} {onLink : List String → List String → Except Fault Place}

theorem isOrdinary_of_walkBy (hsegments : ∀ s ∈ segments, '/' ∉ s.toList)
    (hlink : ∀ segments here, (∀ s ∈ segments, '/' ∉ s.toList) →
      onLink segments here = .ok (.free directory name trailing) → Path.IsOrdinary name)
    (h : walkBy root follow onLink segments here = .ok (.free directory name trailing)) :
    Path.IsOrdinary name := by
  induction segments generalizing here with
  | nil => exact absurd h (by simp [walkBy])
  | cons segment rest ih =>
    obtain ⟨hsegment, hrest⟩ := List.forall_mem_cons.1 hsegments
    rw [walkBy] at h
    split at h
    · exact ih hrest h
    next hskip =>
    split at h
    · exact ih hrest h
    next hup =>
    split at h
    · exact absurd h (by simp)
    next hlength =>
    split at h
    · split at h
      · obtain ⟨-, rfl, -⟩ := Place.free.inj (Except.ok.inj h)
        have hname : IsName segment :=
          ⟨fun hnil => hskip (.inl hnil), fun hdot => hskip (.inr hdot), hup, Nat.not_lt.1 hlength⟩
        exact isOrdinary_of_isName hname hsegment
      · exact absurd h (by simp)
    · exact ih hrest h
    · split at h <;> exact absurd h (by simp)
    · next target _ =>
      split at h
      · exact absurd h (by simp)
      · refine hlink _ _ ?_ h
        exact List.forall_mem_append.2 ⟨noSlash_segments target, hrest⟩

/-- **A free name** that a walk leads to is ordinary, also where a link has led to it. -/
theorem isOrdinary_of_walkFrom (hsegments : ∀ s ∈ segments, '/' ∉ s.toList)
    (h : walkFrom root follow links segments here = .ok (.free directory name trailing)) :
    Path.IsOrdinary name := by
  induction links generalizing segments here with
  | zero => exact isOrdinary_of_walkBy hsegments (fun _ _ _ hloop => absurd hloop (by simp)) h
  | succ links ih => exact isOrdinary_of_walkBy hsegments (fun _ _ hsegments hok => ih hsegments hok) h

end Names

/-- What holds of a disk and is kept by every directory that is made at a free name. -/
structure IsKeptByMaking (P : Disk → Prop) : Prop where
  /-- It is kept. -/
  put : ∀ disk path directory name trailing, P disk →
    disk.resolve false path = .ok (.free directory name trailing) →
      P (disk.put (directory ++ [name]) (.directory []))

theorem IsKeptByMaking.attempt {P : Disk → Prop} (hP : IsKeptByMaking P) (hdisk : P disk)
    (hretry : ∀ outcome after, retry.run disk = (outcome, after) → P after)
    (h : (attempt path retry).run disk = (outcome, after)) : P after := by
  rw [attempt_run] at h
  cases hresolve : disk.resolve false path with
  | error fault =>
    rw [hresolve] at h
    dsimp only at h
    split at h
    · exact hretry _ _ h
    · exact (Prod.mk.inj h).2 ▸ hdisk
  | ok found =>
    rw [hresolve] at h
    cases found with
    | found => exact (Prod.mk.inj h).2 ▸ hdisk
    | free directory name trailing =>
      exact (Prod.mk.inj h).2 ▸ hP.put disk path directory name trailing hdisk hresolve

/-- **What every single directory keeps** is kept when directories are made, also where that fails. -/
theorem IsKeptByMaking.makeFirst {P : Disk → Prop} (hP : IsKeptByMaking P) (hdisk : P disk)
    (h : (makeFirst paths).run disk = (outcome, after)) : P after := by
  induction paths generalizing disk outcome after with
  | nil => exact (Prod.mk.inj h).2 ▸ hdisk
  | cons path rest ih =>
    by_cases htext : path.text = ""
    · rw [Disk.makeFirst, if_pos htext] at h
      exact (Prod.mk.inj h).2 ▸ hdisk
    rw [makeFirst_cons htext] at h
    refine hP.attempt hdisk (fun outcome' after' hretry => ?_) h
    rw [run_bind] at hretry
    rcases hrest : (Disk.makeFirst rest).run disk with ⟨first, between⟩
    rw [hrest] at hretry
    have hbetween := ih hdisk hrest
    cases first with
    | error fault => exact (Prod.mk.inj hretry).2 ▸ hbetween
    | ok =>
      refine hP.attempt hbetween (fun _ _ hthrow => ?_) hretry
      exact (Prod.mk.inj hthrow).2 ▸ hbetween

/-- **Making directories** gives ordinary names to them. -/
theorem isProper_makeDirectories (hcurrent : disk.HasCurrent) (hproper : disk.root.IsProper)
    (h : (makeDirectories path).run disk = (outcome, after)) : after.root.IsProper := by
  have hkept : IsKeptByMaking fun disk => disk.HasCurrent ∧ disk.root.IsProper := by
    constructor
    rintro disk path directory name trailing ⟨hcurrent, hproper⟩ hresolve
    obtain ⟨-, -, -, hwalk⟩ := resolve_eq_ok hresolve
    obtain ⟨⟨es, hes⟩, -⟩ := leadsToFree_of_walkFrom (.refl _) (hcurrent.start path) hwalk
    exact ⟨hcurrent.grows (put_directory_of_free hcurrent hresolve).1,
      hproper.put hes (isOrdinary_of_walkFrom (noSlash_segments path) hwalk) Node.isProper_empty⟩
  exact (hkept.makeFirst ⟨hcurrent, hproper⟩ h).2

end Make

end Disk

end MailTemplate
