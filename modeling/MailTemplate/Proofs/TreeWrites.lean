import MailTemplate.File.Disk

/-!
# Files written into a tree

Writing a file to a place makes the directories on the way that are missing.  It fails if something
stands in the way, and then changes nothing.  Directories and links stay what they are, so a tree only
grows. Two files can be written in any order unless one place is on the way to the other one: then the
first write decides whether there is a file or a directory.

## Main definitions

* `Node.withFile` — what is at a place after a file was written below it.
* `Node.Grows` — directories and links stay.
* `Node.MadeDown` — directories were made down to a place.
* `Node.updated` — a tree after a file was written unless it holds its bytes already.

## Main results

* `Entries.insert_comm` — entries of two names are set in any order.
* `Node.at?_withFile_self`, `Node.at?_withFile_off_way`, `Node.at?_withFile_on_way` — what is
  where after a write.
* `Node.withFile_comm`, `Node.withFile_error_of_withFile`, `Node.updated_comm` — files at places apart
  are written in any order.
-/

namespace MailTemplate

/-! ## Entries -/

namespace Entries

variable {α : Type} {key other : String}

theorem insert_insert_self (key : String) (a b : α) (entries : List (String × α)) :
    insert key a (insert key b entries) = insert key a entries := by
  induction entries with
  | nil => simp [insert]
  | cons e rest ih =>
    obtain ⟨k, c⟩ := e
    by_cases hk : k = key
    · simp [insert, hk]
    · by_cases hlt : key < k
      · simp [insert, hk, hlt]
      · simp [insert, hk, hlt, ih]

theorem insert_comm_of_lt (h : key < other) (a b : α) (entries : List (String × α)) :
    insert key a (insert other b entries) = insert other b (insert key a entries) := by
  have hne : key ≠ other := by
    rintro rfl
    exact String.lt_irrefl _ h
  have hnot : ¬ other < key := String.lt_asymm h
  induction entries with
  | nil => simp [insert, hne, hne.symm, h, hnot]
  | cons e rest ih =>
    obtain ⟨k, c⟩ := e
    by_cases hk : k = key
    · subst hk
      simp [insert, hne, hnot]
    · by_cases hlt : key < k
      · -- The smaller name stands before all others, whether the other one is new or not.
        by_cases hk' : k = other
        · simp [insert, hne, hne.symm, hk', h, hnot]
        · by_cases hlt' : other < k
          · simp [insert, hk, hk', hlt, hlt', hne, hne.symm, h, hnot]
          · simp [insert, hk, hk', hlt, hlt', hne, hnot]
      · have hle : ¬ other < k := fun hok => hlt (String.lt_trans h hok)
        have hk' : k ≠ other := by
          rintro rfl
          exact hlt h
        simp [insert, hk, hk', hlt, hle, ih]

/-- **Entries of two names are set in any order.** -/
theorem insert_comm (h : key ≠ other) (a b : α) (entries : List (String × α)) :
    insert key a (insert other b entries) = insert other b (insert key a entries) := by
  by_cases hlt : key < other
  · exact insert_comm_of_lt hlt a b entries
  · have hgt : other < key := by
      apply Decidable.byContradiction
      intro hle
      exact h (String.le_antisymm (String.not_lt.1 hle) (String.not_lt.1 hlt))
    exact (insert_comm_of_lt hgt b a entries).symm

end Entries

/-! ## Places -/

namespace Node

theorem at?_append (first more : List String) (node : Node) :
    at? (first ++ more) node = (at? first node).bind (at? more) := by
  induction first generalizing node with
  | nil => rfl
  | cons name first ih =>
    cases node with
    | file => rfl
    | link => rfl
    | directory es =>
      rw [List.cons_append, at?, at?]
      cases Entries.find? name es with
      | none => rfl
      | some inner => exact ih inner

/-- What is at a place, if anything, after a file was written below it.  The file keeps its mode if it
exists. -/
def withFile (bytes : Bytes) : List String → Option Node → Except Disk.Fault Node
  | [], none => .ok (file bytes false)
  | [], some (file _ executable) => .ok (file bytes executable)
  | [], some _ => .error .isDirectory
  | name :: names, none =>
    (withFile bytes names none).map fun node => directory (Entries.insert name node [])
  | name :: names, some (directory es) =>
    (withFile bytes names (Entries.find? name es)).map
      fun node => directory (Entries.insert name node es)
  | _ :: names, some _ => .error (if names = [] then .exists else .notDirectory)

variable {bytes bytes' : Bytes} {names names' place : List String} {old : Option Node}
  {node node' : Node}

/-- A missing directory is as good as an empty one. -/
theorem withFile_cons_eq_ok {name : String} (h : withFile bytes (name :: names) old = .ok node) :
    ∃ es inner, (old = none ∧ es = [] ∨ old = some (directory es)) ∧
      withFile bytes names (Entries.find? name es) = .ok inner ∧
        node = directory (Entries.insert name inner es) := by
  cases old with
  | none =>
    cases hinner : withFile bytes names none with
    | error fault => simp [withFile, hinner, Except.map] at h
    | ok inner =>
      simp only [withFile, hinner, Except.map, Except.ok.injEq] at h
      exact ⟨[], inner, .inl ⟨rfl, rfl⟩, hinner, h.symm⟩
  | some there =>
    cases there with
    | file => exact absurd h (by simp [withFile])
    | link => exact absurd h (by simp [withFile])
    | directory es =>
      cases hinner : withFile bytes names (Entries.find? name es) with
      | error fault => simp [withFile, hinner, Except.map] at h
      | ok inner =>
        simp only [withFile, hinner, Except.map, Except.ok.injEq] at h
        exact ⟨es, inner, .inr rfl, hinner, h.symm⟩

theorem withFile_directory {name : String} {es : List (String × Node)} :
    withFile bytes (name :: names) (some (directory es)) =
      (withFile bytes names (Entries.find? name es)).map
        fun node => directory (Entries.insert name node es) := rfl

/-- **The file is where it was written,** with the mode of the file that was there. -/
theorem at?_withFile_self (h : withFile bytes names old = .ok node) :
    ∃ executable, at? names node = some (file bytes executable) ∧
      (old.bind (at? names) = none ∨
        ∃ bytes', old.bind (at? names) = some (file bytes' executable)) := by
  induction names generalizing old node with
  | nil =>
    cases old with
    | none =>
      obtain rfl := Except.ok.inj h
      exact ⟨false, rfl, .inl rfl⟩
    | some there =>
      cases there with
      | file bytes' executable =>
        obtain rfl := Except.ok.inj h
        exact ⟨executable, rfl, .inr ⟨bytes', rfl⟩⟩
      | link => exact absurd h (by simp [withFile])
      | directory => exact absurd h (by simp [withFile])
  | cons name names ih =>
    obtain ⟨es, inner, hold, hinner, rfl⟩ := withFile_cons_eq_ok h
    obtain ⟨executable, hfile, hbefore⟩ := ih hinner
    refine ⟨executable, ?_, ?_⟩
    · rw [at?, Entries.find?_insert_self]
      exact hfile
    · rcases hold with ⟨rfl, -⟩ | rfl
      · exact .inl rfl
      · have hat : (some (directory es)).bind (at? (name :: names)) =
            (Entries.find? name es).bind (at? names) := by
          rw [Option.bind_some, at?]
          cases Entries.find? name es <;> rfl
        rw [hat]
        exact hbefore

/-- **Nothing changes off the way** to the file. -/
theorem at?_withFile_off_way (h : withFile bytes names old = .ok node) (hplace : ¬ place <+: names) :
    at? place node = old.bind (at? place) := by
  induction names generalizing old node place with
  | nil =>
    obtain ⟨first, more, rfl⟩ := List.exists_cons_of_ne_nil
      (show place ≠ [] from fun hnil => hplace (hnil ▸ List.prefix_refl []))
    cases old with
    | none =>
      obtain rfl := Except.ok.inj h
      rfl
    | some there =>
      cases there with
      | file =>
        obtain rfl := Except.ok.inj h
        rfl
      | link => exact absurd h (by simp [withFile])
      | directory => exact absurd h (by simp [withFile])
  | cons name names ih =>
    obtain ⟨es, inner, hold, hinner, rfl⟩ := withFile_cons_eq_ok h
    cases place with
    | nil => exact absurd List.nil_prefix hplace
    | cons first more =>
      have hbefore : old.bind (at? (first :: more)) = (Entries.find? first es).bind (at? more) := by
        rcases hold with ⟨rfl, rfl⟩ | rfl
        · rfl
        · rw [Option.bind_some, at?]
          cases Entries.find? first es <;> rfl
      rw [hbefore, at?]
      by_cases hfirst : first = name
      · subst hfirst
        rw [Entries.find?_insert_self]
        exact ih hinner fun hmore => hplace (List.cons_prefix_cons.2 ⟨rfl, hmore⟩)
      · rw [Entries.find?_insert_of_ne (Ne.symm hfirst)]
        cases Entries.find? first es <;> rfl

/-- **On the way there are directories,** and there was nothing else before. -/
theorem at?_withFile_on_way (h : withFile bytes names old = .ok node) (hplace : place <+: names)
    (hne : place ≠ names) : (∃ es, at? place node = some (directory es)) ∧
      (old.bind (at? place) = none ∨ ∃ es, old.bind (at? place) = some (directory es)) := by
  induction place generalizing old node names with
  | nil =>
    obtain ⟨name, names, rfl⟩ := List.exists_cons_of_ne_nil (Ne.symm hne)
    obtain ⟨es, inner, hold, -, rfl⟩ := withFile_cons_eq_ok h
    refine ⟨⟨_, rfl⟩, ?_⟩
    rcases hold with ⟨rfl, -⟩ | rfl
    · exact .inl rfl
    · exact .inr ⟨es, rfl⟩
  | cons first place ih =>
    obtain ⟨rest, rfl⟩ := hplace
    rw [List.cons_append] at h
    obtain ⟨es, inner, hold, hinner, rfl⟩ := withFile_cons_eq_ok h
    obtain ⟨hafter, hbefore⟩ := ih hinner (List.prefix_append place rest) fun heq =>
      hne (congrArg (first :: ·) heq)
    constructor
    · rw [at?, Entries.find?_insert_self]
      exact hafter
    · rcases hold with ⟨rfl, -⟩ | rfl
      · exact .inl rfl
      · have hat : (some (directory es)).bind (at? (first :: place)) =
            (Entries.find? first es).bind (at? place) := by
          rw [Option.bind_some, at?]
          cases Entries.find? first es <;> rfl
        rw [hat]
        exact hbefore

/-! ## Trees that grow -/

/-- Directories stay directories, and the links are the same. -/
structure Grows (node node' : Node) : Prop where
  /-- A directory stays one. -/
  directory : ∀ place es, at? place node = some (.directory es) →
    ∃ es', at? place node' = some (.directory es')
  /-- Links stay and none is new. -/
  link : ∀ place target, at? place node' = some (.link target) ↔ at? place node = some (.link target)

theorem Grows.refl (node : Node) : Grows node node := ⟨fun _ es h => ⟨es, h⟩, fun _ _ => Iff.rfl⟩

theorem Grows.trans {node₁ node₂ node₃ : Node} (h : Grows node₁ node₂) (h' : Grows node₂ node₃) :
    Grows node₁ node₃ := by
  constructor
  · intro place es hes
    obtain ⟨es', hes'⟩ := h.directory place es hes
    exact h'.directory place es' hes'
  · intro place target
    exact (h'.link place target).trans (h.link place target)

/-- A tree grows if every place is as before, or has no link either before or after and stays a
directory if it was one. -/
theorem Grows.of_cases (hcases : ∀ place, at? place node' = at? place node ∨
    (∀ target, at? place node' ≠ some (.link target)) ∧
      (∀ target, at? place node ≠ some (.link target)) ∧
      ∀ es, at? place node = some (.directory es) → ∃ es', at? place node' = some (.directory es')) :
    Grows node node' := by
  constructor
  · intro place es hes
    rcases hcases place with heq | ⟨-, -, hdirectory⟩
    · exact ⟨es, heq.trans hes⟩
    · exact hdirectory es hes
  · intro place target
    rcases hcases place with heq | ⟨hafter, hbefore, -⟩
    · rw [heq]
    · exact ⟨fun hlink => absurd hlink (hafter target), fun hlink => absurd hlink (hbefore target)⟩

/-- **A tree grows** by a file. -/
theorem grows_withFile (h : withFile bytes names (some node) = .ok node') : Grows node node' := by
  apply Grows.of_cases
  intro place
  by_cases hplace : place <+: names
  · right
    by_cases heq : place = names
    · subst heq
      obtain ⟨executable, hfile, hnone | ⟨bytes', hbytes'⟩⟩ := at?_withFile_self h
      · rw [Option.bind_some] at hnone
        simp [hfile, hnone]
      · rw [Option.bind_some] at hbytes'
        simp [hfile, hbytes']
    · obtain ⟨⟨es', hes'⟩, hnone | ⟨es, hes⟩⟩ := at?_withFile_on_way h hplace heq
      · rw [Option.bind_some] at hnone
        simp [hes', hnone]
      · rw [Option.bind_some] at hes
        simp [hes', hes]
  · exact .inl (at?_withFile_off_way h hplace)

/-! ## Two files -/

/-- **Files at places apart are written in any order.** -/
theorem withFile_comm (hapart : ¬ names <+: names') (hapart' : ¬ names' <+: names)
    (h : withFile bytes names old = .ok node) (h' : withFile bytes' names' old = .ok node') :
    ∃ both, withFile bytes' names' (some node) = .ok both ∧
      withFile bytes names (some node') = .ok both := by
  induction names generalizing names' old node node' with
  | nil => exact absurd List.nil_prefix hapart
  | cons name names ih =>
    cases names' with
    | nil => exact absurd List.nil_prefix hapart'
    | cons name' names' =>
      obtain ⟨es, inner, hold, hinner, rfl⟩ := withFile_cons_eq_ok h
      obtain ⟨es', inner', hold', hinner', rfl⟩ := withFile_cons_eq_ok h'
      obtain rfl : es' = es := by
        rcases hold with ⟨rfl, rfl⟩ | rfl <;> rcases hold' with ⟨hnone, rfl⟩ | hsome
        · rfl
        · exact absurd hsome (by simp)
        · exact absurd hnone (by simp)
        · simpa using hsome.symm
      rw [withFile_directory, withFile_directory]
      by_cases hname : name = name'
      · -- Both files are below one name, so they are apart there.
        subst hname
        obtain ⟨both, hboth, hboth'⟩ := ih
          (fun hprefix => hapart (List.cons_prefix_cons.2 ⟨rfl, hprefix⟩))
          (fun hprefix => hapart' (List.cons_prefix_cons.2 ⟨rfl, hprefix⟩)) hinner hinner'
        refine ⟨directory (Entries.insert name both es'), ?_, ?_⟩
        · rw [Entries.find?_insert_self, hboth, Except.map, Entries.insert_insert_self]
        · rw [Entries.find?_insert_self, hboth', Except.map, Entries.insert_insert_self]
      · refine ⟨directory (Entries.insert name' inner' (Entries.insert name inner es')), ?_, ?_⟩
        · rw [Entries.find?_insert_of_ne hname, hinner', Except.map]
        · rw [Entries.find?_insert_of_ne (Ne.symm hname), hinner, Except.map,
            Entries.insert_comm hname]

/-- A file that cannot be written cannot be written either after another one was, and fails in the same
way. -/
theorem withFile_error_of_withFile {fault : Disk.Fault} (hapart : ¬ names <+: names')
    (hapart' : ¬ names' <+: names) (h : withFile bytes names old = .ok node)
    (h' : withFile bytes' names' old = .error fault) :
    withFile bytes' names' (some node) = .error fault := by
  induction names generalizing names' old node with
  | nil => exact absurd List.nil_prefix hapart
  | cons name names ih =>
    cases names' with
    | nil => exact absurd List.nil_prefix hapart'
    | cons name' names' =>
      obtain ⟨es, inner, hold, hinner, rfl⟩ := withFile_cons_eq_ok h
      have hfault : withFile bytes' names' (Entries.find? name' es) = .error fault := by
        have hdirectory : withFile bytes' (name' :: names') (some (directory es)) = .error fault := by
          rcases hold with ⟨rfl, rfl⟩ | rfl
          · exact h'
          · exact h'
        rw [withFile_directory] at hdirectory
        cases hbelow : withFile bytes' names' (Entries.find? name' es) with
        | error fault' =>
          rw [hbelow] at hdirectory
          exact congrArg _ (Except.error.inj hdirectory)
        | ok inner' =>
          rw [hbelow] at hdirectory
          exact absurd hdirectory (by simp [Except.map])
      rw [withFile_directory]
      by_cases hname : name = name'
      · subst hname
        rw [Entries.find?_insert_self, ih
          (fun hprefix => hapart (List.cons_prefix_cons.2 ⟨rfl, hprefix⟩))
          (fun hprefix => hapart' (List.cons_prefix_cons.2 ⟨rfl, hprefix⟩)) hinner hfault]
        rfl
      · rw [Entries.find?_insert_of_ne hname, hfault]
        rfl

/-! ## Steps of a write -/

variable {front rest : List String} {name : String} {new : Node} {es : List (String × Node)}

/-- What is above a directory is one. -/
theorem exists_directory_of_append (h : at? (front ++ rest) node = some (directory es)) :
    ∃ es', at? front node = some (directory es') := by
  rw [at?_append] at h
  obtain ⟨inner, hinner, hrest⟩ := Option.bind_eq_some_iff.1 h
  cases rest with
  | nil => exact ⟨es, hinner.trans hrest⟩
  | cons name rest =>
    cases inner with
    | directory es' => exact ⟨es', hinner⟩
    | file => exact absurd hrest (by simp [at?])
    | link => exact absurd hrest (by simp [at?])

theorem exists_entry_of_at?_cons (h : at? (name :: names) node = some node') :
    ∃ es inner, node = directory es ∧ Entries.find? name es = some inner ∧
      at? names inner = some node' := by
  cases node with
  | file => exact absurd h (by simp [at?])
  | link => exact absurd h (by simp [at?])
  | directory es =>
    rw [at?] at h
    cases hinner : Entries.find? name es with
    | none => rw [hinner] at h; exact absurd h (by simp)
    | some inner => rw [hinner] at h; exact ⟨es, inner, rfl, hinner, h⟩

/-- **An entry of a directory** is what the directory holds under its name. -/
theorem at?_concat_eq (h : at? front node = some (directory es)) :
    at? (front ++ [name]) node = Entries.find? name es := by
  rw [at?_append, h, Option.bind_some, at?]
  cases Entries.find? name es <;> rfl

/-- What holds an entry is a directory. -/
theorem exists_directory_of_concat (h : at? (front ++ [name]) node = some node') :
    ∃ es, at? front node = some (directory es) := by
  rw [at?_append] at h
  obtain ⟨inner, hinner, hentry⟩ := Option.bind_eq_some_iff.1 h
  obtain ⟨es, -, rfl, -⟩ := exists_entry_of_at?_cons hentry
  exact ⟨es, hinner⟩

theorem put_cons {inner : Node} (hnames : names ≠ []) (h : Entries.find? name es = some inner) :
    put new (name :: names) (directory es) =
      directory (Entries.insert name (put new names inner) es) := by
  cases names with
  | nil => exact absurd rfl hnames
  | cons next names => simp [put, h]

/-- **In a directory that exists** a file is put at its name. -/
theorem withFile_eq_put (hfront : at? front node = some (directory es)) :
    withFile bytes (front ++ [name]) (some node) =
      (withFile bytes [] (at? (front ++ [name]) node)).map
        fun new => put new (front ++ [name]) node := by
  induction front generalizing node with
  | nil =>
    obtain rfl := Option.some.inj hfront
    rw [List.nil_append, withFile_directory, at?]
    cases Entries.find? name es <;> rfl
  | cons first front ih =>
    obtain ⟨es', inner, rfl, hfind, hinner⟩ := exists_entry_of_at?_cons hfront
    rw [List.cons_append, withFile_directory, at?, hfind, ih hinner]
    cases withFile bytes [] (at? (front ++ [name]) inner) with
    | error fault => rfl
    | ok new =>
      simp only [Except.map]
      rw [put_cons (List.append_ne_nil_of_right_ne_nil front (List.cons_ne_nil name [])) hfind]

/-- **A directory on the way** may be made before the file. -/
theorem withFile_put_directory (hfront : at? front node = some (directory es))
    (hnone : at? (front ++ [name]) node = none) (hrest : rest ≠ []) :
    withFile bytes (front ++ name :: rest) (some (put (directory []) (front ++ [name]) node)) =
      withFile bytes (front ++ name :: rest) (some node) := by
  induction front generalizing node with
  | nil =>
    obtain rfl := Option.some.inj hfront
    obtain ⟨next, rest, rfl⟩ := List.exists_cons_of_ne_nil hrest
    have hfind : Entries.find? name es = none := by
      rw [List.nil_append, at?] at hnone
      cases hfind : Entries.find? name es with
      | none => rfl
      | some inner => rw [hfind] at hnone; exact absurd hnone (by simp [at?])
    show withFile bytes (name :: next :: rest)
        (some (directory (Entries.insert name (directory []) es))) =
      withFile bytes (name :: next :: rest) (some (directory es))
    rw [withFile_directory, withFile_directory, Entries.find?_insert_self, hfind]
    show ((withFile bytes rest none).map _).map _ = ((withFile bytes rest none).map _).map _
    cases withFile bytes rest none with
    | error fault => rfl
    | ok inner => simp only [Except.map, Entries.insert_insert_self]
  | cons first front ih =>
    obtain ⟨es', inner, rfl, hfind, hinner⟩ := exists_entry_of_at?_cons hfront
    rw [List.cons_append, at?, hfind] at hnone
    rw [List.cons_append, List.cons_append,
      put_cons (List.append_ne_nil_of_right_ne_nil front (List.cons_ne_nil name [])) hfind,
      withFile_directory, withFile_directory, Entries.find?_insert_self, hfind, ih hinner hnone]
    cases withFile bytes (front ++ name :: rest) (some inner) with
    | error fault => rfl
    | ok inner' => simp only [Except.map, Entries.insert_insert_self]

/-- Changes of one entry of the directory that some names lead to. -/
structure IsChangeOf (name : String) (change : List String → Node → Node) : Prop where
  /-- In the directory all other entries stay. -/
  here : ∀ es, ∃ es', change [] (directory es) = directory es' ∧
    ∀ other, name ≠ other → Entries.find? other es' = Entries.find? other es
  /-- Above it there is one entry that leads to it. -/
  above : ∀ first front es inner, Entries.find? first es = some inner →
    change (first :: front) (directory es) = directory (Entries.insert first (change front inner) es)

theorem isChangeOf_put (name : String) (new : Node) :
    IsChangeOf name fun front => put new (front ++ [name]) where
  here es := ⟨_, rfl, fun _ hne => Entries.find?_insert_of_ne hne new es⟩
  above _ front _ _ hfind :=
    put_cons (List.append_ne_nil_of_right_ne_nil front (List.cons_ne_nil name [])) hfind

section Change

variable {change : List String → Node → Node}

/-- What is in the directory after a change. -/
theorem IsChangeOf.at?_append (h : IsChangeOf name change)
    (hfront : at? front node = some (directory es)) (rest : List String) :
    at? (front ++ rest) (change front node) = at? rest (change [] (directory es)) := by
  induction front generalizing node with
  | nil =>
    obtain rfl := Option.some.inj hfront
    rfl
  | cons first front ih =>
    obtain ⟨es', inner, rfl, hfind, hinner⟩ := exists_entry_of_at?_cons hfront
    rw [h.above first front es' inner hfind, List.cons_append, at?, Entries.find?_insert_self]
    exact ih hinner

/-- **A change of an entry** leaves everything else as it is, except that the directories above hold what
has changed. -/
theorem IsChangeOf.at?_cases (h : IsChangeOf name change)
    (hfront : at? front node = some (directory es)) (place : List String)
    (hplace : ¬ front ++ [name] <+: place) :
    at? place (change front node) = at? place node ∨
      place <+: front ∧ (∃ es', at? place node = some (directory es')) ∧
        ∃ es', at? place (change front node) = some (directory es') := by
  induction front generalizing node place with
  | nil =>
    obtain rfl := Option.some.inj hfront
    obtain ⟨es', hchange, hsame⟩ := h.here es
    cases place with
    | nil => exact .inr ⟨List.nil_prefix, ⟨es, rfl⟩, es', congrArg some hchange⟩
    | cons first place =>
      have hne : name ≠ first := by
        rintro rfl
        exact hplace (List.cons_prefix_cons.2 ⟨rfl, List.nil_prefix⟩)
      left
      rw [hchange, at?, at?, hsame first hne]
  | cons first front ih =>
    obtain ⟨es', inner, rfl, hfind, hinner⟩ := exists_entry_of_at?_cons hfront
    rw [h.above first front es' inner hfind]
    cases place with
    | nil => exact .inr ⟨List.nil_prefix, ⟨es', rfl⟩, _, rfl⟩
    | cons next place =>
      by_cases hnext : next = first
      · subst hnext
        rw [at?, at?, Entries.find?_insert_self, hfind]
        refine (ih hinner place fun hbelow => hplace (List.cons_prefix_cons.2 ⟨rfl, hbelow⟩)).imp_right ?_
        rintro ⟨habove, hdirectories⟩
        exact ⟨List.cons_prefix_cons.2 ⟨rfl, habove⟩, hdirectories⟩
      · left
        rw [at?, at?, Entries.find?_insert_of_ne (Ne.symm hnext)]

end Change

theorem at?_put_append (hfront : at? front node = some (directory es)) (rest : List String) :
    at? (front ++ name :: rest) (put new (front ++ [name]) node) = at? rest new := by
  rw [(isChangeOf_put name new).at?_append hfront (name :: rest), List.nil_append, put, at?,
    Entries.find?_insert_self]

/-- **A tree grows** by a directory. -/
theorem grows_put_directory (hfront : at? front node = some (directory es))
    (hnone : at? (front ++ [name]) node = none) :
    Grows node (put (directory []) (front ++ [name]) node) := by
  apply Grows.of_cases
  intro place
  by_cases hplace : front ++ [name] <+: place
  · -- Below the new directory there was and there is nothing.
    obtain ⟨rest, rfl⟩ := hplace
    have hbefore : at? (front ++ [name] ++ rest) node = none := by rw [at?_append, hnone]; rfl
    have hafter := @at?_put_append node front name (directory []) es hfront rest
    rw [List.append_assoc, List.singleton_append] at hbefore ⊢
    right
    rw [hbefore, hafter]
    cases rest <;> simp [at?, Entries.find?]
  · rcases (isChangeOf_put name (directory [])).at?_cases hfront place hplace with
      heq | ⟨-, ⟨es₁, h₁⟩, es₂, h₂⟩
    · exact .inl heq
    · right
      simp [h₁, h₂]

/-- **A file on the way** stops a write. -/
theorem withFile_of_file {executable : Bool} (h : at? front node = some (file bytes' executable)) :
    withFile bytes (front ++ name :: rest) (some node) =
      .error (if rest = [] then .exists else .notDirectory) := by
  induction front generalizing node with
  | nil =>
    obtain rfl := Option.some.inj h
    rfl
  | cons first front ih =>
    obtain ⟨es', inner, rfl, hfind, hinner⟩ := exists_entry_of_at?_cons h
    rw [List.cons_append, withFile_directory, hfind, ih hinner]
    rfl

/-- Directories were made down to a place.  It is a directory now, and everything off the way to it, and
whatever could be written there, is as before. -/
structure MadeDown (place : List String) (node node' : Node) : Prop where
  /-- The tree has grown. -/
  grows : Grows node node'
  /-- The place is a directory. -/
  directory : ∃ es, at? place node' = some (.directory es)
  /-- Off the way to it everything is as before. -/
  aside : ∀ p, ¬ p <+: place → at? p node' = at? p node
  /-- Files are written there as before. -/
  withFile_eq : ∀ bytes rest, rest ≠ [] →
    withFile bytes (place ++ rest) (some node') = withFile bytes (place ++ rest) (some node)

/-- Below the place everything is as before. -/
theorem MadeDown.below (h : MadeDown place node node') {rest : List String} (hrest : rest ≠ []) :
    at? (place ++ rest) node' = at? (place ++ rest) node := by
  apply h.aside
  intro habove
  have hlength := habove.length_le
  have hpos := List.length_pos_iff.2 hrest
  rw [List.length_append] at hlength
  omega

theorem MadeDown.of_directory (h : at? place node = some (.directory es)) : MadeDown place node node :=
  ⟨.refl node, ⟨es, h⟩, fun _ _ => rfl, fun _ _ _ => rfl⟩

/-- **A missing directory is made** in one that exists. -/
theorem MadeDown.put (hfront : at? front node = some (.directory es))
    (hnone : at? (front ++ [name]) node = none) :
    MadeDown (front ++ [name]) node (put (.directory []) (front ++ [name]) node) := by
  refine ⟨grows_put_directory hfront hnone, ⟨[], at?_put_append hfront []⟩, ?_, ?_⟩
  · intro p hp
    by_cases hbelow : front ++ [name] <+: p
    · obtain ⟨rest, rfl⟩ := hbelow
      obtain ⟨next, rest, rfl⟩ := List.exists_cons_of_ne_nil
        (show rest ≠ [] from fun hnil => hp (by simp [hnil]))
      have hbefore : at? (front ++ [name] ++ next :: rest) node = none := by
        rw [at?_append, hnone]
        rfl
      rw [hbefore, List.append_assoc, List.singleton_append, at?_put_append hfront]
      rfl
    · rcases (isChangeOf_put name (.directory [])).at?_cases hfront p hbelow with heq | ⟨habove, -⟩
      · exact heq
      · exact absurd (habove.trans (List.prefix_append _ _)) hp
  · intro bytes rest hrest
    rw [List.append_assoc, List.singleton_append, withFile_put_directory hfront hnone hrest]

theorem MadeDown.trans {node'' : Node} {more : List String} (h : MadeDown place node node')
    (hmore : more ≠ []) (h' : MadeDown (place ++ more) node' node'') :
    MadeDown (place ++ more) node node'' := by
  refine ⟨h.grows.trans h'.grows, h'.directory, ?_, ?_⟩
  · intro p hp
    rw [h'.aside p hp, h.aside p fun habove => hp (habove.trans (List.prefix_append _ _))]
  · intro bytes rest hrest
    rw [h'.withFile_eq bytes rest hrest, List.append_assoc,
      h.withFile_eq bytes _ (List.append_ne_nil_of_left_ne_nil hmore rest)]

/-! ## Files that are written if they change -/

/-- Whether a file with some bytes is at a place. -/
def holds (bytes : Bytes) (place : List String) (node : Node) : Bool :=
  match at? place node with
  | some (file existing _) => existing == bytes
  | _ => false

/-- A tree after a file was written unless it holds its bytes already, and why the file could not be
written. -/
def updated (bytes : Bytes) (place : List String) (node : Node) : Node × Option Disk.Fault :=
  if holds bytes place node then (node, none)
  else
    match withFile bytes place (some node) with
    | .ok node' => (node', none)
    | .error fault => (node, some fault)

theorem holds_iff : holds bytes place node = true ↔
    ∃ executable, at? place node = some (file bytes executable) := by
  unfold holds
  split
  · next existing executable hat => simp [hat]
  · next hno =>
    constructor
    · intro hfalse
      exact Bool.noConfusion hfalse
    · rintro ⟨executable, hat⟩
      exact absurd hat (hno bytes executable)

theorem updated_of_holds (h : holds bytes place node = true) :
    updated bytes place node = (node, none) := by
  rw [updated, if_pos h]

theorem updated_of_ok (h : holds bytes place node = false)
    (hfile : withFile bytes place (some node) = .ok node') :
    updated bytes place node = (node', none) := by
  rw [updated, if_neg (by simp [h]), hfile]

theorem updated_of_error {fault : Disk.Fault} (h : holds bytes place node = false)
    (hfile : withFile bytes place (some node) = .error fault) :
    updated bytes place node = (node, some fault) := by
  rw [updated, if_neg (by simp [h]), hfile]

/-- An update leaves the tree as it is, or a file is written. -/
theorem updated_cases (bytes : Bytes) (place : List String) (node : Node) :
    holds bytes place node = true ∨
    (holds bytes place node = false ∧ ∃ fault, withFile bytes place (some node) = .error fault) ∨
    (holds bytes place node = false ∧ ∃ node', withFile bytes place (some node) = .ok node') := by
  cases holds bytes place node with
  | true => exact .inl rfl
  | false =>
    cases withFile bytes place (some node) with
    | error fault => exact .inr (.inl ⟨rfl, fault, rfl⟩)
    | ok node' => exact .inr (.inr ⟨rfl, node', rfl⟩)

/-- The tree is as it was, or a file was written into it. -/
theorem updated_eq_or (bytes : Bytes) (place : List String) (node : Node) :
    (updated bytes place node).1 = node ∨
      withFile bytes place (some node) = .ok (updated bytes place node).1 := by
  rcases updated_cases bytes place node with h | ⟨h, fault, hfile⟩ | ⟨h, node', hfile⟩
  · exact .inl (by rw [updated_of_holds h])
  · exact .inl (by rw [updated_of_error h hfile])
  · exact .inr (by rw [updated_of_ok h hfile, hfile])

theorem grows_updated : Grows node (updated bytes place node).1 := by
  rcases updated_eq_or bytes place node with heq | hfile
  · rw [heq]
    exact .refl node
  · exact grows_withFile hfile

theorem at?_updated_off_way (h : ¬ names <+: place) :
    at? names (updated bytes place node).1 = at? names node := by
  rcases updated_eq_or bytes place node with heq | hfile
  · rw [heq]
  · exact at?_withFile_off_way hfile h

/-- **Another file stays** as it is. -/
theorem at?_updated_of_file {executable : Bool} (h : at? names node = some (file bytes' executable))
    (hne : names ≠ place) : at? names (updated bytes place node).1 = some (file bytes' executable) := by
  rcases updated_eq_or bytes place node with heq | hfile
  · rw [heq, h]
  · by_cases hway : names <+: place
    · -- A write fails if a file is on its way.
      obtain ⟨-, hnone | ⟨es, hes⟩⟩ := at?_withFile_on_way hfile hway hne
      · exact absurd (h.symm.trans hnone) (by simp)
      · exact absurd (h.symm.trans hes) (by simp)
    · rw [at?_withFile_off_way hfile hway]
      exact h

/-- **What was written is there.** -/
theorem holds_updated (h : (updated bytes place node).2 = none) :
    holds bytes place (updated bytes place node).1 = true := by
  rcases updated_cases bytes place node with hholds | ⟨hholds, fault, hfile⟩ | ⟨hholds, node', hfile⟩
  · rw [updated_of_holds hholds]
    exact hholds
  · rw [updated_of_error hholds hfile] at h
    exact absurd h (by simp)
  · rw [updated_of_ok hholds hfile]
    obtain ⟨executable, hat, -⟩ := at?_withFile_self hfile
    exact holds_iff.2 ⟨executable, hat⟩

theorem holds_updated_off_way (h : ¬ names <+: place) :
    holds bytes' names (updated bytes place node).1 = holds bytes' names node := by
  rw [holds, holds, at?_updated_off_way h]

/-- **Files at places apart are updated in any order.** -/
theorem updated_comm (hapart : ¬ names <+: names') (hapart' : ¬ names' <+: names) :
    (updated bytes' names' (updated bytes names node).1).2 = (updated bytes' names' node).2 ∧
      (updated bytes' names' (updated bytes names node).1).1 =
        (updated bytes names (updated bytes' names' node).1).1 := by
  -- Neither update changes whether the other file is there, so each does the same before and after.
  have hsame := @holds_updated_off_way bytes bytes' names' names node hapart'
  have hsame' := @holds_updated_off_way bytes' bytes names names' node hapart
  rcases updated_cases bytes names node with h | ⟨h, fault, hfile⟩ | ⟨h, node₁, hfile⟩
  · rw [h] at hsame'
    rw [updated_of_holds h, updated_of_holds hsame']
    exact ⟨rfl, rfl⟩
  · rw [h] at hsame'
    have hfile' : withFile bytes names (some (updated bytes' names' node).1) = .error fault := by
      rcases updated_eq_or bytes' names' node with heq | hother
      · rw [heq, hfile]
      · exact withFile_error_of_withFile hapart' hapart hother hfile
    rw [updated_of_error h hfile, updated_of_error hsame' hfile']
    exact ⟨rfl, rfl⟩
  · rw [updated_of_ok h hfile] at hsame ⊢
    rcases updated_cases bytes' names' node with h' | ⟨h', fault', hfile'⟩ | ⟨h', node₂, hfile'⟩
    · rw [h'] at hsame
      rw [updated_of_holds h', updated_of_holds hsame, updated_of_ok h hfile]
      exact ⟨rfl, rfl⟩
    · rw [h'] at hsame
      rw [updated_of_error h' hfile', updated_of_ok h hfile,
        updated_of_error hsame (withFile_error_of_withFile hapart hapart' hfile hfile')]
      exact ⟨rfl, rfl⟩
    · obtain ⟨both, hboth, hboth'⟩ := withFile_comm hapart hapart' hfile hfile'
      rw [h'] at hsame
      rw [updated_of_ok h' hfile', h] at hsame'
      rw [updated_of_ok h' hfile', updated_of_ok hsame hboth, updated_of_ok hsame' hboth']
      exact ⟨rfl, rfl⟩

end Node

end MailTemplate
