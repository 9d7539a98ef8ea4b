import MailTemplate.File.Tree
import MailTemplate.Proofs.PathComponents
import MailTemplate.Proofs.TreeWrites

/-!
# Walks through trees

A walk visits every place of a tree that it can come to through the directories that it enters, once and
in the order of the names, compared name by name.  This order puts a directory before what it holds, and
it is not the order of the written paths: `a/b` stands before `a.x`, since `a` stands before `a.x`.  The
order in which directories list their entries does not matter.

## Main definitions

* `Entries.IsSorted` — entries in the order of their keys.
* `Node.Reaches` — what a walk comes to.
* `Node.IsProper` — a tree of ordinary names.

## Main results

* `Entries.isSorted_sorted`, `Entries.find?_sorted` — sorting changes the order and nothing else.
* `Node.mem_visits_iff` — a walk visits what it comes to.
* `Node.pairwise_visits` — the places of a walk are in order.
-/

namespace MailTemplate

/-! ## Entries in order -/

namespace Entries

variable {α : Type} {key other : String} {a b : α} {entries : List (String × α)}

/-- Entries in the order of their keys, each key once. -/
def IsSorted (entries : List (String × α)) : Prop := entries.Pairwise fun e f => e.1 < f.1

theorem mem_of_mem_insert {e : String × α} (h : e ∈ insert key a entries) :
    e = (key, a) ∨ e ∈ entries := by
  induction entries with
  | nil => exact .inl (List.mem_singleton.1 h)
  | cons f rest ih =>
    obtain ⟨k, b⟩ := f
    rw [insert] at h
    split at h
    · rcases List.mem_cons.1 h with rfl | h
      · exact .inl rfl
      · exact .inr (List.mem_cons_of_mem _ h)
    · split at h
      · exact List.mem_cons.1 h
      · rcases List.mem_cons.1 h with rfl | h
        · exact .inr List.mem_cons_self
        · rcases ih h with rfl | h
          · exact .inl rfl
          · exact .inr (List.mem_cons_of_mem _ h)

/-- **An insertion keeps the order.** -/
theorem IsSorted.insert (h : IsSorted entries) (key : String) (a : α) :
    IsSorted (insert key a entries) := by
  induction entries with
  | nil => exact List.pairwise_singleton _ _
  | cons f rest ih =>
    obtain ⟨k, b⟩ := f
    obtain ⟨hk, hrest⟩ := List.pairwise_cons.1 h
    rw [Entries.insert]
    split
    · next heq =>
      subst heq
      exact List.pairwise_cons.2 ⟨hk, hrest⟩
    next hne =>
    split
    · next hlt =>
      apply List.pairwise_cons.2 ⟨_, h⟩
      intro e he
      rcases List.mem_cons.1 he with rfl | he
      · exact hlt
      · exact String.lt_trans hlt (hk e he)
    · next hle =>
      -- Of two different keys one is smaller.
      have hlt : k < key := Decidable.byContradiction fun hnot =>
        hne (String.le_antisymm (String.not_lt.1 hle) (String.not_lt.1 hnot))
      apply List.pairwise_cons.2 ⟨_, ih hrest⟩
      intro e he
      rcases mem_of_mem_insert he with rfl | he
      · exact hlt
      · exact hk e he

theorem mem_of_find? (h : find? key entries = some a) : (key, a) ∈ entries := by
  induction entries with
  | nil => exact absurd h (by simp [find?])
  | cons f rest ih =>
    obtain ⟨k, b⟩ := f
    rw [find?] at h
    split at h
    · next heq =>
      subst heq
      exact Option.some.inj h ▸ List.mem_cons_self
    · exact List.mem_cons_of_mem _ (ih h)

/-- In order, an entry is what is found by its key. -/
theorem IsSorted.mem_iff (h : IsSorted entries) : (key, a) ∈ entries ↔ find? key entries = some a := by
  refine ⟨fun hmem => ?_, mem_of_find?⟩
  induction entries with
  | nil => exact absurd hmem List.not_mem_nil
  | cons f rest ih =>
    obtain ⟨k, b⟩ := f
    obtain ⟨hk, hrest⟩ := List.pairwise_cons.1 h
    rcases List.mem_cons.1 hmem with heq | hmem
    · obtain ⟨rfl, rfl⟩ := Prod.mk.inj heq
      exact if_pos rfl
    · have hne : k ≠ key := by
        intro heq
        exact String.lt_irrefl key (heq ▸ hk (key, a) hmem)
      exact (if_neg hne).trans (ih hrest hmem)

theorem sorted_cons (key : String) (a : α) (rest : List (String × α)) :
    sorted ((key, a) :: rest) = insert key a (sorted rest) := rfl

theorem isSorted_sorted (entries : List (String × α)) : IsSorted (sorted entries) := by
  induction entries with
  | nil => exact List.Pairwise.nil
  | cons e rest ih => exact ih.insert e.1 e.2

/-- **Sorting does not change what is found.** -/
theorem find?_sorted (key : String) (entries : List (String × α)) :
    find? key (sorted entries) = find? key entries := by
  induction entries with
  | nil => rfl
  | cons e rest ih =>
    obtain ⟨k, b⟩ := e
    rw [sorted_cons, find?]
    split
    · next heq => exact heq ▸ find?_insert_self k b _
    · next hne => exact (find?_insert_of_ne hne b _).trans ih

end Entries

namespace Node

variable {enters : Path → String → Bool} {path : Path} {name : String} {names place : List String}
  {node inner : Node} {es : List (String × Node)}

theorem at?_cons (name : String) (names : List String) (node : Node) :
    at? (name :: names) node = (Entries.find? name node.entries).bind (at? names) := by
  cases node with
  | file => rfl
  | link => rfl
  | directory es =>
    rw [at?, entries]
    cases Entries.find? name es <;> rfl

/-! ## What is visited -/

/-- A walk from a node comes to another one: every directory behind the first node is entered. -/
def Reaches (enters : Path → String → Bool) (path : Path) : List String → Node → Node → Prop
  | [], node, inner => inner = node
  | name :: names, node, inner =>
    ∃ next, Entries.find? name node.entries = some next ∧
      (next.isDirectory = true → enters (path.child name) name = true) ∧
        Reaches enters (path.child name) names next inner

/-- Where all directories are entered, a walk comes to every place. -/
theorem reaches_all_iff :
    Reaches (fun _ _ => true) path names node inner ↔ node.at? names = some inner := by
  induction names generalizing path node with
  | nil =>
    rw [Reaches, at?, Option.some_inj]
    exact eq_comm
  | cons name names ih =>
    rw [at?_cons, Option.bind_eq_some_iff, Reaches]
    simp only [ih, implies_true, true_and]

theorem find?_visitsOf (name : String) (es : List (String × Node)) :
    Entries.find? name (visitsOf enters path es) = (Entries.find? name es).map fun next =>
      if next.isDirectory && !enters (path.child name) name then []
      else visits enters (path.child name) next := by
  induction es with
  | nil => rfl
  | cons e rest ih =>
    obtain ⟨k, next⟩ := e
    rw [visitsOf, Entries.find?]
    by_cases heq : k = name
    · subst heq
      rw [if_pos rfl]
      exact Entries.find?_insert_self k _ _
    · rw [if_neg heq]
      exact (Entries.find?_insert_of_ne heq _ _).trans ih

theorem isSorted_visitsOf (enters : Path → String → Bool) (path : Path) (es : List (String × Node)) :
    Entries.IsSorted (visitsOf enters path es) := by
  induction es with
  | nil => exact List.Pairwise.nil
  | cons e rest ih => exact ih.insert e.1 _

/-- What is visited in a directory is the directory itself, or visited in one of its entries. -/
theorem mem_visits_directory_iff :
    (names, inner) ∈ visits enters path (directory es) ↔
      (names = [] ∧ inner = directory es) ∨
        ∃ name rest next, names = name :: rest ∧ Entries.find? name es = some next ∧
          (next.isDirectory = true → enters (path.child name) name = true) ∧
            (rest, inner) ∈ visits enters (path.child name) next := by
  rw [visits, List.mem_cons, Prod.mk.injEq]
  refine or_congr_right ?_
  rw [List.mem_flatMap]
  constructor
  · rintro ⟨⟨name, inside⟩, hinside, hmem⟩
    obtain ⟨⟨rest, inner'⟩, hvisit, heq⟩ := List.mem_map.1 hmem
    obtain ⟨rfl, rfl⟩ := Prod.mk.inj heq
    rw [(isSorted_visitsOf enters path es).mem_iff, find?_visitsOf, Option.map_eq_some_iff] at hinside
    obtain ⟨next, hnext, rfl⟩ := hinside
    split at hvisit
    · exact absurd hvisit List.not_mem_nil
    · next henters =>
      refine ⟨name, rest, next, rfl, hnext, ?_, hvisit⟩
      intro hdirectory
      simpa [hdirectory] using henters
  · rintro ⟨name, rest, next, rfl, hnext, henters, hvisit⟩
    refine ⟨(name, visits enters (path.child name) next), ?_, List.mem_map.2 ⟨_, hvisit, rfl⟩⟩
    rw [(isSorted_visitsOf enters path es).mem_iff, find?_visitsOf, hnext, Option.map_some, if_neg]
    cases hdirectory : next.isDirectory with
    | false => simp
    | true => simp [henters hdirectory]

/-- **A walk visits what it comes to.** -/
theorem mem_visits_iff :
    (names, inner) ∈ visits enters path node ↔ Reaches enters path names node inner := by
  -- The names lead down the tree, so the induction is on them.
  induction names generalizing path node with
  | nil =>
    cases node with
    | file => simp [visits, Reaches]
    | link => simp [visits, Reaches]
    | directory es => simp [mem_visits_directory_iff, Reaches]
  | cons name names ih =>
    cases node with
    | file => simp [visits, Reaches, entries, Entries.find?]
    | link => simp [visits, Reaches, entries, Entries.find?]
    | directory es =>
      rw [mem_visits_directory_iff, Reaches]
      constructor
      · rintro (⟨hnil, -⟩ | ⟨name', rest, next, heq, hnext, henters, hvisit⟩)
        · exact absurd hnil (List.cons_ne_nil _ _)
        · obtain ⟨rfl, rfl⟩ := List.cons.inj heq
          exact ⟨next, hnext, henters, ih.1 hvisit⟩
      · rintro ⟨next, hnext, henters, hreach⟩
        exact .inr ⟨name, names, next, rfl, hnext, henters, ih.2 hreach⟩

/-! ## The order of a walk -/

mutual

/-- **The places of a walk are in order,** every one of them once. -/
theorem pairwise_visits (enters : Path → String → Bool) (path : Path) :
    ∀ node, (visits enters path node).Pairwise fun v w => v.1 < w.1
  | .file .. => List.pairwise_singleton _ _
  | .link .. => List.pairwise_singleton _ _
  | .directory es => by
    rw [visits, List.pairwise_cons, List.pairwise_flatMap]
    refine ⟨?_, ?_, ?_⟩
    · intro v hv
      obtain ⟨x, -, hmem⟩ := List.mem_flatMap.1 hv
      obtain ⟨w, -, rfl⟩ := List.mem_map.1 hmem
      exact List.nil_lt_cons _ _
    · -- Behind the same name the rest decides.
      intro x hx
      apply List.Pairwise.map _ _ (pairwise_visitsOf enters path es x hx)
      intro v w hlt
      exact List.cons_lt_cons_iff.2 (.inr ⟨rfl, hlt⟩)
    · refine (isSorted_visitsOf enters path es).imp fun hlt v hv w hw => ?_
      obtain ⟨v', -, rfl⟩ := List.mem_map.1 hv
      obtain ⟨w', -, rfl⟩ := List.mem_map.1 hw
      exact List.cons_lt_cons_iff.2 (.inl hlt)

theorem pairwise_visitsOf (enters : Path → String → Bool) (path : Path) :
    ∀ es, ∀ x ∈ visitsOf enters path es, x.2.Pairwise fun v w => v.1 < w.1
  | [], x, hx => absurd hx List.not_mem_nil
  | (name, node) :: rest, x, hx => by
    rw [visitsOf] at hx
    rcases Entries.mem_of_mem_insert hx with rfl | hx
    · dsimp only
      split
      · exact List.Pairwise.nil
      · exact pairwise_visits enters (path.child name) node
    · exact pairwise_visitsOf enters path rest x hx

end

theorem exists_visits_eq (enters : Path → String → Bool) (path : Path) (node : Node) :
    ∃ rest, visits enters path node = ([], node) :: rest := by
  cases node with
  | file => exact ⟨_, rfl⟩
  | link => exact ⟨_, rfl⟩
  | directory es => exact ⟨_, by rw [visits]⟩

/-- Behind the node itself come the places below it. -/
theorem mem_drop_visits_iff :
    (names, inner) ∈ (visits enters path node).drop 1 ↔
      names ≠ [] ∧ (names, inner) ∈ visits enters path node := by
  obtain ⟨rest, hrest⟩ := exists_visits_eq enters path node
  have hordered := pairwise_visits enters path node
  rw [hrest] at hordered ⊢
  rw [List.drop_one, List.tail_cons, List.mem_cons]
  constructor
  · intro hmem
    refine ⟨?_, .inr hmem⟩
    rintro rfl
    exact absurd ((List.pairwise_cons.1 hordered).1 _ hmem) (List.lt_irrefl _)
  · rintro ⟨hne, heq | hmem⟩
    · exact absurd (Prod.mk.inj heq).1 hne
    · exact hmem

/-! ## Trees of ordinary names -/

/-- Every entry of every directory has an ordinary name. -/
def IsProper (node : Node) : Prop :=
  ∀ place inner, node.at? place = some inner → ∀ name ∈ place, Path.IsOrdinary name

/-- The places below a node are those that a walk comes to. -/
theorem isProper_iff :
    IsProper node ↔ ∀ v ∈ visits (fun _ _ => true) ⟨""⟩ node, ∀ name ∈ v.1, Path.IsOrdinary name := by
  constructor
  · rintro h ⟨place, inner⟩ hvisit
    exact h place inner (reaches_all_iff.1 (mem_visits_iff.1 hvisit))
  · intro h place inner hat
    exact h (place, inner) (mem_visits_iff.2 (reaches_all_iff.2 hat))

instance (node : Node) : Decidable node.IsProper := decidable_of_iff' _ isProper_iff

theorem IsProper.of_at? (h : node.IsProper) (hat : node.at? place = some inner) : inner.IsProper := by
  intro names deep hdeep name hname
  apply h (place ++ names) deep
  · rw [at?_append, hat]
    exact hdeep
  · exact List.mem_append_right _ hname

theorem isProper_file (bytes : Bytes) (executable : Bool) : (file bytes executable).IsProper := by
  intro place inner hat
  cases place with
  | nil => exact List.forall_mem_nil _
  | cons => exact absurd hat (by simp [at?])

theorem isProper_empty : (directory []).IsProper := by
  intro place inner hat
  cases place with
  | nil => exact List.forall_mem_nil _
  | cons => exact absurd hat (by simp [at?, Entries.find?])

/-- A proper tree stays proper when another one is put into it under an ordinary name. -/
theorem IsProper.put {new : Node} {front : List String} (h : node.IsProper)
    (hfront : node.at? front = some (directory es)) (hname : Path.IsOrdinary name) (hnew : new.IsProper) :
    (put new (front ++ [name]) node).IsProper := by
  intro place inner hat
  by_cases hbelow : front ++ [name] <+: place
  · obtain ⟨rest, rfl⟩ := hbelow
    rw [List.append_assoc, List.singleton_append, at?_put_append hfront] at hat
    rw [List.forall_mem_append, List.forall_mem_append]
    exact ⟨⟨h front _ hfront, by simpa using hname⟩, hnew rest inner hat⟩
  · rcases (isChangeOf_put name new).at?_cases hfront place hbelow with heq | ⟨-, ⟨_, hold⟩, -⟩
    · exact h place inner (heq.symm.trans hat)
    · exact h place _ hold

end Node

end MailTemplate
