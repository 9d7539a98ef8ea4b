import Mathlib.Data.List.Forall2

/-!
# Related lists

Two lists are related if their elements are, one after the other.  An element of two lists one after the
other is an element of one of them.

## Main results

* `exists_left_of_mem`, `exists_right_of_mem` — what an element is related to.
* `eq_map_of_forall₂` — a relation that is a function.
* `exists_forall₂_flatten` — what is related to parts one after the other has such parts.
* `exists_split_of_append_eq` — where an element of two lists one after the other stands.
-/

namespace MailTemplate

section Related

variable {α β : Type} {R : α → β → Prop} {xs : List α} {ys : List β}

theorem exists_left_of_mem {y : β} (h : List.Forall₂ R xs ys) (hy : y ∈ ys) : ∃ x ∈ xs, R x y := by
  induction h with
  | nil => exact absurd hy List.not_mem_nil
  | @cons x _ _ _ hfirst _ ih =>
    rcases List.mem_cons.1 hy with rfl | hy
    · exact ⟨x, List.mem_cons_self, hfirst⟩
    · obtain ⟨x', hx', hrelated⟩ := ih hy
      exact ⟨x', List.mem_cons_of_mem _ hx', hrelated⟩

theorem exists_right_of_mem {x : α} (h : List.Forall₂ R xs ys) (hx : x ∈ xs) : ∃ y ∈ ys, R x y :=
  exists_left_of_mem h.flip hx

/-- What is related to each element in one way only is a map. -/
theorem eq_map_of_forall₂ {f : α → β} (h : List.Forall₂ R xs ys) (hf : ∀ x ∈ xs, ∀ y, R x y → y = f x) :
    ys = xs.map f := by
  induction h with
  | nil => rfl
  | cons hfirst _ ih =>
    obtain ⟨hx, hxs⟩ := List.forall_mem_cons.1 hf
    rw [List.map_cons, ih hxs, hx _ hfirst]

/-- What holds of each pair, and of each element of the second list, as a condition on the first. -/
theorem forall₂_and_forall_iff {P : α → β → Prop} {q : β → Prop} {p : α → Prop}
    (h : List.Forall₂ R xs ys) (hiff : ∀ x y, R x y → (P x y ∧ q y ↔ p x)) :
    List.Forall₂ P xs ys ∧ (∀ y ∈ ys, q y) ↔ ∀ x ∈ xs, p x := by
  induction h with
  | nil => simp
  | cons hfirst _ ih =>
    rw [List.forall₂_cons, List.forall_mem_cons, List.forall_mem_cons, and_and_and_comm, ih,
      hiff _ _ hfirst]

theorem forall₂_dropLast (h : List.Forall₂ R xs ys) : List.Forall₂ R xs.dropLast ys.dropLast := by
  rw [List.dropLast_eq_take, List.dropLast_eq_take, h.length_eq]
  exact List.forall₂_take _ h

theorem exists_forall₂_append {front back : List α} (h : List.Forall₂ R (front ++ back) ys) :
    ∃ front' back', ys = front' ++ back' ∧ List.Forall₂ R front front' ∧ List.Forall₂ R back back' := by
  induction front generalizing ys with
  | nil => exact ⟨[], ys, rfl, .nil, h⟩
  | cons x front ih =>
    obtain ⟨y, ys, hfirst, hrest, rfl⟩ := List.forall₂_cons_left_iff.1 h
    obtain ⟨front', back', rfl, hfront, hback⟩ := ih hrest
    exact ⟨y :: front', back', rfl, .cons hfirst hfront, hback⟩

/-- What is related to parts one after the other has parts that are related to them. -/
theorem exists_forall₂_flatten {parts : List (List α)} (h : List.Forall₂ R parts.flatten ys) :
    ∃ parts', ys = parts'.flatten ∧ List.Forall₂ (List.Forall₂ R) parts parts' := by
  induction parts generalizing ys with
  | nil =>
    obtain rfl := List.forall₂_nil_left_iff.1 h
    exact ⟨[], rfl, .nil⟩
  | cons part parts ih =>
    obtain ⟨first, rest, rfl, hfirst, hrest⟩ := exists_forall₂_append h
    obtain ⟨parts', rfl, hparts⟩ := ih hrest
    exact ⟨first :: parts', rfl, .cons hfirst hparts⟩

end Related

/-- What stands in two lists one after the other stands in one of them. -/
theorem exists_split_of_append_eq {α : Type} {first rest front back : List α} {x : α}
    (h : first ++ rest = front ++ x :: back) :
    (∃ between, first = front ++ x :: between ∧ back = between ++ rest) ∨
      ∃ between, front = first ++ between ∧ rest = between ++ x :: back := by
  rcases List.append_eq_append_iff.1 h with ⟨between, hfront, hrest⟩ | ⟨between, hfirst, hback⟩
  · exact .inr ⟨between, hfront, hrest⟩
  · cases between with
    | nil => exact .inr ⟨[], by simpa using hfirst.symm, by simpa using hback.symm⟩
    | cons y between =>
      obtain ⟨rfl, rfl⟩ := List.cons.inj hback
      exact .inl ⟨between, hfirst, rfl⟩

end MailTemplate
