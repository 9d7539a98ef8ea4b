import Mathlib.Data.List.Forall2

/-!
# Computations that succeed

A computation that can fail succeeds if and only if all its parts do.  What fails, and how, does not matter
here.

## Main results

* `bind_eq_ok_iff`, `map_eq_ok_iff`, `mapM_eq_ok_iff` — when computations of several parts succeed.
-/

namespace MailTemplate

section Results

variable {ε ε' α β : Type} {x : Except ε α} {a : α} {b : β} {f : α → Except ε β} {xs : List α}
  {ys : List β}

theorem bind_eq_ok_iff : x >>= f = .ok b ↔ ∃ a, x = .ok a ∧ f a = .ok b := by
  cases x <;> simp [bind, Except.bind]

theorem mapError_eq_ok_iff {g : ε → ε'} : x.mapError g = .ok a ↔ x = .ok a := by
  cases x with
  | error => exact ⟨nofun, nofun⟩
  | ok a' => exact ⟨fun h => congrArg _ (Except.ok.inj h), fun h => congrArg _ (Except.ok.inj h)⟩

theorem map_eq_ok_iff {g : α → β} : x.map g = .ok b ↔ ∃ a, x = .ok a ∧ g a = b := by
  cases x <;> simp [Except.map]

theorem toOption_eq_some_iff : x.toOption = some a ↔ x = .ok a := by
  cases x <;> simp [Except.toOption]

/-- **Computations for all elements** of a list succeed together. -/
theorem mapM_eq_ok_iff : xs.mapM f = .ok ys ↔ List.Forall₂ (fun x y => f x = .ok y) xs ys := by
  induction xs generalizing ys with
  | nil =>
    rw [List.mapM_nil, List.forall₂_nil_left_iff]
    constructor
    · intro h
      exact (Except.ok.inj h).symm
    · rintro rfl
      rfl
  | cons x xs ih =>
    simp only [List.mapM_cons, List.forall₂_cons_left_iff, bind_eq_ok_iff, ih]
    constructor
    · rintro ⟨y, hy, ys', hys, hcons⟩
      exact ⟨y, ys', hy, hys, (Except.ok.inj hcons).symm⟩
    · rintro ⟨y, ys', hy, hys, rfl⟩
      exact ⟨y, hy, ys', hys, rfl⟩

theorem mapM_congr {m : Type → Type} [Monad m] [LawfulMonad m] {f g : α → m β} (h : ∀ x ∈ xs, f x = g x) :
    xs.mapM f = xs.mapM g := by
  induction xs with
  | nil => rfl
  | cons x xs ih =>
    obtain ⟨hx, hxs⟩ := List.forall_mem_cons.1 h
    rw [List.mapM_cons, List.mapM_cons, hx, ih hxs]

end Results

end MailTemplate
