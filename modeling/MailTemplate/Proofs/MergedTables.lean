import MailTemplate.Proofs.TreeWalks
import MailTemplate.Toml.Value
import Mathlib.Data.List.Perm.Basic

/-!
# Tables laid over tables

A table that is laid over another one gives a table with the entries of both: those whose keys stand in the
upper table, each laid over what the lower one has under its key, and those of the lower table whose keys
stand in it alone.  This is said up to the order of the entries, which is the order of their keys and does
not matter to whoever reads a table.

## Main definitions

* `Entries.HasKeysOnce`, `Toml.Value.HasKeysOnce` — every table has each of its keys once.
* `Toml.Value.overlaid` — a value laid over what a table has under a key.

## Main results

* `Entries.insert_perm` — an insertion replaces the entry of its key.
* `Toml.Value.mergeEntries_perm` — the entries of a table laid over another one.
-/

namespace MailTemplate

/-! ## Keys -/

namespace Entries

variable {α : Type} {key : String} {a : α} {entries : List (String × α)}

/-- No key occurs twice. -/
def HasKeysOnce (entries : List (String × α)) : Prop := (entries.map Prod.fst).Nodup

instance (entries : List (String × α)) : Decidable (HasKeysOnce entries) :=
  inferInstanceAs (Decidable (entries.map Prod.fst).Nodup)

theorem IsSorted.hasKeysOnce (h : IsSorted entries) : HasKeysOnce entries := by
  refine (List.pairwise_map.2 h).imp fun hlt heq => ?_
  exact String.lt_irrefl _ (heq ▸ hlt)

theorem erase_eq_self (h : key ∉ entries.map Prod.fst) : erase key entries = entries := by
  refine List.filter_eq_self.2 fun e he => decide_eq_true ?_
  rintro rfl
  exact h (List.mem_map_of_mem he)

/-- No key of the entries behind one is as small as its key. -/
theorem IsSorted.not_mem_of_not_lt {b : α} (h : IsSorted ((key, b) :: entries)) {other : String}
    (hother : ¬ key < other) : other ∉ entries.map Prod.fst := by
  intro hmem
  obtain ⟨e, he, rfl⟩ := List.mem_map.1 hmem
  exact hother ((List.pairwise_cons.1 h).1 e he)

/-- **An insertion** replaces the entry of its key, or adds one. -/
theorem insert_perm (h : IsSorted entries) (key : String) (a : α) :
    (insert key a entries).Perm ((key, a) :: erase key entries) := by
  induction entries with
  | nil => exact .refl _
  | cons e rest ih =>
    obtain ⟨k, b⟩ := e
    rw [insert]
    split
    · next hk =>
      subst hk
      have hrest : erase k ((k, b) :: rest) = rest := by
        rw [erase, List.filter_cons_of_neg (by simp)]
        exact erase_eq_self (h.not_mem_of_not_lt (String.lt_irrefl k))
      rw [hrest]
    · next hk =>
      split
      · next hlt =>
        -- The key comes before all others, so there is no entry of it to be erased.
        rw [erase_eq_self]
        rw [List.map_cons, List.mem_cons, not_or]
        exact ⟨Ne.symm hk, h.not_mem_of_not_lt fun hgt => String.lt_irrefl k (String.lt_trans hgt hlt)⟩
      · rw [erase, List.filter_cons_of_pos (by simpa using hk)]
        exact ((ih (List.pairwise_cons.1 h).2).cons (k, b)).trans (.swap ..)

theorem isSorted_ofList (entries : List (String × α)) : IsSorted (ofList entries) := by
  have hfold : ∀ es : List (String × α), IsSorted es →
      IsSorted (entries.foldl (fun es entry => insert entry.1 entry.2 es) es) := by
    induction entries with
    | nil => exact fun es hes => hes
    | cons e rest ih => exact fun es hes => ih _ (hes.insert e.1 e.2)
  exact hfold [] List.Pairwise.nil

theorem mem_of_mem_ofList {e : String × α} (h : e ∈ ofList entries) : e ∈ entries := by
  have hfold : ∀ (more es : List (String × α)),
      e ∈ more.foldl (fun es entry => insert entry.1 entry.2 es) es → e ∈ es ∨ e ∈ more := by
    intro more
    induction more with
    | nil => exact fun es hes => .inl hes
    | cons f rest ih =>
      intro es hes
      rcases ih _ hes with hinsert | hrest
      · rcases mem_of_mem_insert hinsert with rfl | hes
        · exact .inr List.mem_cons_self
        · exact .inl hes
      · exact .inr (List.mem_cons_of_mem _ hrest)
  exact (hfold entries [] h).resolve_left List.not_mem_nil

end Entries

/-! ## Laying tables over each other -/

namespace Toml

namespace Value

variable {base rest entries : List (String × Value)} {key : String} {v : Value}

/-- Every table of a value has each of its keys once. -/
inductive HasKeysOnce : Value → Prop
  /-- A table, and what it holds. -/
  | table {entries : List (String × Value)} (hkeys : Entries.HasKeysOnce entries)
    (hinner : ∀ e ∈ entries, HasKeysOnce e.2) : HasKeysOnce (.table entries)
  /-- An array of such values. -/
  | array {items : List Value} (hinner : ∀ v ∈ items, HasKeysOnce v) : HasKeysOnce (.array items)
  /-- A text. -/
  | string (s : String) : HasKeysOnce (.string s)
  /-- A whole number. -/
  | integer (n : Int) : HasKeysOnce (.integer n)
  /-- A floating point number. -/
  | float (x : Float) : HasKeysOnce (.float x)
  /-- A truth value. -/
  | boolean (b : Bool) : HasKeysOnce (.boolean b)
  /-- A moment, a date or a time. -/
  | datetime (t : DateTime) : HasKeysOnce (.datetime t)

/-- A value laid over what a table has under a key, if it has anything. -/
def overlaid (base : List (String × Value)) (key : String) (v : Value) : Value :=
  match Entries.find? key base with
  | some b => merge b v
  | none => v

theorem mergeEntries_cons :
    mergeEntries base ((key, v) :: rest) =
      mergeEntries (Entries.insert key (overlaid base key v) base) rest := by
  rw [mergeEntries]
  rfl

theorem overlaid_insert_of_ne {other : String} (h : key ≠ other) (inserted : Value) :
    overlaid (Entries.insert key inserted base) other v = overlaid base other v := by
  rw [overlaid, Entries.find?_insert_of_ne h, overlaid]

theorem merge_of_base_not_table {b : Value} (h : b.isTable = false) (v : Value) : merge b v = v := by
  cases b with
  | table => exact absurd h (by simp [isTable])
  | _ => cases v <;> rw [merge] <;> simp

/-- **The entries of a table laid over another one,** in some order: those that the lower table has alone,
and those of the upper one, each laid over what the lower one has under its key. -/
theorem mergeEntries_perm (hbase : Entries.IsSorted base) (hkeys : Entries.HasKeysOnce entries) :
    (mergeEntries base entries).Perm
      (base.filter (fun e => e.1 ∉ entries.map Prod.fst) ++
        entries.map fun e => (e.1, overlaid base e.1 e.2)) := by
  induction entries generalizing base with
  | nil => simp [mergeEntries]
  | cons e rest ih =>
    obtain ⟨key, v⟩ := e
    obtain ⟨hkey, hrest⟩ := List.nodup_cons.1 hkeys
    rw [mergeEntries_cons]
    refine (ih (hbase.insert key _) hrest).trans ?_
    -- The other upper entries meet the lower table as it was, since their keys are others.
    have hupper : rest.map (fun e => (e.1, overlaid (Entries.insert key (overlaid base key v) base) e.1 e.2)) =
        rest.map fun e => (e.1, overlaid base e.1 e.2) := by
      refine List.map_congr_left fun e he => ?_
      rw [overlaid_insert_of_ne]
      intro heq
      exact hkey (List.mem_map.2 ⟨e, he, heq.symm⟩)
    -- The entry of the key has come to the entries of the lower table.
    have hlower : ((Entries.insert key (overlaid base key v) base).filter
        fun e => e.1 ∉ rest.map Prod.fst).Perm
          ((key, overlaid base key v) ::
            base.filter fun e => e.1 ∉ ((key, v) :: rest).map Prod.fst) := by
      refine ((Entries.insert_perm hbase key _).filter _).trans (.of_eq ?_)
      rw [List.filter_cons_of_pos (by simpa using hkey), Entries.erase, List.filter_filter]
      simp only [List.map_cons, List.mem_cons, not_or, Bool.decide_and, Bool.and_comm, ne_eq]
    rw [hupper, List.map_cons]
    exact (hlower.append_right _).trans List.perm_middle.symm

/-- A table laid over another one has its keys once if both have. -/
theorem hasKeysOnce_mergeEntries (hbase : Entries.IsSorted base) (hkeys : Entries.HasKeysOnce entries) :
    Entries.HasKeysOnce (mergeEntries base entries) := by
  have hupper : (entries.map fun e => (e.1, overlaid base e.1 e.2)).map Prod.fst = entries.map Prod.fst := by
    rw [List.map_map]
    rfl
  rw [Entries.HasKeysOnce, ((mergeEntries_perm hbase hkeys).map Prod.fst).nodup_iff, List.map_append, hupper,
    List.nodup_append]
  refine ⟨hbase.hasKeysOnce.sublist (List.filter_sublist.map _), hkeys, fun key hlower other hother heq => ?_⟩
  obtain ⟨e, he, rfl⟩ := List.mem_map.1 hlower
  exact of_decide_eq_true (List.mem_filter.1 he).2 (heq ▸ hother)

end Value

end Toml

end MailTemplate
