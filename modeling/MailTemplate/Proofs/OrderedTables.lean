import MailTemplate.Proofs.MergedTables
import MailTemplate.Settings.Encode
import MailTemplate.Toml.Document

/-!
# Tables in order

The tables of a value have their keys in order, each once.  So it is with every table that a configuration
file holds, whatever the order of its lines is, and with the table that settings are written as: a table is
changed only by insertions, below headers, by dotted keys and on one line.

An array is read as a whole and never laid over anything, so the tables in it do not matter here, neither in a
value nor while a file is read.

## Main definitions

* `Toml.Value.IsOrdered` — the tables that are reached by keys have them in order.
* `Toml.Item.IsOrdered`, `Toml.Item.AreOrdered` — the same of values and tables under construction.

## Main results

* `Toml.Item.areOrdered_of_update?` — a change of a table inside others keeps the order.
* `Toml.isOrdered_of_parse?` — the table of a configuration file is in order.
* `Settings.isOrdered_encode` — so is the table of settings.
-/

namespace MailTemplate

namespace Toml

/-! ## Values -/

namespace Value

/-- The tables that are reached by keys have their keys in order, each once. -/
inductive IsOrdered : Value → Prop
  /-- A table, and what it holds. -/
  | table {es : List (String × Value)} (hsorted : Entries.IsSorted es)
    (hinner : ∀ e ∈ es, IsOrdered e.2) : IsOrdered (.table es)
  /-- Anything else. -/
  | leaf {v : Value} (hleaf : v.isTable = false) : IsOrdered v

/-- A table of some entries, in whatever order they are given. -/
theorem IsOrdered.ofList {es : List (String × Value)} (h : ∀ e ∈ es, e.2.IsOrdered) :
    IsOrdered (.table (Entries.ofList es)) :=
  .table (Entries.isSorted_ofList es) fun e he => h e (Entries.mem_of_mem_ofList he)

end Value

/-! ## Values under construction -/

namespace Item

/-- A value under construction has its tables in order. -/
inductive IsOrdered : Item → Prop
  /-- A value that is complete. -/
  | value {v : Value} (h : v.IsOrdered) : IsOrdered (.value v)
  /-- A table, and what it holds. -/
  | table (implicit dotted : Bool) {items : Items} (hsorted : Entries.IsSorted items)
    (hinner : ∀ e ∈ items, IsOrdered e.2) : IsOrdered (.table implicit dotted items)
  /-- An array of tables. -/
  | tables (elements : List Item) : IsOrdered (.tables elements)

/-- Entries under construction are in order, and so are the tables among them. -/
structure AreOrdered (items : Items) : Prop where
  /-- The keys are in order. -/
  sorted : Entries.IsSorted items
  /-- The tables are in order. -/
  inner : ∀ e ∈ items, e.2.IsOrdered

variable {items items' : Items} {item : Item} {key : String} {path : List String} {v : Value}
  {byDots implicit dotted : Bool} {change : Bool → Items → Option Items}

theorem AreOrdered.nil : AreOrdered [] := ⟨List.Pairwise.nil, List.forall_mem_nil _⟩

theorem AreOrdered.insert (h : AreOrdered items) (key : String) (hitem : item.IsOrdered) :
    AreOrdered (Entries.insert key item items) := by
  refine ⟨h.sorted.insert key item, fun e he => ?_⟩
  rcases Entries.mem_of_mem_insert he with rfl | he
  · exact hitem
  · exact h.inner e he

theorem AreOrdered.isOrdered_table (h : AreOrdered items) (implicit dotted : Bool) :
    IsOrdered (.table implicit dotted items) := .table implicit dotted h.sorted h.inner

/-- A table that is found among entries has its entries in order. -/
theorem AreOrdered.of_find? (h : AreOrdered items)
    (hfound : Entries.find? key items = some (.table implicit dotted items')) : AreOrdered items' := by
  cases h.inner _ (Entries.mem_of_find? hfound) with
  | table _ _ hsorted hinner => exact ⟨hsorted, hinner⟩

/-- **A change of a table inside others** keeps the order if the change does. -/
theorem areOrdered_of_update?
    (hchange : ∀ {dotted es es'}, AreOrdered es → change dotted es = some es' → AreOrdered es')
    (hitems : AreOrdered items) (h : update? byDots change path dotted items = some items') :
    AreOrdered items' := by
  induction path generalizing dotted items items' with
  | nil => exact hchange hitems h
  | cons key path ih =>
    rw [update?] at h
    split at h
    · obtain ⟨es, hes, rfl⟩ := Option.map_eq_some_iff.1 h
      exact hitems.insert key ((ih .nil hes).isOrdered_table _ _)
    · exact absurd h (by simp)
    · next hfound =>
      split at h
      · exact absurd h (by simp)
      · obtain ⟨es, hes, rfl⟩ := Option.map_eq_some_iff.1 h
        exact hitems.insert key ((ih (hitems.of_find? hfound) hes).isOrdered_table _ _)
    · split at h
      · obtain ⟨es, -, rfl⟩ := Option.map_eq_some_iff.1 h
        exact hitems.insert key (.tables _)
      · exact absurd h (by simp)

theorem areOrdered_of_set? (hv : v.IsOrdered) (hitems : AreOrdered items)
    (h : set? path v dotted items = some items') : AreOrdered items' := by
  unfold set? at h
  split at h
  · exact absurd h (by simp)
  · refine areOrdered_of_update? (fun hes hset => ?_) hitems h
    split at hset
    · exact absurd hset (by simp)
    · split at hset
      · exact absurd hset (by simp)
      · obtain rfl := Option.some.inj hset
        exact hes.insert _ (.value hv)

theorem areOrdered_of_openTable? (hitems : AreOrdered items) (h : openTable? path items = some items') :
    AreOrdered items' := by
  obtain ⟨key, -, hopen⟩ := Option.bind_eq_some_iff.1 h
  refine areOrdered_of_update? (fun hes hset => ?_) hitems hopen
  split at hset
  · obtain rfl := Option.some.inj hset
    exact hes.insert _ (AreOrdered.nil.isOrdered_table _ _)
  · next hfound =>
    obtain rfl := Option.some.inj hset
    exact hes.insert _ ((hes.of_find? hfound).isOrdered_table _ _)
  · exact absurd hset (by simp)

theorem areOrdered_of_addTable? (hitems : AreOrdered items) (h : addTable? path items = some items') :
    AreOrdered items' := by
  obtain ⟨key, -, hadd⟩ := Option.bind_eq_some_iff.1 h
  refine areOrdered_of_update? (fun hes hset => ?_) hitems hadd
  split at hset
  · obtain rfl := Option.some.inj hset
    exact hes.insert _ (.tables _)
  · obtain rfl := Option.some.inj hset
    exact hes.insert _ (.tables _)
  · exact absurd hset (by simp)

theorem finishEntries_eq_map (items : Items) :
    finishEntries items = items.map fun e => (e.1, e.2.finish) := by
  induction items with
  | nil => rw [finishEntries, List.map_nil]
  | cons e items ih =>
    obtain ⟨key, item⟩ := e
    rw [finishEntries, ih, List.map_cons]

/-- A value in order is in order when its construction is over. -/
theorem IsOrdered.finish (h : item.IsOrdered) : item.finish.IsOrdered := by
  induction h with
  | value h => rwa [Item.finish]
  | tables elements =>
    rw [Item.finish]
    exact .leaf rfl
  | table implicit dotted hsorted _ ih =>
    rw [Item.finish, finishEntries_eq_map]
    refine .table (List.pairwise_map.2 hsorted) fun e he => ?_
    obtain ⟨under, hunder, rfl⟩ := List.mem_map.1 he
    exact ih under hunder

theorem AreOrdered.finishEntries (h : AreOrdered items) : Value.IsOrdered (.table (finishEntries items)) := by
  have hfinish := (h.isOrdered_table false false).finish
  rwa [Item.finish] at hfinish

end Item

/-! ## Files -/

section Reading

variable {item : Reader Value} {items items' : Item.Items} {cs rest : List Char} {v : Value} {p p' : Progress}

theorem isTable_of_scalar? (h : scalar? cs = some (v, rest)) : v.isTable = false := by
  unfold scalar? at h
  split at h
  · obtain ⟨rfl, -⟩ := Prod.mk.inj (Option.some.inj h)
    rfl
  · obtain ⟨w, hw, heq⟩ := Option.map_eq_some_iff.1 h
    obtain ⟨rfl, -⟩ := Prod.mk.inj heq
    unfold word? at hw
    split at hw
    · obtain rfl := Option.some.inj hw
      rfl
    · split at hw
      · obtain rfl := Option.some.inj hw
        rfl
      · split at hw
        · obtain rfl := Option.some.inj hw
          rfl
        · obtain ⟨x, -, rfl⟩ := Option.map_eq_some_iff.1 hw
          rfl

theorem isOrdered_of_keyed? (hitem : ∀ {cs v rest}, item cs = some (v, rest) → v.IsOrdered)
    {key : List String} (h : keyed? item cs = some ((key, v), rest)) : v.IsOrdered := by
  obtain ⟨⟨key', behind⟩, -, h⟩ := Option.bind_eq_some_iff.1 h
  dsimp only at h
  split at h
  · obtain ⟨⟨w, behind'⟩, hw, heq⟩ := Option.map_eq_some_iff.1 h
    obtain ⟨heq, -⟩ := Prod.mk.inj heq
    obtain ⟨-, rfl⟩ := Prod.mk.inj heq
    exact hitem hw
  · exact absurd h (by simp)

theorem areOrdered_of_inlineEntries? (hitem : ∀ {cs v rest}, item cs = some (v, rest) → v.IsOrdered)
    {fuel : Nat} (hitems : Item.AreOrdered items)
    (h : inlineEntries? item fuel items cs = some (items', rest)) : Item.AreOrdered items' := by
  induction fuel generalizing items cs with
  | zero => exact absurd h (by simp [inlineEntries?])
  | succ fuel ih =>
    rw [inlineEntries?] at h
    obtain ⟨⟨⟨key, v⟩, behind⟩, hkeyed, h⟩ := Option.bind_eq_some_iff.1 h
    obtain ⟨more, hset, h⟩ := Option.bind_eq_some_iff.1 h
    have hmore := Item.areOrdered_of_set? (isOrdered_of_keyed? hitem hkeyed) hitems hset
    split at h
    · exact ih hmore h
    · obtain ⟨rfl, -⟩ := Prod.mk.inj (Option.some.inj h)
      exact hmore
    · exact absurd h (by simp)

/-- **A value that is read** has its tables in order. -/
theorem isOrdered_of_value? {depth : Nat} (h : value? depth cs = some (v, rest)) : v.IsOrdered := by
  -- Only a table on one line holds values of its own that matter.
  induction depth using Nat.strongRecOn generalizing cs v rest with
  | ind depth ih =>
    revert h
    fun_cases value? depth cs with
    | case1 | case2 | case3 =>
      intro h
      obtain ⟨_, -, heq⟩ := Option.map_eq_some_iff.1 h
      obtain ⟨rfl, -⟩ := Prod.mk.inj heq
      exact .leaf rfl
    | case4 =>
      intro h
      obtain ⟨rfl, -⟩ := Prod.mk.inj (Option.some.inj h)
      exact .table List.Pairwise.nil (List.forall_mem_nil _)
    | case5 inner =>
      intro h
      obtain ⟨⟨es, behind⟩, hes, heq⟩ := Option.map_eq_some_iff.1 h
      obtain ⟨rfl, -⟩ := Prod.mk.inj heq
      exact (areOrdered_of_inlineEntries? (ih inner (Nat.lt_succ_self inner)) .nil hes).finishEntries
    | case6 =>
      intro h
      exact .leaf (isTable_of_scalar? h)

theorem areOrdered_of_line? (hp : Item.AreOrdered p.entries) (h : line? p cs = some (p', rest)) :
    Item.AreOrdered p'.entries := by
  unfold line? at h
  split at h
  · obtain ⟨⟨⟨adds, path⟩, behind⟩, -, h⟩ := Option.bind_eq_some_iff.1 h
    obtain ⟨entries, hentries, heq⟩ := Option.map_eq_some_iff.1 h
    obtain ⟨rfl, -⟩ := Prod.mk.inj heq
    dsimp only at hentries ⊢
    split at hentries
    · exact Item.areOrdered_of_addTable? hp hentries
    · exact Item.areOrdered_of_openTable? hp hentries
  · obtain ⟨⟨⟨key, v⟩, behind⟩, hkeyed, h⟩ := Option.bind_eq_some_iff.1 h
    obtain ⟨behind', -, h⟩ := Option.bind_eq_some_iff.1 h
    obtain ⟨entries, hentries, heq⟩ := Option.map_eq_some_iff.1 h
    obtain ⟨rfl, -⟩ := Prod.mk.inj heq
    have hv := isOrdered_of_keyed? isOrdered_of_value? hkeyed
    exact Item.areOrdered_of_update? (fun hes hset => Item.areOrdered_of_set? hv hes hset) hp hentries

theorem areOrdered_of_lines? {fuel : Nat} (hp : Item.AreOrdered p.entries) (h : lines? fuel p cs = some p') :
    Item.AreOrdered p'.entries := by
  induction fuel generalizing p cs with
  | zero => exact absurd h (by simp [lines?])
  | succ fuel ih =>
    rw [lines?] at h
    split at h
    · obtain rfl := Option.some.inj h
      exact hp
    · obtain ⟨⟨next, behind⟩, hline, h⟩ := Option.bind_eq_some_iff.1 h
      exact ih (areOrdered_of_line? hp hline) h

/-- **The table of a configuration file is in order.** -/
theorem isOrdered_of_parse? {text : String} {es : List (String × Value)} (h : parse? text = some es) :
    Value.IsOrdered (.table es) := by
  obtain ⟨p, hp, rfl⟩ := Option.map_eq_some_iff.1 h
  exact (areOrdered_of_lines? .nil hp).finishEntries

end Reading

end Toml

/-! ## Settings -/

namespace Settings

open Toml (Value)

theorem isOrdered_table {entries : List (String × Value)} (h : ∀ e ∈ entries, e.2.isTable = false) :
    (table entries).IsOrdered := .ofList fun e he => .leaf (h e he)

theorem isOrdered_encodeProcessing (s : ProcessingSettings) : (encodeProcessing s).IsOrdered := by
  refine isOrdered_table fun e he => ?_
  split at he
  · exact absurd he List.not_mem_nil
  · obtain rfl := List.mem_singleton.1 he
    rfl

/-- **The table of settings is in order.** -/
theorem isOrdered_encode (s : Settings) : (Value.table s.encode).IsOrdered := by
  refine .ofList ?_
  simp only [List.forall_mem_cons, List.not_mem_nil, false_imp_iff, implies_true, and_true]
  refine ⟨.leaf rfl, ?_, ?_, ?_, ?_, ?_, isOrdered_encodeProcessing s.processing⟩
  all_goals exact isOrdered_table (by simp [Value.isTable, texts])

end Settings

end MailTemplate
