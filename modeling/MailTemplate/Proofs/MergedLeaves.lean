import MailTemplate.Proofs.OrderedTables

/-!
# What a merged value says

What a value says is what its leaves say: the values at paths of keys that are not tables.  A value that is
laid over another one keeps all of its leaves.  The other one keeps those about which the upper value says
nothing: it has no value at their path, and above them it has only tables.  A value that is not a table hides
everything below it, and so does a table that is laid over a leaf, even if it is empty.

Both trees are followed along one path, so the induction is on the path; that a second time changes nothing is
an induction on the upper value, since the lower one is already merged below every key of the upper one.

## Main definitions

* `Toml.Value.at?`, `Toml.Value.IsLeafAt` — what stands at a path, and the leaves.
* `Toml.Value.LeavesOpen` — a value says nothing about a path.

## Main results

* `Toml.Value.find?_mergeEntries` — what is found in a table laid over another one.
* `Toml.Value.isLeafAt_merge_iff` — the leaves of a merged value.
* `Toml.Value.merge_merge` — merging a second time changes nothing.
* `Toml.Value.merge_overrides_leaves` — both together, for values in order.
* `Settings.isLeafAt_over_stock_iff` — the leaves of a configuration file over the stock settings.
-/

namespace MailTemplate

/-! ## Entries in order -/

namespace Entries

variable {α : Type} {key : String} {entries entries' : List (String × α)}

instance (entries : List (String × α)) : Decidable (IsSorted entries) :=
  inferInstanceAs (Decidable (entries.Pairwise fun e f => e.1 < f.1))

theorem find?_eq_none_of_not_mem (h : key ∉ entries.map Prod.fst) : find? key entries = none := by
  refine Option.eq_none_iff_forall_ne_some.2 fun a ha => h ?_
  exact List.mem_map_of_mem (mem_of_find? ha)

/-- **Entries in order are known by what is found in them.** -/
theorem IsSorted.ext (h : IsSorted entries) (h' : IsSorted entries')
    (hfind : ∀ key, find? key entries = find? key entries') : entries = entries' := by
  have hne : ∀ e f : String × α, e.1 < f.1 → e ≠ f := by
    rintro e _ hlt rfl
    exact String.lt_irrefl e.1 hlt
  have hmem : ∀ e, e ∈ entries ↔ e ∈ entries' := by
    rintro ⟨key, a⟩
    rw [h.mem_iff, h'.mem_iff, hfind]
  have hperm : entries.Perm entries' :=
    (List.perm_ext_iff_of_nodup (h.imp (hne _ _)) (h'.imp (hne _ _))).2 hmem
  refine hperm.eq_of_pairwise (fun e f _ _ hlt hgt => ?_) h h'
  exact absurd (String.lt_trans hlt hgt) (String.lt_irrefl _)

end Entries

namespace Toml

namespace Value

variable {v base overlay x : Value} {upper lower : List (String × Value)} {key : String} {path : List String}

/-! ## Leaves -/

/-- The entries of a table; any other value has none. -/
def entries : Value → List (String × Value)
  | .table es => es
  | _ => []

@[simp] theorem entries_table (es : List (String × Value)) : (table es).entries = es := rfl

/-- What stands at a path of keys. -/
def at? : List String → Value → Option Value
  | [], v => some v
  | key :: path, v => (Entries.find? key v.entries).bind (at? path)

/-- A leaf stands at a path: a value that is not a table. -/
def IsLeafAt (v : Value) (path : List String) (x : Value) : Prop := v.at? path = some x ∧ x.isTable = false

/-- A value says nothing about a path. -/
structure LeavesOpen (v : Value) (path : List String) : Prop where
  /-- It has no value there. -/
  at?_eq_none : v.at? path = none
  /-- Above the path it has no leaf. -/
  above : ∀ front, front <+: path → ∀ x, ¬ v.IsLeafAt front x

theorem entries_eq_nil (h : v.isTable = false) : v.entries = [] := by
  cases v with
  | table => exact absurd h (by simp [isTable])
  | _ => rfl

theorem isLeafAt_nil_iff : v.IsLeafAt [] x ↔ v = x ∧ v.isTable = false := by
  rw [IsLeafAt, at?, Option.some_inj]
  exact and_congr_right fun h => by rw [h]

/-- A leaf below a key is a leaf of what stands under the key. -/
theorem isLeafAt_cons_iff : v.IsLeafAt (key :: path) x ↔
    ∃ inner, Entries.find? key v.entries = some inner ∧ inner.IsLeafAt path x := by
  rw [IsLeafAt, at?, Option.bind_eq_some_iff, ← exists_and_right]
  exact exists_congr fun _ => and_assoc

theorem not_leavesOpen_nil : ¬ v.LeavesOpen [] := fun h => absurd h.at?_eq_none (by simp [at?])

theorem LeavesOpen.isTable (h : v.LeavesOpen path) : v.isTable = true := by
  by_contra hleaf
  exact h.above [] List.nil_prefix v (isLeafAt_nil_iff.2 ⟨rfl, Bool.eq_false_iff.2 hleaf⟩)

/-- A table says nothing about a path below a key if what it has under the key says nothing about the rest of
the path. -/
theorem leavesOpen_cons_iff : v.LeavesOpen (key :: path) ↔
    v.isTable = true ∧ ∀ inner, Entries.find? key v.entries = some inner → inner.LeavesOpen path := by
  constructor
  · intro h
    refine ⟨h.isTable, fun inner hinner => ⟨?_, fun front hfront y hy => ?_⟩⟩
    · have hnone := h.at?_eq_none
      rwa [at?, hinner, Option.bind_some] at hnone
    · exact h.above (key :: front) (List.cons_prefix_cons.2 ⟨rfl, hfront⟩) y
        (isLeafAt_cons_iff.2 ⟨inner, hinner, hy⟩)
  · rintro ⟨htable, hinner⟩
    refine ⟨?_, fun front hfront y hy => ?_⟩
    · rw [at?, Option.bind_eq_none_iff]
      exact fun inner hfound => (hinner inner hfound).at?_eq_none
    · cases front with
      | nil =>
        have hleaf := (isLeafAt_nil_iff.1 hy).2
        exact absurd htable (by simp [hleaf])
      | cons other front =>
        obtain ⟨rfl, hbelow⟩ := List.cons_prefix_cons.1 hfront
        obtain ⟨inner, hfound, hy⟩ := isLeafAt_cons_iff.1 hy
        exact (hinner inner hfound).above front hbelow y hy

/-! ## Tables in order -/

theorem IsOrdered.of_find? (h : v.IsOrdered) (hfound : Entries.find? key v.entries = some x) : x.IsOrdered := by
  cases h with
  | table _ hinner => exact hinner _ (Entries.mem_of_find? hfound)
  | leaf hleaf =>
    rw [entries_eq_nil hleaf] at hfound
    exact absurd hfound (by simp [Entries.find?])

theorem IsOrdered.isSorted_entries (h : v.IsOrdered) : Entries.IsSorted v.entries := by
  cases h with
  | table hsorted _ => exact hsorted
  | leaf hleaf =>
    rw [entries_eq_nil hleaf]
    exact List.Pairwise.nil

/-! ## What is found in a merged table -/

theorem overlaid_of_find?_eq_none (h : Entries.find? key lower = none) (v : Value) :
    overlaid lower key v = v := by
  rw [overlaid, h]

theorem overlaid_of_find? {b : Value} (h : Entries.find? key lower = some b) (v : Value) :
    overlaid lower key v = merge b v := by
  rw [overlaid, h]

/-- **What is found in a table laid over another one** is what the upper table has under the key, laid over
what the lower one has there, or what the lower one has there alone. -/
theorem find?_mergeEntries (hkeys : Entries.HasKeysOnce upper) (key : String) :
    Entries.find? key (mergeEntries lower upper) =
      ((Entries.find? key upper).map (overlaid lower key)).or (Entries.find? key lower) := by
  induction upper generalizing lower with
  | nil => rw [mergeEntries, Entries.find?, Option.map_none, Option.none_or]
  | cons e rest ih =>
    obtain ⟨k, v⟩ := e
    obtain ⟨hk, hrest⟩ := List.nodup_cons.1 hkeys
    rw [mergeEntries_cons, ih hrest, Entries.find?]
    split
    · next heq =>
      subst heq
      rw [Entries.find?_eq_none_of_not_mem hk, Option.map_none, Option.none_or, Entries.find?_insert_self,
        Option.map_some, Option.some_or]
    · next hne =>
      -- The other upper entries meet the lower table as it was.
      have hsame : overlaid (Entries.insert k (overlaid lower k v) lower) key = overlaid lower key :=
        funext fun _ => overlaid_insert_of_ne hne _
      rw [hsame, Entries.find?_insert_of_ne hne]

theorem isSorted_mergeEntries (h : Entries.IsSorted lower) (upper : List (String × Value)) :
    Entries.IsSorted (mergeEntries lower upper) := by
  induction upper generalizing lower with
  | nil => rwa [mergeEntries]
  | cons e rest ih =>
    rw [mergeEntries_cons]
    exact ih (h.insert _ _)

/-- Laid over nothing, a table in order stays as it is. -/
theorem mergeEntries_nil (h : Entries.IsSorted upper) : mergeEntries [] upper = upper := by
  refine (isSorted_mergeEntries List.Pairwise.nil upper).ext h fun key => ?_
  have hsame : overlaid [] key = id := funext (overlaid_of_find?_eq_none rfl)
  rw [find?_mergeEntries h.hasKeysOnce, hsame, Option.map_id, Entries.find?, Option.or_none, id]

/-- A table is laid over the entries of any value. -/
theorem merge_table (h : Entries.IsSorted upper) (base : Value) :
    merge base (.table upper) = .table (mergeEntries base.entries upper) := by
  cases hbase : base.isTable with
  | false => rw [merge_of_base_not_table hbase, entries_eq_nil hbase, mergeEntries_nil h]
  | true =>
    cases base with
    | table lower => rw [merge, entries_table]
    | _ => exact absurd hbase (by simp [isTable])

/-- Laid over an empty table, a value in order stays as it is. -/
theorem IsOrdered.merge_nil (h : v.IsOrdered) : merge (.table []) v = v := by
  cases h with
  | table hsorted _ => rw [merge_table hsorted, entries_table, mergeEntries_nil hsorted]
  | leaf hleaf => exact merge_of_not_table _ hleaf

/-! ## Merging -/

/-- **The leaves of a merged value** are those of the upper value, and those of the lower value about which the
upper one says nothing. -/
theorem isLeafAt_merge_iff (hoverlay : overlay.IsOrdered) : (merge base overlay).IsLeafAt path x ↔
    overlay.IsLeafAt path x ∨ base.IsLeafAt path x ∧ overlay.LeavesOpen path := by
  induction path generalizing base overlay with
  | nil =>
    have hcases : (merge base overlay).IsLeafAt [] x ↔ overlay.IsLeafAt [] x := by
      cases hoverlay with
      | leaf hleaf => rw [merge_of_not_table base hleaf]
      | table hsorted _ =>
        rw [merge_table hsorted, isLeafAt_nil_iff, isLeafAt_nil_iff]
        simp [isTable]
    rw [hcases, or_iff_left fun h => not_leavesOpen_nil h.2]
  | cons key path ih =>
    cases hoverlay with
    | leaf hleaf =>
      -- What is no table hides everything below it.
      rw [merge_of_not_table base hleaf, or_iff_left fun h => ?_]
      exact absurd h.2.isTable (by simp [hleaf])
    | @table upper hsorted hinner =>
      rw [merge_table hsorted, isLeafAt_cons_iff, isLeafAt_cons_iff, isLeafAt_cons_iff, leavesOpen_cons_iff]
      simp only [entries_table, isTable, true_and, find?_mergeEntries hsorted.hasKeysOnce]
      cases hupper : Entries.find? key upper with
      | none => simp
      | some v =>
        simp only [Option.map_some, Option.some_or, Option.some.injEq, exists_eq_left', forall_eq']
        cases hlower : Entries.find? key base.entries with
        | none => simp [overlaid_of_find?_eq_none hlower]
        | some b =>
          rw [overlaid_of_find? hlower, ih (hinner _ (Entries.mem_of_find? hupper))]
          simp

/-- Under the key of an upper entry stands that entry laid over something, which is an empty table if there
was nothing. -/
theorem exists_overlaid_eq_merge (hlower : (table lower).IsOrdered) (hv : v.IsOrdered) (key : String) :
    ∃ b, b.IsOrdered ∧ overlaid lower key v = merge b v := by
  cases hfound : Entries.find? key lower with
  | none =>
    refine ⟨table [], .table List.Pairwise.nil (List.forall_mem_nil _), ?_⟩
    rw [overlaid_of_find?_eq_none hfound, hv.merge_nil]
  | some b => exact ⟨b, hlower.of_find? hfound, overlaid_of_find? hfound v⟩

theorem IsOrdered.table_entries (h : v.IsOrdered) : (Value.table v.entries).IsOrdered :=
  .table h.isSorted_entries fun _ he => h.of_find? ((h.isSorted_entries.mem_iff).1 he)

/-- A value in order laid over another one is in order. -/
theorem IsOrdered.merge (hbase : base.IsOrdered) (hoverlay : overlay.IsOrdered) :
    (merge base overlay).IsOrdered := by
  induction hoverlay generalizing base with
  | leaf hleaf =>
    rw [merge_of_not_table base hleaf]
    exact .leaf hleaf
  | @table upper hsorted hinner ih =>
    have hmerged := isSorted_mergeEntries hbase.isSorted_entries upper
    rw [merge_table hsorted]
    refine .table hmerged fun e he => ?_
    have hfound := hmerged.mem_iff.1 he
    rw [find?_mergeEntries hsorted.hasKeysOnce] at hfound
    cases hupper : Entries.find? e.1 upper with
    | none =>
      rw [hupper, Option.map_none, Option.none_or] at hfound
      exact hbase.of_find? hfound
    | some v =>
      have hv := Entries.mem_of_find? hupper
      obtain ⟨b, hb, hmerge⟩ := exists_overlaid_eq_merge hbase.table_entries (hinner _ hv) e.1
      rw [hupper, Option.map_some, Option.some_or, Option.some.injEq, hmerge] at hfound
      exact hfound ▸ ih _ hv hb

/-- **Merging a second time changes nothing.** -/
theorem merge_merge (hbase : base.IsOrdered) (hoverlay : overlay.IsOrdered) :
    merge (merge base overlay) overlay = merge base overlay := by
  induction hoverlay generalizing base with
  | leaf hleaf => rw [merge_of_not_table _ hleaf, merge_of_not_table _ hleaf]
  | @table upper hsorted hinner ih =>
    rw [merge_table hsorted, merge_table hsorted, entries_table]
    have hmerged := isSorted_mergeEntries hbase.isSorted_entries upper
    refine congrArg table ((isSorted_mergeEntries hmerged upper).ext hmerged fun key => ?_)
    have hfound : Entries.find? key (mergeEntries base.entries upper) = _ :=
      find?_mergeEntries hsorted.hasKeysOnce key
    rw [find?_mergeEntries hsorted.hasKeysOnce]
    cases hupper : Entries.find? key upper with
    | none => rfl
    | some v =>
      have hv := Entries.mem_of_find? hupper
      obtain ⟨b, hb, hmerge⟩ := exists_overlaid_eq_merge hbase.table_entries (hinner _ hv) key
      rw [hupper, Option.map_some, Option.some_or] at hfound
      rw [hfound, Option.map_some, Option.some_or, overlaid_of_find? hfound, hmerge]
      -- Under the key of an upper entry stands a value that it has been laid over already.
      exact congrArg some (ih _ hv hb)

/-- **Merging overrides leaf by leaf.**  The leaves of a merged value are those of the upper value, and those
of the lower one about which the upper one says nothing; a second time changes nothing.  Both values are in
order, as those of configuration files and of settings are. -/
theorem merge_overrides_leaves (hbase : base.IsOrdered) (hoverlay : overlay.IsOrdered) :
    (∀ path x, (merge base overlay).IsLeafAt path x ↔
      overlay.IsLeafAt path x ∨ base.IsLeafAt path x ∧ overlay.LeavesOpen path) ∧
    merge (merge base overlay) overlay = merge base overlay :=
  ⟨fun _ _ => isLeafAt_merge_iff hoverlay, merge_merge hbase hoverlay⟩

/-- A table with a leaf, a table and a leaf in a table under its keys. -/
def usual : Value :=
  .table [("archive", .integer 9), ("html", .table [("title", .string "News")]),
    ("paths", .table [("exports", .string "exports"), ("output", .string "dist")])]

/-- A table with an empty table, a leaf and a table under the same keys. -/
def wished : Value :=
  .table [("archive", .table []), ("html", .string "off"),
    ("paths", .table [("include", .array [.table []]), ("output", .string "build")])]

/-- The leaf below an untouched key stays, the one below a leaf is hidden, and so is the one under an empty
table. -/
theorem wished_overrides_usual : usual.IsOrdered ∧ wished.IsOrdered ∧
    (merge usual wished).IsLeafAt ["paths", "exports"] (.string "exports") ∧
    (merge usual wished).IsLeafAt ["paths", "include"] (.array [.table []]) ∧
    (∀ x, ¬ (merge usual wished).IsLeafAt ["html", "title"] x) ∧
    (∀ x, ¬ (merge usual wished).IsLeafAt ["archive"] x) ∧
    merge (merge usual wished) wished = merge usual wished := by
  have husual : usual.IsOrdered := by
    refine .table (by decide) ?_
    simp only [List.forall_mem_cons, List.not_mem_nil, false_imp_iff, implies_true, and_true]
    refine ⟨.leaf rfl, .table (by decide) ?_, .table (by decide) ?_⟩
    all_goals
      simp only [List.forall_mem_cons, List.not_mem_nil, false_imp_iff, implies_true, and_true]
      first | exact .leaf rfl | exact ⟨.leaf rfl, .leaf rfl⟩
  have hwished : wished.IsOrdered := by
    refine .table (by decide) ?_
    simp only [List.forall_mem_cons, List.not_mem_nil, false_imp_iff, implies_true, and_true]
    refine ⟨.table (by decide) (List.forall_mem_nil _), .leaf rfl, .table (by decide) ?_⟩
    simp only [List.forall_mem_cons, List.not_mem_nil, false_imp_iff, implies_true, and_true]
    exact ⟨.leaf rfl, .leaf rfl⟩
  obtain ⟨hleaves, hagain⟩ := merge_overrides_leaves husual hwished
  refine ⟨husual, hwished, (hleaves _ _).2 (.inr ⟨⟨rfl, rfl⟩, ?_⟩), (hleaves _ _).2 (.inl ⟨rfl, rfl⟩), ?_, ?_,
    hagain⟩
  · simp [leavesOpen_cons_iff, wished, isTable, Entries.find?]
  · intro x hx
    rcases (hleaves _ _).1 hx with hupper | ⟨-, hopen⟩
    · simp [isLeafAt_cons_iff, wished, Entries.find?, entries] at hupper
    · simp [leavesOpen_cons_iff, wished, isTable, Entries.find?] at hopen
  · intro x hx
    rcases (hleaves _ _).1 hx with hupper | ⟨-, hopen⟩
    · simp [isLeafAt_cons_iff, isLeafAt_nil_iff, wished, isTable, Entries.find?] at hupper
    · simp [leavesOpen_cons_iff, not_leavesOpen_nil, wished, isTable, Entries.find?] at hopen

end Value

end Toml

/-! ## Configuration files -/

namespace Settings

open Toml (Value)

/-- **What a configuration file says over the stock settings:** its own leaves, and the stock ones about which
it says nothing. -/
theorem isLeafAt_over_stock_iff {text : String} {es : List (String × Value)} (h : Toml.parse? text = some es)
    {path : List String} {x : Value} :
    (Value.table (Value.mergeEntries stock.encode es)).IsLeafAt path x ↔ (Value.table es).IsLeafAt path x ∨
      (Value.table stock.encode).IsLeafAt path x ∧ (Value.table es).LeavesOpen path := by
  rw [← Value.isLeafAt_merge_iff (Toml.isOrdered_of_parse? h), Value.merge]

/-- What a configuration file and the stock settings come to is in order. -/
theorem isOrdered_over_stock {text : String} {es : List (String × Value)} (h : Toml.parse? text = some es) :
    (Value.table (Value.mergeEntries stock.encode es)).IsOrdered := by
  have hmerged := (isOrdered_encode stock).merge (Toml.isOrdered_of_parse? h)
  rwa [Value.merge] at hmerged

end Settings

end MailTemplate
