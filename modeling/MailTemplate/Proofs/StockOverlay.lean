import MailTemplate.Proofs.Computations
import MailTemplate.Proofs.MergedTables
import MailTemplate.Settings.File
import Mathlib.Data.List.Pairwise

/-!
# Settings laid over the stock settings

There are two ways to fill in what a table does not say.  It can be laid over the table of the stock
settings and then be read, or it can be read over the stock settings itself.  Both give the same settings,
or both fail.

What is read for a field does not depend on what was read before, so the entries of a table can be read in
any order.  In a table that is laid over the stock one, those that only the stock table has come first: they
change nothing.  The others are read as if there were nothing below them, since only tables are laid over
each other entry by entry, and the tables among the stock settings are those of records, for which the same
holds.

## Main definitions

* `Settings.Record.readEntry` — one entry read into a record.
* `Settings.Field.Commutes`, `Settings.Field.Absorbs` — fields that are read in any order, and over a value
  as over nothing.
* `Settings.Record.IsDefault` — a table that a record can be laid over.

## Main results

* `Settings.Record.readTable_perm` — the order of entries does not matter.
* `Settings.Record.readTable_mergeEntries` — a table laid over a default is read as the table alone.
* `Settings.decode_over_stock` — settings laid over the stock settings.
-/

namespace MailTemplate

namespace Settings

open Toml (Value)
open Toml.Value (mergeEntries overlaid merge)

/-! ## Fields -/

namespace Field

variable {σ τ α β : Type} {f g : Field σ} {b : Value}

/-- Two fields can be read one after the other in either order. -/
def Commutes (f g : Field σ) : Prop := ∀ v w s t,
  (∃ m, f.read v s = .ok m ∧ g.read w m = .ok t) ↔ ∃ m, g.read w s = .ok m ∧ f.read v m = .ok t

instance : Std.Symm (Commutes (σ := σ)) := ⟨fun _ _ h v w s t => (h w v s t).symm⟩

theorem commutes_of_set {key key' : String} {item : Value → Decoded α} {item' : Value → Decoded β}
    {set : α → σ → σ} {set' : β → σ → σ} (h : ∀ a b s, set a (set' b s) = set' b (set a s)) :
    (Field.of key item set).Commutes (.of key' item' set') := by
  intro v w s t
  simp only [Field.of, map_eq_ok_iff]
  constructor
  · rintro ⟨_, ⟨a, ha, rfl⟩, b, hb, rfl⟩
    exact ⟨_, ⟨b, hb, rfl⟩, a, ha, h a b s⟩
  · rintro ⟨_, ⟨b, hb, rfl⟩, a, ha, rfl⟩
    exact ⟨_, ⟨a, ha, rfl⟩, b, hb, (h a b s).symm⟩

/-- A field is read from a value laid over another one as from the value alone. -/
def Absorbs (f : Field σ) (b : Value) : Prop := ∀ v, v.HasKeysOnce → ∀ s t,
  f.read (merge b v) s = .ok t ↔ f.read v s = .ok t

theorem absorbs_of_not_table (h : b.isTable = false) : f.Absorbs b := by
  intro v _ s t
  rw [Toml.Value.merge_of_base_not_table h]

end Field

/-! ## Records -/

namespace Record

variable {σ τ : Type} {record : Record σ} {inner : Record τ} {e e' : String × Value}
  {entries entries' base rest : List (String × Value)} {s t : σ}

/-- An entry read into a record. -/
def readEntry (record : Record σ) (e : String × Value) (s : σ) : Decoded σ :=
  match record.fields.find? fun f => f.key == e.1 with
  | none => fault (.unknown e.1 (record.fields.map Field.key))
  | some field => under e.1 (field.read e.2 s)

theorem readTable_cons : record.readTable (e :: rest) s = record.readEntry e s >>= record.readTable rest := by
  obtain ⟨key, v⟩ := e
  rw [readTable, readEntry]
  cases record.fields.find? fun f => f.key == key with
  | none => rfl
  | some f => rfl

/-- What an entry comes to: there is a field of its key, which is read. -/
theorem readEntry_eq_ok_iff : record.readEntry e s = .ok t ↔
    ∃ f, record.fields.find? (fun f => f.key == e.1) = some f ∧ f.read e.2 s = .ok t := by
  rw [readEntry]
  split
  · next hnone => simp [hnone, fault]
  · next f hf => simp [hf, under, mapError_eq_ok_iff]

/-- The field of a key. -/
theorem mem_key_of_find? {fields : List (Field σ)} {key : String} {f : Field σ}
    (h : fields.find? (fun f => f.key == key) = some f) : f ∈ fields ∧ f.key = key := by
  have hkey := List.find?_some h
  exact ⟨List.mem_of_find?_eq_some h, beq_iff_eq.1 hkey⟩

theorem readTable_append : record.readTable (entries ++ rest) s = .ok t ↔
    ∃ m, record.readTable entries s = .ok m ∧ record.readTable rest m = .ok t := by
  induction entries generalizing s with
  | nil => simp [readTable_nil]
  | cons e entries ih =>
    simp only [List.cons_append, readTable_cons, bind_eq_ok_iff, ih]
    constructor
    · rintro ⟨m, hm, m', hm', ht⟩
      exact ⟨m', ⟨m, hm, hm'⟩, ht⟩
    · rintro ⟨m', ⟨m, hm, hm'⟩, ht⟩
      exact ⟨m, hm, m', hm', ht⟩

/-- Entries of different keys are read for different fields. -/
theorem readEntry_comm (h : record.fields.Pairwise Field.Commutes) (hne : e.1 ≠ e'.1) :
    (∃ m, record.readEntry e s = .ok m ∧ record.readEntry e' m = .ok t) ↔
      ∃ m, record.readEntry e' s = .ok m ∧ record.readEntry e m = .ok t := by
  simp only [readEntry_eq_ok_iff]
  have hcomm : ∀ f g, record.fields.find? (fun f => f.key == e.1) = some f →
      record.fields.find? (fun f => f.key == e'.1) = some g → f.Commutes g := by
    intro f g hf hg
    obtain ⟨hf, hkey⟩ := mem_key_of_find? hf
    obtain ⟨hg, hkey'⟩ := mem_key_of_find? hg
    refine h.forall hf hg ?_
    rintro rfl
    exact hne (hkey.symm.trans hkey')
  constructor
  · rintro ⟨m, ⟨f, hf, hm⟩, g, hg, ht⟩
    obtain ⟨m', hm', ht'⟩ := (hcomm f g hf hg e.2 e'.2 s t).1 ⟨m, hm, ht⟩
    exact ⟨m', ⟨g, hg, hm'⟩, f, hf, ht'⟩
  · rintro ⟨m, ⟨g, hg, hm⟩, f, hf, ht⟩
    obtain ⟨m', hm', ht'⟩ := (hcomm f g hf hg e.2 e'.2 s t).2 ⟨m, hm, ht⟩
    exact ⟨m', ⟨f, hf, hm'⟩, g, hg, ht'⟩

/-- **Entries can be read in any order** if no key occurs twice. -/
theorem readTable_perm (h : record.fields.Pairwise Field.Commutes) (hperm : entries.Perm entries')
    (hkeys : Entries.HasKeysOnce entries) :
    record.readTable entries s = .ok t ↔ record.readTable entries' s = .ok t := by
  induction hperm generalizing s with
  | nil => rfl
  | cons e _ ih =>
    simp only [readTable_cons, bind_eq_ok_iff, ih (List.nodup_cons.1 hkeys).2]
  | swap e e' rest =>
    have hne : e'.1 ≠ e.1 := by
      intro heq
      exact (List.nodup_cons.1 hkeys).1 (List.mem_cons.2 (.inl heq))
    simp only [readTable_cons, bind_eq_ok_iff, ← and_assoc, ← exists_and_left]
    constructor
    · rintro ⟨m, m', ⟨hm, hm'⟩, ht⟩
      obtain ⟨n, hn, hn'⟩ := (readEntry_comm h hne).1 ⟨m, hm, hm'⟩
      exact ⟨n, m', ⟨hn, hn'⟩, ht⟩
    · rintro ⟨m, m', ⟨hm, hm'⟩, ht⟩
      obtain ⟨n, hn, hn'⟩ := (readEntry_comm h hne).2 ⟨m, hm, hm'⟩
      exact ⟨n, m', ⟨hn, hn'⟩, ht⟩
  | trans hfirst _ ih ih' =>
    exact (ih hkeys).trans (ih' ((hfirst.map Prod.fst).nodup_iff.1 hkeys))

/-! ## Tables that are laid over others -/

/-- A table that says what a record says already, and over which any other table can be laid. -/
structure IsDefault (record : Record σ) (s : σ) (base : List (String × Value)) : Prop where
  /-- The fields are independent. -/
  commutes : record.fields.Pairwise Field.Commutes
  /-- The keys are in order. -/
  sorted : Entries.IsSorted base
  /-- The entries change nothing. -/
  restores : ∀ e ∈ base, record.readEntry e s = .ok s
  /-- Every field is read from what is laid over an entry as from what is laid over nothing. -/
  absorbs : ∀ e ∈ base, ∀ f, record.fields.find? (fun f => f.key == e.1) = some f → f.Absorbs e.2

/-- What is laid over a default is read as it is. -/
theorem IsDefault.readEntry_overlaid (h : record.IsDefault s base) (hkeys : e.2.HasKeysOnce) (m : σ) :
    record.readEntry (e.1, overlaid base e.1 e.2) m = .ok t ↔ record.readEntry e m = .ok t := by
  rw [readEntry_eq_ok_iff, readEntry_eq_ok_iff]
  refine exists_congr fun f => and_congr_right fun hf => ?_
  rw [overlaid]
  split
  · next b hb => exact h.absorbs (e.1, b) (Entries.mem_of_find? hb) f hf e.2 hkeys m t
  · rfl

/-- **A table laid over a default** is read as the table alone. -/
theorem IsDefault.readTable_mergeEntries (h : record.IsDefault s base) (hkeys : Entries.HasKeysOnce entries)
    (hinner : ∀ e ∈ entries, e.2.HasKeysOnce) :
    record.readTable (mergeEntries base entries) s = .ok t ↔ record.readTable entries s = .ok t := by
  have hperm := Toml.Value.mergeEntries_perm h.sorted hkeys
  -- What only the default has is read first, and changes nothing.
  have hlower : ∀ lower, (∀ e ∈ lower, e ∈ base) → record.readTable lower s = .ok s := by
    intro lower hlower
    induction lower with
    | nil => rfl
    | cons e lower ih =>
      obtain ⟨he, hlower⟩ := List.forall_mem_cons.1 hlower
      rw [readTable_cons, h.restores e he]
      exact ih hlower
  -- Each entry that is laid over the default is then read as it is, from whatever record was reached.
  have hupper : ∀ m, record.readTable (entries.map fun e => (e.1, overlaid base e.1 e.2)) m = .ok t ↔
      record.readTable entries m = .ok t := by
    clear hperm hkeys
    induction entries with
    | nil => exact fun m => Iff.rfl
    | cons e rest ih =>
      intro m
      obtain ⟨he, hrest⟩ := List.forall_mem_cons.1 hinner
      simp only [List.map_cons, readTable_cons, bind_eq_ok_iff, h.readEntry_overlaid he, ih hrest]
  have hnodup := Toml.Value.hasKeysOnce_mergeEntries h.sorted hkeys
  rw [readTable_perm h.commutes hperm hnodup, readTable_append,
    hlower _ fun e he => (List.mem_filter.1 he).1]
  constructor
  · rintro ⟨m, hm, ht⟩
    obtain rfl := Except.ok.inj hm
    exact (hupper s).1 ht
  · exact fun ht => ⟨s, rfl, (hupper s).2 ht⟩

theorem isDefault_ofList (hcommutes : record.fields.Pairwise Field.Commutes)
    (hrestores : ∀ e ∈ entries, record.readEntry e s = .ok s)
    (habsorbs : ∀ e ∈ entries, ∀ f, record.fields.find? (fun f => f.key == e.1) = some f →
      f.Absorbs e.2) :
    record.IsDefault s (Entries.ofList entries) :=
  ⟨hcommutes, Entries.isSorted_ofList entries, fun e he => hrestores e (Entries.mem_of_mem_ofList he),
    fun e he => habsorbs e (Entries.mem_of_mem_ofList he)⟩

/-- A default without tables in it. -/
theorem isDefault_of_not_table (hcommutes : record.fields.Pairwise Field.Commutes)
    (hrestores : ∀ e ∈ entries, record.readEntry e s = .ok s)
    (hscalar : ∀ e ∈ entries, e.2.isTable = false) : record.IsDefault s (Entries.ofList entries) :=
  isDefault_ofList hcommutes hrestores fun e he _ _ => Field.absorbs_of_not_table (hscalar e he)

end Record

/-- **A field that is a record** is read over its default as over nothing. -/
theorem Field.absorbs_nested {σ τ : Type} {key : String} {inner : Record τ} {default : τ} {set : τ → σ → σ}
    {entries : List (String × Value)} (h : inner.IsDefault default (Entries.ofList entries)) :
    (Field.nested key inner (fun _ => default) set).Absorbs (table entries) := by
  intro v hv s t
  cases hv with
  | table hkeys hinner =>
    have hread : ∀ r, inner.read (merge (table entries) (.table _)) default = .ok r ↔
        inner.read (.table _) default = .ok r := fun r => h.readTable_mergeEntries hkeys hinner
    simp only [Field.nested, map_eq_ok_iff, hread]
  | _ => rfl

/-! ## The stock settings -/

theorem commutes_pathRecord : pathRecord.fields.Pairwise Field.Commutes := by
  simp only [pathRecord, List.pairwise_cons, List.forall_mem_cons, List.not_mem_nil, false_imp_iff, implies_true,
    List.Pairwise.nil, and_true]
  and_intros
  all_goals exact Field.commutes_of_set fun _ _ _ => rfl

theorem commutes_compilerRecord : compilerRecord.fields.Pairwise Field.Commutes :=
  List.pairwise_pair.2 (Field.commutes_of_set fun _ _ _ => rfl)

theorem commutes_htmlRecord : htmlRecord.fields.Pairwise Field.Commutes :=
  List.pairwise_singleton _ _

theorem commutes_outlookRecord : outlookRecord.fields.Pairwise Field.Commutes := by
  simp only [outlookRecord, List.pairwise_cons, List.forall_mem_cons, List.not_mem_nil, false_imp_iff, implies_true,
    List.Pairwise.nil, and_true]
  and_intros
  all_goals exact Field.commutes_of_set fun _ _ _ => rfl

theorem commutes_archiveRecord : archiveRecord.fields.Pairwise Field.Commutes := by
  simp only [archiveRecord, List.pairwise_cons, List.forall_mem_cons, List.not_mem_nil, false_imp_iff, implies_true,
    List.Pairwise.nil, and_true]
  and_intros
  all_goals exact Field.commutes_of_set fun _ _ _ => rfl

theorem commutes_processingRecord : processingRecord.fields.Pairwise Field.Commutes :=
  List.pairwise_singleton _ _

theorem commutes_settingsRecord : settingsRecord.fields.Pairwise Field.Commutes := by
  simp only [settingsRecord, List.pairwise_cons, List.forall_mem_cons, List.not_mem_nil, false_imp_iff, implies_true,
    List.Pairwise.nil, and_true]
  and_intros
  all_goals exact Field.commutes_of_set fun _ _ _ => rfl

/-- **Any table can be laid over that of the stock settings.** -/
theorem isDefault_stock : settingsRecord.IsDefault stock stock.encode := by
  refine Record.isDefault_ofList commutes_settingsRecord (by decide) ?_
  simp only [List.forall_mem_cons, List.not_mem_nil, false_imp_iff, implies_true, and_true]
  refine ⟨?projectName, ?paths, ?compiler, ?html, ?outlook, ?archive, ?processing⟩
  all_goals
    intro f hf
    obtain rfl := Option.some.inj hf
  case projectName => exact Field.absorbs_of_not_table rfl
  case paths =>
    exact Field.absorbs_nested (Record.isDefault_of_not_table commutes_pathRecord (by decide) (by decide))
  case compiler =>
    exact Field.absorbs_nested (Record.isDefault_of_not_table commutes_compilerRecord (by decide) (by decide))
  case html =>
    exact Field.absorbs_nested (Record.isDefault_of_not_table commutes_htmlRecord (by decide) (by decide))
  case outlook =>
    exact Field.absorbs_nested (Record.isDefault_of_not_table commutes_outlookRecord (by decide) (by decide))
  case archive =>
    exact Field.absorbs_nested (Record.isDefault_of_not_table commutes_archiveRecord (by decide) (by decide))
  case processing =>
    exact Field.absorbs_nested (Record.isDefault_of_not_table commutes_processingRecord (by decide) (by decide))

/-- **Settings laid over the stock settings** are those that are read over them: both ways of filling in what a
table does not say give the same settings, or both fail. -/
theorem decode_over_stock {entries : List (String × Value)} (h : (Value.table entries).HasKeysOnce) :
    (decode (mergeEntries stock.encode entries)).toOption = (decode entries).toOption := by
  cases h with
  | table hkeys hinner =>
    apply Option.ext
    intro s
    rw [toOption_eq_some_iff, toOption_eq_some_iff]
    exact isDefault_stock.readTable_mergeEntries hkeys hinner

/-- A table that says a little. -/
def brief : List (String × Value) :=
  [("outlook", .table [("vml_width", .string "1px"), ("web_fonts", .array [])]),
    ("processing", .table [("max_processes", .integer 2)])]

/-- What it does not say is stock. -/
theorem decode_over_stock_of_brief : (Value.table brief).HasKeysOnce ∧
    (decode (mergeEntries stock.encode brief)).toOption =
      some { outlook := { backgroundWidth := "1px", webFonts := [] }, processing := ⟨some 2⟩ } := by
  have hkeys : (Value.table brief).HasKeysOnce := by
    refine .table (by decide) ?_
    simp only [brief, List.forall_mem_cons, List.not_mem_nil, false_imp_iff, implies_true, and_true]
    refine ⟨.table (by decide) ?_, .table (by decide) ?_⟩
    · simp only [List.forall_mem_cons, List.not_mem_nil, false_imp_iff, implies_true, and_true]
      exact ⟨.string _, .array (List.forall_mem_nil _)⟩
    · simp only [List.forall_mem_cons, List.not_mem_nil, false_imp_iff, implies_true, and_true]
      exact .integer _
  exact ⟨hkeys, (decode_over_stock hkeys).trans (by decide)⟩

end Settings

end MailTemplate
