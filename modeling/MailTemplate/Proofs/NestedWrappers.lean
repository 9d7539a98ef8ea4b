import MailTemplate.Proofs.MatchingTags

/-!
# Wrapped tables nest

The rule for background colours inserts two blocks for each table that it wraps: one before its start
tag and one behind the end tag that closes it.  Elements of one name are nested or disjoint, so the
blocks are the brackets of a balanced sequence, and each table's opening block is closed by the block
behind its own end tag.  Several blocks can fall on one offset: the closing block of a table and the
opening block of the next one, or two closing blocks.  Edits of one offset are applied in the order in
which they are listed, and there a closing block is listed before the blocks of the next table.

## Main definitions

* `VmlBackground.Wrapping` — a table that the rule wraps, with its end tag.
* `VmlBackground.Nests` — blocks that are the nested brackets of some tables.

## Main results

* `VmlBackground.exists_nests` — listed blocks of nested or disjoint tables, put in order, nest.
* `VmlBackground.wrappers_nest` — the blocks of the rule nest.
-/

namespace MailTemplate

namespace Edit

/-- An edit that is listed first may as well be listed last, if those of its span are no different. -/
theorem onSpan_cons_comm {e : Edit} {es : List Edit} (h : ∀ a ∈ es, a.span = e.span → a = e)
    (span : Span) : onSpan span (e :: es) = onSpan span (es ++ [e]) := by
  by_cases hspan : e.span = span
  · subst hspan
    have hsame : onSpan e.span es = List.replicate (onSpan e.span es).length e := by
      refine List.eq_replicate_of_mem fun a ha => ?_
      obtain ⟨hmem, heq⟩ := mem_onSpan_iff.1 ha
      exact h a hmem heq
    rw [onSpan_append, onSpan_cons_self, onSpan_cons_self e [], hsame]
    exact List.replicate_succ'
  · have hnone : onSpan span [e] = [] := onSpan_eq_nil (List.forall_mem_singleton.2 hspan)
    rw [onSpan_append, hnone, List.append_nil]
    exact List.filter_cons_of_neg (by simpa using hspan)

end Edit

namespace VmlBackground

/-! ## The tables that are wrapped -/

/-- A table that the rule wraps. -/
structure Wrapping where
  /-- The place of the start tag among the tokens. -/
  index : Nat
  /-- The start tag. -/
  table : StartTag
  /-- The colour of the table. -/
  colour : String
  /-- The end tag that closes the table. -/
  close : Span

/-- The table at a place, if it has a colour and an end and is not wrapped yet. -/
def wrapping? (doc : Document) (entry : Nat × StartTag) : Option Wrapping :=
  match colour? entry.2, doc.matchingEnd? entry.1 with
  | some colour, some close =>
    if isWrapped doc entry.1 then none else some ⟨entry.1, entry.2, colour, close⟩
  | _, _ => none

/-- The tables of a document that the rule wraps. -/
def wrappings (doc : Document) : List Wrapping := (doc.startTags "table").filterMap (wrapping? doc)

namespace Wrapping

/-- The block that is inserted before the table. -/
def opening (default_ : String) (w : Wrapping) : Edit :=
  Edit.insert w.table.span.start (VmlBackground.opening (width default_ w.table) w.colour)

/-- The block that is inserted behind the end of the table. -/
def closing (w : Wrapping) : Edit := Edit.insert w.close.stop VmlBackground.closing

/-- Both blocks. -/
def blocks (default_ : String) (w : Wrapping) : List Edit := [w.opening default_, w.closing]

/-- A table and a later one: the first ends before the later one, or the later one stands in it. -/
structure Before (w later : Wrapping) : Prop where
  /-- The later one begins later. -/
  start_lt : w.table.span.start < later.table.span.start
  /-- They are disjoint or nested. -/
  apart_or_inside : w.close.stop ≤ later.table.span.start ∨ later.close.stop ≤ w.close.stop

end Wrapping

theorem tableEdits_eq (default_ : String) (doc : Document) (entry : Nat × StartTag) :
    tableEdits default_ doc entry.1 entry.2 =
      (wrapping? doc entry).toList.flatMap (Wrapping.blocks default_) := by
  unfold tableEdits wrapping?
  cases colour? entry.2 with
  | none => rfl
  | some colour =>
    cases doc.matchingEnd? entry.1 with
    | none => rfl
    | some close =>
      dsimp only
      split
      · rfl
      · rfl

/-- The rule inserts the blocks of the tables that it wraps. -/
theorem editsOf_eq (default_ source : String) :
    (rule default_).editsOf source =
      (wrappings (Document.read source)).flatMap (Wrapping.blocks default_) := by
  unfold Rule.editsOf rule wrappings
  dsimp only
  induction (Document.read source).startTags "table" with
  | nil => rfl
  | cons entry entries ih =>
    rw [List.flatMap_cons, tableEdits_eq, ih, List.filterMap_cons]
    cases wrapping? (Document.read source) entry with
    | none => rfl
    | some w => rw [List.flatMap_cons, Option.toList_some, List.flatMap_singleton]

theorem wrapping?_eq_some_iff {doc : Document} {entry : Nat × StartTag} {w : Wrapping} :
    wrapping? doc entry = some w ↔ entry = (w.index, w.table) ∧ colour? w.table = some w.colour ∧
      doc.matchingEnd? w.index = some w.close ∧ isWrapped doc w.index = false := by
  obtain ⟨i, table⟩ := entry
  unfold wrapping?
  constructor
  · intro h
    split at h
    · next colour close hcolour hclose =>
      split at h
      · exact absurd h (by simp)
      · next hopen =>
        obtain rfl := Option.some.inj h
        exact ⟨rfl, hcolour, hclose, eq_false_of_ne_true hopen⟩
    · exact absurd h (by simp)
  · rintro ⟨heq, hcolour, hclose, hopen⟩
    obtain ⟨rfl, rfl⟩ := Prod.mk.inj heq
    simp only [hcolour, hclose, hopen]
    rfl

/-- The rule wraps the tables that have a colour and an end and are not wrapped yet. -/
theorem mem_wrappings_iff {doc : Document} {w : Wrapping} :
    w ∈ wrappings doc ↔ (doc.tokens[w.index]? = some (.startTag w.table) ∧ w.table.name = "table") ∧
      colour? w.table = some w.colour ∧ doc.matchingEnd? w.index = some w.close ∧
        isWrapped doc w.index = false := by
  unfold wrappings
  simp only [List.mem_filterMap, wrapping?_eq_some_iff]
  constructor
  · rintro ⟨entry, hentry, rfl, hrest⟩
    exact ⟨Document.mem_startTags_iff.1 hentry, hrest⟩
  · rintro ⟨hentry, hrest⟩
    exact ⟨_, Document.mem_startTags_iff.2 hentry, rfl, hrest⟩

/-- Of two wrapped tables the later one stands behind the other or inside of it. -/
theorem pairwise_wrappings (source : String) :
    (wrappings (Document.read source)).Pairwise Wrapping.Before := by
  have hplaces : (wrappings (Document.read source)).Pairwise fun w w' => w.index < w'.index := by
    refine (Document.pairwise_startTags _ "table").filterMap _ fun a a' hlt w hw w' hw' => ?_
    obtain ⟨rfl, -⟩ := wrapping?_eq_some_iff.1 hw
    obtain ⟨rfl, -⟩ := wrapping?_eq_some_iff.1 hw'
    exact hlt
  refine hplaces.imp_of_mem fun {w w'} hmem hmem' hlt => ?_
  obtain ⟨⟨htable, hname⟩, -, hclose, -⟩ := mem_wrappings_iff.1 hmem
  obtain ⟨⟨htable', hname'⟩, -, hclose', -⟩ := mem_wrappings_iff.1 hmem'
  constructor
  · exact Document.start_lt_start hlt htable htable'
  · exact Document.nested_or_disjoint hlt htable htable' (hname'.trans hname.symm) hclose hclose'

theorem start_lt_stop_of_mem_wrappings {source : String} {w : Wrapping}
    (h : w ∈ wrappings (Document.read source)) : w.table.span.start < w.close.stop := by
  obtain ⟨⟨htable, -⟩, -, hclose, -⟩ := mem_wrappings_iff.1 h
  exact Document.start_lt_matchingEnd? htable hclose

/-! ## Brackets -/

/-- **Blocks that nest:** the brackets of some tables, listed in the order of their opening blocks. -/
inductive Nests (default_ : String) : List Wrapping → List Edit → Prop
  /-- There is no table. -/
  | nil : Nests default_ [] []
  /-- The first table, with the tables inside of it between its blocks and the others behind them. -/
  | wrap {w : Wrapping} {inside behind : List Wrapping} {inner rest : List Edit}
      (hinside : Nests default_ inside inner) (hbehind : Nests default_ behind rest) :
      Nests default_ (w :: (inside ++ behind)) (w.opening default_ :: (inner ++ w.closing :: rest))

section

variable {default_ : String} {w : Wrapping} {ws : List Wrapping} {e : Edit}

theorem mem_blocks (h : e ∈ ws.flatMap (Wrapping.blocks default_)) :
    ∃ w ∈ ws, e = w.opening default_ ∨ e = w.closing := by
  obtain ⟨w, hw, he⟩ := List.mem_flatMap.1 h
  exact ⟨w, hw, List.mem_pair.1 he⟩

/-- What stands in order begins in a table that ends at some offset, or behind that offset. -/
theorem exists_split_at (stop : Nat) (hordered : ws.Pairwise Wrapping.Before) :
    ∃ inside behind, ws = inside ++ behind ∧ (∀ w ∈ inside, w.table.span.start < stop) ∧
      ∀ w ∈ behind, stop ≤ w.table.span.start := by
  induction ws with
  | nil => exact ⟨[], [], rfl, by simp, by simp⟩
  | cons w ws ih =>
    obtain ⟨hlater, hordered⟩ := List.pairwise_cons.1 hordered
    by_cases hstart : w.table.span.start < stop
    · obtain ⟨inside, behind, rfl, hinside, hbehind⟩ := ih hordered
      exact ⟨w :: inside, behind, rfl, List.forall_mem_cons.2 ⟨hstart, hinside⟩, hbehind⟩
    · refine ⟨[], w :: ws, rfl, by simp, List.forall_mem_cons.2 ⟨Nat.le_of_not_lt hstart, ?_⟩⟩
      intro w' hw'
      have := (hlater w' hw').start_lt
      omega

/-- Blocks are insertions. -/
theorem start_eq_stop_of_mem_blocks (h : e ∈ ws.flatMap (Wrapping.blocks default_)) :
    e.span.start = e.span.stop := by
  obtain ⟨w, -, rfl | rfl⟩ := mem_blocks h
  · rfl
  · rfl

/-- The blocks of tables that stand inside of one stand between its blocks. -/
theorem within_of_mem_blocks {inside : List Wrapping} (hlater : ∀ w' ∈ inside, w.Before w')
    (hinside : ∀ w' ∈ inside, w'.table.span.start < w.close.stop)
    (hclose : ∀ w' ∈ inside, w'.table.span.start < w'.close.stop)
    (he : e ∈ inside.flatMap (Wrapping.blocks default_)) :
    w.table.span.start ≤ e.span.start ∧ e.span.start ≤ w.close.stop := by
  obtain ⟨w', hw', heq⟩ := mem_blocks he
  obtain ⟨hstart, hplace⟩ := hlater w' hw'
  have hbefore := hinside w' hw'
  have hinto := hplace.resolve_left (Nat.not_le_of_lt hbefore)
  rcases heq with rfl | rfl
  · exact ⟨hstart.le, hbefore.le⟩
  · exact ⟨(hstart.trans (hclose w' hw')).le, hinto⟩

/-- The blocks of tables that begin behind an offset stand behind it. -/
theorem le_of_mem_blocks {behind : List Wrapping} {stop : Nat}
    (hbehind : ∀ w' ∈ behind, stop ≤ w'.table.span.start)
    (hclose : ∀ w' ∈ behind, w'.table.span.start < w'.close.stop)
    (he : e ∈ behind.flatMap (Wrapping.blocks default_)) : stop ≤ e.span.start := by
  obtain ⟨w', hw', heq⟩ := mem_blocks he
  have hstart := hbehind w' hw'
  rcases heq with rfl | rfl
  · exact hstart
  · exact hstart.trans (hclose w' hw').le

/-- **A closing block is listed before the blocks of the tables inside, and applied behind them:** an
opening block inside stands before it, and a closing block at its offset is no different. -/
theorem onSpan_wrap {inside behind : List Wrapping} {inner rest : List Edit}
    (hinside : ∀ w' ∈ inside, w'.table.span.start < w.close.stop)
    (hinner : ∀ span, Edit.onSpan span (inside.flatMap (Wrapping.blocks default_)) =
      Edit.onSpan span inner)
    (hrest : ∀ span, Edit.onSpan span (behind.flatMap (Wrapping.blocks default_)) =
      Edit.onSpan span rest) (span : Span) :
    Edit.onSpan span ((w :: (inside ++ behind)).flatMap (Wrapping.blocks default_)) =
      Edit.onSpan span (w.opening default_ :: (inner ++ w.closing :: rest)) := by
  have hmoved : Edit.onSpan span (w.closing :: inside.flatMap (Wrapping.blocks default_)) =
      Edit.onSpan span (inside.flatMap (Wrapping.blocks default_) ++ [w.closing]) := by
    refine Edit.onSpan_cons_comm (fun e he hspan => ?_) span
    obtain ⟨w', hw', rfl | rfl⟩ := mem_blocks he
    · exact absurd (congrArg Span.start hspan) (hinside w' hw').ne
    · exact congrArg (Edit.insert · VmlBackground.closing) (congrArg Span.start hspan)
  rw [List.flatMap_cons, List.flatMap_append]
  calc Edit.onSpan span ([w.opening default_] ++
        ((w.closing :: inside.flatMap (Wrapping.blocks default_)) ++
          behind.flatMap (Wrapping.blocks default_)))
    _ = Edit.onSpan span ([w.opening default_] ++
        ((inside.flatMap (Wrapping.blocks default_) ++ [w.closing]) ++
          behind.flatMap (Wrapping.blocks default_))) := by
      rw [Edit.onSpan_append, Edit.onSpan_append, hmoved, ← Edit.onSpan_append,
        ← Edit.onSpan_append]
    _ = Edit.onSpan span ([w.opening default_] ++ ((inner ++ [w.closing]) ++ rest)) := by
      simp only [Edit.onSpan_append, hinner, hrest]
    _ = Edit.onSpan span (w.opening default_ :: (inner ++ w.closing :: rest)) := by
      rw [List.append_assoc]
      rfl

/-- Listed blocks of tables, of which each begins before it ends and stands behind an earlier one or
inside of it, **nest once they are in order**. -/
theorem exists_nests (default_ : String) {ws : List Wrapping}
    (hordered : ws.Pairwise Wrapping.Before)
    (hclose : ∀ w ∈ ws, w.table.span.start < w.close.stop) :
    ∃ es, Nests default_ ws es ∧ (es.Pairwise fun a b => a.span.start ≤ b.span.start) ∧
      ∀ span, Edit.onSpan span (ws.flatMap (Wrapping.blocks default_)) = Edit.onSpan span es := by
  -- By induction on the number of tables: those inside of the first one and those behind it are fewer.
  induction hlength : ws.length using Nat.strongRecOn generalizing ws with
  | ind n ih =>
    subst hlength
    match ws with
    | [] => exact ⟨[], .nil, .nil, fun _ => rfl⟩
    | w :: later =>
      obtain ⟨hlater, hordered⟩ := List.pairwise_cons.1 hordered
      obtain ⟨inside, behind, rfl, hinside, hbehind⟩ :=
        exists_split_at w.close.stop hordered
      obtain ⟨horderedInside, horderedBehind, -⟩ := List.pairwise_append.1 hordered
      obtain ⟨hclose, hcloseLater⟩ := List.forall_mem_cons.1 hclose
      obtain ⟨hcloseInside, hcloseBehind⟩ := List.forall_mem_append.1 hcloseLater
      have hlengths : (w :: (inside ++ behind)).length = inside.length + behind.length + 1 := by
        simp
      obtain ⟨inner, hinner, hinnerOrdered, hinnerSpans⟩ :=
        ih inside.length (by omega) horderedInside hcloseInside rfl
      obtain ⟨rest, hrest, hrestOrdered, hrestSpans⟩ :=
        ih behind.length (by omega) horderedBehind hcloseBehind rfl
      have hwithin : ∀ e ∈ inner, w.table.span.start ≤ e.span.start ∧ e.span.start ≤ w.close.stop :=
        fun e he => within_of_mem_blocks (List.forall_mem_append.1 hlater).1 hinside hcloseInside
          (Edit.mem_of_onSpan_eq (fun s => (hinnerSpans s).symm) he)
      have hbeyond : ∀ e ∈ rest, w.close.stop ≤ e.span.start := fun e he =>
        le_of_mem_blocks hbehind hcloseBehind (Edit.mem_of_onSpan_eq (fun s => (hrestSpans s).symm) he)
      refine ⟨_, .wrap hinner hrest, ?_, onSpan_wrap hinside hinnerSpans hrestSpans⟩
      refine List.pairwise_cons.2 ⟨?_, List.pairwise_append.2
        ⟨hinnerOrdered, List.pairwise_cons.2 ⟨hbeyond, hrestOrdered⟩, ?_⟩⟩
      · refine List.forall_mem_append.2 ⟨fun e he => (hwithin e he).1, ?_⟩
        exact List.forall_mem_cons.2 ⟨hclose.le, fun e he => hclose.le.trans (hbeyond e he)⟩
      · intro e he
        have hle := (hwithin e he).2
        exact List.forall_mem_cons.2 ⟨hle, fun e' he' => hle.trans (hbeyond e' he')⟩

end

/-- **The blocks of wrapped tables nest.** The rule inserts two blocks for each table that has a colour and
an end and is not wrapped yet, and nothing of the source is lost.  Read from left to right the blocks are
nested brackets: each opening block is closed by the block behind the end tag that closes its table.  So
any two wrapped regions are disjoint or nested. -/
theorem wrappers_nest (default_ source : String) :
    (∀ w, w ∈ wrappings (Document.read source) ↔
      ((Document.read source).tokens[w.index]? = some (.startTag w.table) ∧ w.table.name = "table") ∧
        colour? w.table = some w.colour ∧
          (Document.read source).matchingEnd? w.index = some w.close ∧
            isWrapped (Document.read source) w.index = false) ∧
    (rule default_).editsOf source =
      (wrappings (Document.read source)).flatMap (fun w => [w.opening default_, w.closing]) ∧
    Nests default_ (wrappings (Document.read source))
      (((rule default_).editsOf source).mergeSort Edit.comesBefore) ∧
    (∃ parts, parts.flatMap EditPart.old = source.toList ∧
      EditPart.edits 0 parts = ((rule default_).editsOf source).mergeSort Edit.comesBefore ∧
        (∀ text new, EditPart.replaced text new ∈ parts → text = []) ∧
          Edit.applyTo? ((rule default_).editsOf source) source =
            some (String.ofList (parts.flatMap EditPart.new))) ∧
    (wrappings (Document.read source)).Pairwise fun w w' =>
      w.close.stop ≤ w'.table.span.start ∨
        w.table.span.start < w'.table.span.start ∧ w'.close.stop ≤ w.close.stop := by
  have hordered := pairwise_wrappings source
  obtain ⟨es, hnests, hstarts, hspans⟩ := exists_nests default_ hordered
    fun w hw => start_lt_stop_of_mem_wrappings hw
  have hedits := editsOf_eq default_ source
  have hsorted : ((rule default_).editsOf source).mergeSort Edit.comesBefore = es := by
    rw [hedits]
    refine Edit.mergeSort_eq_of_onSpan_eq ?_ hspans
    refine hstarts.imp_of_mem fun {a b} ha hb hle => ?_
    -- Insertions come in the order of their offsets.
    have ha := start_eq_stop_of_mem_blocks (Edit.mem_of_onSpan_eq (fun s => (hspans s).symm) ha)
    have hb := start_eq_stop_of_mem_blocks (Edit.mem_of_onSpan_eq (fun s => (hspans s).symm) hb)
    simp only [Edit.comesBefore, Bool.or_eq_true, Bool.and_eq_true, decide_eq_true_eq, beq_iff_eq]
    omega
  refine ⟨fun w => mem_wrappings_iff, hedits, hsorted ▸ hnests, ?_, ?_⟩
  · obtain ⟨parts, hold, hparts⟩ := (fitTokens default_ source).fit.exists_parts
    have hnew := EditPart.applyTo?_of_edits_eq hparts
    rw [hold, String.ofList_toList] at hnew
    have hinsert : ∀ e ∈ EditPart.edits 0 parts, e.span.start = e.span.stop := by
      intro e he
      rw [hparts] at he
      exact start_eq_stop_of_mem_blocks (hedits ▸ (List.mergeSort_perm _ _).mem_iff.1 he)
    exact ⟨parts, hold, hparts, fun _ _ hmem => EditPart.eq_nil_of_insertions hinsert hmem, hnew⟩
  · exact hordered.imp fun h => h.apart_or_inside.imp_right fun hinside => ⟨h.start_lt, hinside⟩

/-- Two tables side by side in a third one: the first ends where the second begins. -/
example : let table := "<table style=background-color:red>"
    let source := table ++ (table ++ "</table>") ++ (table ++ "</table>") ++ "</table>"
    (wrappings (Document.read source)).map (fun w => (w.table.span.start, w.close.stop)) =
      [(0, 126), (34, 76), (76, 118)] := by
  decide +kernel

end VmlBackground

end MailTemplate
