import MailTemplate.Proofs.EditPlaces
import Mathlib.Data.List.Nodup

/-!
# Which edits are applied

Edits may overlap.  They are taken in order, by where they start, then by where they end, then as they were
listed, and each is kept that does not begin before the end of the last one kept.  The source then consists
of parts of which some are replaced, and the edits of these parts are exactly the kept ones: so every kept
text is written once, and every character outside of the kept spans stays where it was.

That nothing is left out is a matter of overlaps alone, and that the order of listing does not matter is one
of insertions at one place.

## Main definitions

* `Edit.keptFrom` — the edits that are kept.
* `Edit.Splices` — the parts of a source under the edits that are kept.

## Main results

* `Edit.splice?_keptFrom` — the edits that are not kept may as well not be there.
* `Edit.pairwise_keptFrom` — each kept edit begins behind the end of the one before it.
* `Edit.onSpan_keptFrom` — the insertions at one place are all kept, or none is.
* `Edit.FitTogether.keptFrom_eq` — edits that do not overlap are all kept.
* `Edit.FitTogether.applyTo?_perm` — without two insertions at one place they may be listed in any order.
* `Edit.applyTo?_splices` — applying edits gives the parts with the kept texts in their places.
-/

namespace MailTemplate

namespace Edit

/-- The edits that are kept of edits in the order of application: each that does not begin before the end of
the last one kept, which is `offset` at first. -/
def keptFrom (offset : Nat) : List Edit → List Edit
  | [] => []
  | e :: es => if e.span.start < offset then keptFrom offset es else e :: keptFrom e.span.stop es

/-- The parts of a source under the edits that are kept. -/
structure Splices (source : List Char) (es order : List Edit) (parts : List EditPart) : Prop where
  /-- Edits are taken by where they start, then by where they end. -/
  ordered : order.Pairwise fun a b => comesBefore a b = true
  /-- Those of one span are taken as they were listed. -/
  listed : ∀ span, onSpan span order = onSpan span es
  /-- The parts make up the source. -/
  old : parts.flatMap EditPart.old = source
  /-- The parts that are replaced are those of the edits that are kept. -/
  kept : EditPart.edits 0 parts = keptFrom 0 order

variable {source : List Char} {offset : Nat} {es order : List Edit}

/-! ## The edits that are kept -/

theorem keptFrom_cons_of_lt {e : Edit} (h : e.span.start < offset) :
    keptFrom offset (e :: es) = keptFrom offset es := if_pos h

theorem keptFrom_cons_of_le {e : Edit} (h : offset ≤ e.span.start) :
    keptFrom offset (e :: es) = e :: keptFrom e.span.stop es := if_neg (Nat.not_lt.2 h)

theorem keptFrom_sublist (offset : Nat) (es : List Edit) : (keptFrom offset es).Sublist es := by
  induction es generalizing offset with
  | nil => exact .refl _
  | cons e es ih =>
    rcases Nat.lt_or_ge e.span.start offset with hlt | hle
    · rw [keptFrom_cons_of_lt hlt]
      exact (ih offset).cons e
    · rw [keptFrom_cons_of_le hle]
      exact (ih e.span.stop).cons_cons e

/-- **Edits that are not kept may as well not be there.** -/
theorem splice?_keptFrom (source : List Char) (offset : Nat) (es : List Edit) :
    splice? source offset (keptFrom offset es) = splice? source offset es := by
  induction es generalizing offset with
  | nil => rfl
  | cons e es ih =>
    rcases Nat.lt_or_ge e.span.start offset with hlt | hle
    · rw [keptFrom_cons_of_lt hlt, ih, splice?, if_pos hlt]
    · rw [keptFrom_cons_of_le hle, splice?, splice?, if_neg (Nat.not_lt.2 hle), if_neg (Nat.not_lt.2 hle), ih]

/-- No kept edit begins before the offset. -/
theorem le_of_mem_keptFrom (hes : ∀ e ∈ es, e.span.start ≤ e.span.stop) :
    ∀ e ∈ keptFrom offset es, offset ≤ e.span.start := by
  induction es generalizing offset with
  | nil => simp [keptFrom]
  | cons e es ih =>
    obtain ⟨he, hes⟩ := List.forall_mem_cons.1 hes
    rcases Nat.lt_or_ge e.span.start offset with hlt | hle
    · rw [keptFrom_cons_of_lt hlt]
      exact ih hes
    · rw [keptFrom_cons_of_le hle]
      exact List.forall_mem_cons.2 ⟨hle, fun e' he' => hle.trans (he.trans (ih hes e' he'))⟩

/-- **Each kept edit begins behind the end of the one before it.** -/
theorem pairwise_keptFrom (hes : ∀ e ∈ es, e.span.start ≤ e.span.stop) :
    (keptFrom offset es).Pairwise fun a b => a.span.stop ≤ b.span.start := by
  induction es generalizing offset with
  | nil => exact .nil
  | cons e es ih =>
    obtain ⟨-, hes⟩ := List.forall_mem_cons.1 hes
    rcases Nat.lt_or_ge e.span.start offset with hlt | hle
    · rw [keptFrom_cons_of_lt hlt]
      exact ih hes
    · rw [keptFrom_cons_of_le hle]
      exact List.pairwise_cons.2 ⟨le_of_mem_keptFrom hes, ih hes⟩

theorem keptFrom_of_pairwise (hordered : es.Pairwise fun a b => a.span.stop ≤ b.span.start)
    (hoffset : ∀ e ∈ es, offset ≤ e.span.start) : keptFrom offset es = es := by
  induction es generalizing offset with
  | nil => rfl
  | cons e es ih =>
    obtain ⟨hlater, hordered⟩ := List.pairwise_cons.1 hordered
    rw [keptFrom_cons_of_le (hoffset e List.mem_cons_self), ih hordered hlater]

/-! ## Insertions at one place -/

theorem onSpan_cons_of_eq {span : Span} {e : Edit} (h : e.span = span) (es : List Edit) :
    onSpan span (e :: es) = e :: onSpan span es := h ▸ onSpan_cons_self e es

theorem onSpan_cons_of_ne {span : Span} {e : Edit} (h : e.span ≠ span) (es : List Edit) :
    onSpan span (e :: es) = onSpan span es := List.filter_cons_of_neg (by simpa using h)

/-- In order, insertions at a place come before all else that begins there or later. -/
theorem onSpan_keptFrom_of_le {place : Nat} (hes : ∀ e ∈ es, e.span.start ≤ e.span.stop)
    (hordered : es.Pairwise fun a b => comesBefore a b = true)
    (hplace : ∀ e ∈ es, place ≤ e.span.start) (hoffset : offset ≤ place) :
    onSpan ⟨place, place⟩ (keptFrom offset es) = onSpan ⟨place, place⟩ es := by
  induction es generalizing offset with
  | nil => rfl
  | cons e es ih =>
    obtain ⟨hlater, hordered⟩ := List.pairwise_cons.1 hordered
    obtain ⟨he, hplace⟩ := List.forall_mem_cons.1 hplace
    obtain ⟨hle, hes⟩ := List.forall_mem_cons.1 hes
    rw [keptFrom_cons_of_le (hoffset.trans he)]
    by_cases hspan : e.span = ⟨place, place⟩
    · have hstop : e.span.stop ≤ place := by rw [hspan]
      rw [onSpan_cons_of_eq hspan, onSpan_cons_of_eq hspan, ih hes hordered hplace hstop]
    · -- Another edit is in front, so no insertion at the place follows.
      have hnone : ∀ e' ∈ es, e'.span ≠ ⟨place, place⟩ := by
        intro e' he' heq
        have hbefore := hlater e' he'
        refine hspan ?_
        obtain ⟨⟨start, stop⟩, text⟩ := e
        simp only [comesBefore, heq, Bool.or_eq_true, Bool.and_eq_true, decide_eq_true_eq,
          beq_iff_eq] at hbefore he hle
        simp only [Span.mk.injEq]
        omega
      have hboth : ∀ e' ∈ e :: es, e'.span ≠ ⟨place, place⟩ := List.forall_mem_cons.2 ⟨hspan, hnone⟩
      rw [onSpan_eq_nil hboth, onSpan_eq_nil fun e' he' => hboth e' ?_]
      exact ((keptFrom_sublist e.span.stop es).cons_cons e).subset he'

/-- **The insertions at one place are all kept, or none is.** -/
theorem onSpan_keptFrom (hes : ∀ e ∈ es, e.span.start ≤ e.span.stop)
    (hordered : es.Pairwise fun a b => comesBefore a b = true) (offset place : Nat) :
    onSpan ⟨place, place⟩ (keptFrom offset es) = onSpan ⟨place, place⟩ es ∨
      onSpan ⟨place, place⟩ (keptFrom offset es) = [] := by
  -- The first insertion at the place decides: if it is left out, so are those behind it.
  induction es generalizing offset with
  | nil => exact .inl rfl
  | cons e es ih =>
    obtain ⟨hlater, hrest⟩ := List.pairwise_cons.1 hordered
    have hes' := (List.forall_mem_cons.1 hes).2
    rcases Nat.lt_or_ge e.span.start offset with hlt | hle
    · rw [keptFrom_cons_of_lt hlt]
      by_cases hspan : e.span = ⟨place, place⟩
      · -- The place lies before the end of what has been kept.
        refine .inr (onSpan_eq_nil fun e' he' heq => ?_)
        have hle := le_of_mem_keptFrom hes' e' he'
        rw [heq] at hle
        rw [hspan] at hlt
        exact absurd hlt (Nat.not_lt.2 hle)
      · refine (ih hes' hrest offset).imp_left fun h => ?_
        rw [h, onSpan_cons_of_ne hspan]
    · rw [keptFrom_cons_of_le hle]
      by_cases hspan : e.span = ⟨place, place⟩
      · -- It is kept and ends where it begins, so those behind it are kept as well.
        left
        have hstop : e.span.stop ≤ place := by rw [hspan]
        have hplace : ∀ e' ∈ es, place ≤ e'.span.start := by
          intro e' he'
          have hbefore := EditPart.le_of_comesBefore (hlater e' he')
          rwa [hspan] at hbefore
        rw [onSpan_cons_of_eq hspan, onSpan_cons_of_eq hspan,
          onSpan_keptFrom_of_le hes' hrest hplace hstop]
      · rw [onSpan_cons_of_ne hspan, onSpan_cons_of_ne hspan]
        exact ih hes' hrest e.span.stop

/-! ## Edits that do not overlap -/

/-- **Edits that do not overlap are all kept.** -/
theorem FitTogether.keptFrom_eq (h : FitTogether source es) :
    keptFrom 0 (es.mergeSort comesBefore) = es.mergeSort comesBefore :=
  keptFrom_of_pairwise h.sorted fun _ _ => Nat.zero_le _

/-- Edits that do not overlap have different spans if no two insertions are at one place. -/
theorem FitTogether.eq_of_span_eq (h : FitTogether source es)
    (hinsertions : es.Pairwise fun a b => a.span.start = a.span.stop → a.span ≠ b.span) {a b : Edit}
    (ha : a ∈ es) (hb : b ∈ es) (hspan : a.span = b.span) : a = b := by
  have hspans : (es.map span).Nodup := by
    rw [List.nodup_iff_pairwise_ne, List.pairwise_map]
    refine (h.apart.and hinsertions).imp_of_mem fun {a b} ha _ ⟨hapart, hinsert⟩ heq => ?_
    obtain ⟨_, htext⟩ := h.inside a ha
    have hle := Text.le_of_slice? htext
    rw [← heq] at hapart
    exact hinsert (by rcases hapart with hapart | hapart <;> omega) heq
  exact List.inj_on_of_nodup_map hspans ha hb hspan

/-- **Edits that do not overlap may be listed in any order,** if no two insertions are at one place. -/
theorem FitTogether.applyTo?_perm (h : FitTogether source es)
    (hinsertions : es.Pairwise fun a b => a.span.start = a.span.stop → a.span ≠ b.span)
    {es' : List Edit} (hperm : es'.Perm es) (text : String) : applyTo? es' text = applyTo? es text := by
  have hsorted : es'.mergeSort comesBefore = es.mergeSort comesBefore := by
    have hboth : (es'.mergeSort comesBefore).Perm (es.mergeSort comesBefore) :=
      ((List.mergeSort_perm es' _).trans hperm).trans (List.mergeSort_perm es _).symm
    refine hboth.eq_of_pairwise (fun a b ha hb hab hba => ?_)
      (List.pairwise_mergeSort EditPart.comesBefore_trans EditPart.comesBefore_total es')
      (List.pairwise_mergeSort EditPart.comesBefore_trans EditPart.comesBefore_total es)
    refine h.eq_of_span_eq hinsertions ?_ ?_ (span_eq_of_comesBefore hab hba)
    · exact (List.mergeSort_perm es _).mem_iff.1 (hboth.mem_iff.1 ha)
    · exact (List.mergeSort_perm es _).mem_iff.1 hb
  rw [applyTo?, applyTo?, hsorted]

/-! ## Applying edits -/

/-- **Edits are applied as their order and their overlaps say.**  The source consists of parts, the edits of
the replaced ones are exactly the edits that are kept, and applying the edits puts their texts in the places of
these parts.  Insertions at one place are kept together, in the order in which they are listed.  Edits
that do not overlap are all kept, and may be listed in any order if no two insertions are at one place. -/
theorem applyTo?_splices (source : String) (es : List Edit)
    (hinside : ∀ e ∈ es, ∃ text, Text.slice? e.span source.toList = some text) :
    ∃ order parts, order.Perm es ∧ Splices source.toList es order parts ∧
      applyTo? es source = some (String.ofList (parts.flatMap EditPart.new)) ∧
      (∀ place, onSpan ⟨place, place⟩ (keptFrom 0 order) = onSpan ⟨place, place⟩ es ∨
        onSpan ⟨place, place⟩ (keptFrom 0 order) = []) ∧
      ((es.Pairwise fun a b => a.span.Apart b.span) → keptFrom 0 order = order ∧
        ((es.Pairwise fun a b => a.span.start = a.span.stop → a.span ≠ b.span) →
          ∀ es', es'.Perm es → applyTo? es' source = applyTo? es source)) := by
  have hperm := List.mergeSort_perm es comesBefore
  have hordered := List.pairwise_mergeSort EditPart.comesBefore_trans EditPart.comesBefore_total es
  have hinside' : ∀ e ∈ es.mergeSort comesBefore, ∃ text,
      Text.slice? e.span ([] ++ source.toList) = some text := fun e he => hinside e (hperm.mem_iff.1 he)
  have hspans : ∀ e ∈ es.mergeSort comesBefore, e.span.start ≤ e.span.stop := fun e he => by
    obtain ⟨_, htext⟩ := hinside' e he
    exact Text.le_of_slice? htext
  -- The kept edits stand in order, so they are those of some parts.
  obtain ⟨parts, hold, hkept⟩ := EditPart.exists_edits_eq [] source.toList
    (pairwise_keptFrom hspans) (fun e he => hinside' e ((keptFrom_sublist 0 _).subset he))
    fun _ _ => Nat.zero_le _
  rw [Text.byteLength_nil] at hkept
  have happlied : splice? source.toList 0 (es.mergeSort comesBefore) =
      some (parts.flatMap EditPart.new) := by
    have hparts := EditPart.splice?_edits [] parts
    rw [Text.byteLength_nil, List.nil_append, hold, hkept] at hparts
    rw [← splice?_keptFrom, hparts]
  refine ⟨_, parts, hperm, ⟨hordered, fun span => onSpan_mergeSort span es, hold, hkept⟩, ?_, ?_, ?_⟩
  · rw [applyTo?, happlied]
    rfl
  · intro place
    rw [← onSpan_mergeSort ⟨place, place⟩ es]
    exact onSpan_keptFrom hspans hordered 0 place
  · intro hapart
    have hfit : FitTogether source.toList es := ⟨hinside, hapart⟩
    exact ⟨hfit.keptFrom_eq, fun hinsertions es' hes' => hfit.applyTo?_perm hinsertions hes' source⟩

/-- Of five edits the one at four overlaps the one before it and is left out; the two insertions at five are
kept. -/
theorem applyTo?_splices_of_greeting :
    let source := "hello world"
    let es := [insert 5 "!", replace ⟨4, 7⟩ "x", replace ⟨0, 1⟩ "J", insert 5 "?", replace ⟨3, 5⟩ "p"]
    (∀ e ∈ es, ∃ text, Text.slice? e.span source.toList = some text) ∧
      ∃ order parts, order.Perm es ∧ Splices source.toList es order parts ∧
        keptFrom 0 order = [replace ⟨0, 1⟩ "J", replace ⟨3, 5⟩ "p", insert 5 "!", insert 5 "?"] ∧
          applyTo? es source = some (String.ofList (parts.flatMap EditPart.new)) ∧
            String.ofList (parts.flatMap EditPart.new) = "Jelp!? world" := by
  intro source es
  have hsome : ∀ e ∈ es, (Text.slice? e.span source.toList).isSome = true := by decide +kernel
  have hinside : ∀ e ∈ es, ∃ text, Text.slice? e.span source.toList = some text := fun e he =>
    Option.isSome_iff_exists.1 (hsome e he)
  obtain ⟨order, parts, hperm, hsplices, happlied, -⟩ := applyTo?_splices source es hinside
  have horder : es.mergeSort comesBefore = order :=
    mergeSort_eq_of_onSpan_eq hsplices.ordered fun span => (hsplices.listed span).symm
  have hsorted : es.mergeSort comesBefore = [replace ⟨0, 1⟩ "J", replace ⟨3, 5⟩ "p", replace ⟨4, 7⟩ "x",
      insert 5 "!", insert 5 "?"] := by
    simp [es, List.mergeSort, List.MergeSort.Internal.splitInTwo, comesBefore, insert, replace]
  have hresult : applyTo? es source = some "Jelp!? world" := by
    rw [applyTo?, hsorted]
    decide +kernel
  refine ⟨hinside, order, parts, hperm, hsplices, ?_, happlied, Option.some.inj (happlied.symm.trans hresult)⟩
  rw [← horder, hsorted]
  decide

end Edit

end MailTemplate
