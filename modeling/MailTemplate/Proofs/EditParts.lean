import MailTemplate.Text.Edit

/-!
# Sources in parts

Edits are given by offsets, but what they do is said without any: a source consists of parts, some of
which are kept and some of which are replaced.  The edits of the replaced parts, in whatever order they
are listed, turn the source into its parts with the new texts in their places.

## Main definitions

* `EditPart` — a part of a source, kept or replaced.
* `EditPart.edits` — the edits for the replaced parts.
* `Edit.onSpan` — the edits of one span.
* `Edit.BeginWithin` — edits begin one behind the other between two offsets.

## Main results

* `EditPart.splice?_edits` — what the edits of some parts do.
* `EditPart.applyTo?_of_edits_eq` — the same of edits that are put in order first.
* `EditPart.applyTo?_of_perm` — the same of the edits in any order, if no two begin at one place.
* `Edit.mergeSort_eq_of_onSpan_eq` — edits are put into an order in which those of one span stay as they
  are listed.
* `EditPart.exists_edits_eq` — edits that stand in order are those of some parts.
* `EditPart.mem_new` — the characters of the new text.
-/

namespace MailTemplate

/-- A part of a source under edits. -/
inductive EditPart where
  /-- A part that stays. -/
  | kept (text : List Char)
  /-- A part that a new text replaces. -/
  | replaced (text : List Char) (new : String)

namespace EditPart

/-- The text of a part before its edit. -/
def old : EditPart → List Char
  | kept text => text
  | replaced text _ => text

/-- The text of a part behind its edit. -/
def new : EditPart → List Char
  | kept text => text
  | replaced _ new => new.toList

/-- The edits of parts of which the first stands at an offset. -/
def edits (offset : Nat) : List EditPart → List Edit
  | [] => []
  | kept text :: parts => edits (offset + Text.byteLength text) parts
  | replaced text new :: parts =>
    Edit.replace ⟨offset, offset + Text.byteLength text⟩ new ::
      edits (offset + Text.byteLength text) parts

theorem edits_bounds {offset : Nat} {parts : List EditPart} :
    ∀ e ∈ edits offset parts, offset ≤ e.span.start ∧ e.span.start ≤ e.span.stop := by
  induction parts generalizing offset with
  | nil => simp [edits]
  | cons part parts ih =>
    cases part with
    | kept text =>
      intro e he
      have := ih e he
      omega
    | replaced text new =>
      intro e he
      rcases List.mem_cons.1 he with rfl | he
      · exact ⟨Nat.le_refl _, Nat.le_add_right _ _⟩
      · have := ih e he
        omega

theorem edits_stop_le {offset : Nat} {parts : List EditPart} :
    ∀ e ∈ edits offset parts, e.span.stop ≤ offset + Text.byteLength (parts.flatMap old) := by
  induction parts generalizing offset with
  | nil => simp [edits]
  | cons part parts ih =>
    have hlength : Text.byteLength ((part :: parts).flatMap old) =
        Text.byteLength part.old + Text.byteLength (parts.flatMap old) := Text.byteLength_append _ _
    intro e he
    cases part with
    | kept text =>
      have := ih e he
      simp only [old] at hlength
      omega
    | replaced text new =>
      simp only [old] at hlength
      rcases List.mem_cons.1 he with rfl | he
      · dsimp only [Edit.replace]
        omega
      · have := ih e he
        omega

theorem pairwise_edits (offset : Nat) (parts : List EditPart) :
    (edits offset parts).Pairwise fun a b => a.span.stop ≤ b.span.start := by
  induction parts generalizing offset with
  | nil => exact .nil
  | cons part parts ih =>
    cases part with
    | kept text => exact ih _
    | replaced text new => exact List.pairwise_cons.2 ⟨fun e he => (edits_bounds e he).1, ih _⟩

/-! ## Splicing -/

theorem splice?_nil (front rest : List Char) :
    Edit.splice? (front ++ rest) (Text.byteLength front) [] = some rest := by
  rw [Edit.splice?, Text.dropBytes?, Text.splitAtByte?_eq_some_iff.2 ⟨rfl, rfl⟩]
  rfl

/-- What the first edit of a list does that is not left out. -/
theorem splice?_cons_eq_some_iff {source out : List Char} {offset : Nat} {e : Edit}
    {es : List Edit} (he : offset ≤ e.span.start) :
    Edit.splice? source offset (e :: es) = some out ↔
      ∃ kept rest, Text.slice? ⟨offset, e.span.start⟩ source = some kept ∧
        Edit.splice? source e.span.stop es = some rest ∧ out = kept ++ e.text.toList ++ rest := by
  rw [Edit.splice?, if_neg (by omega)]
  constructor
  · intro h
    obtain ⟨kept, hkept, h⟩ := Option.bind_eq_some_iff.1 h
    obtain ⟨rest, hrest, h⟩ := Option.bind_eq_some_iff.1 h
    exact ⟨kept, rest, hkept, hrest, (Option.some.inj h).symm⟩
  · rintro ⟨kept, rest, hkept, hrest, rfl⟩
    rw [hkept, hrest]
    rfl

/-- A text that ends before all edits stays in front of what they do. -/
theorem splice?_kept {front text rest out : List Char} {es : List Edit}
    (hes : ∀ e ∈ es, Text.byteLength (front ++ text) ≤ e.span.start)
    (h : Edit.splice? (front ++ text ++ rest) (Text.byteLength (front ++ text)) es = some out) :
    Edit.splice? (front ++ text ++ rest) (Text.byteLength front) es = some (text ++ out) := by
  cases es with
  | nil =>
    rw [splice?_nil] at h
    obtain rfl := Option.some.inj h
    rw [List.append_assoc, splice?_nil]
  | cons e es =>
    have he := hes e List.mem_cons_self
    have hlength := Text.byteLength_append front text
    obtain ⟨kept, after, hkept, hafter, rfl⟩ := (splice?_cons_eq_some_iff he).1 h
    refine (splice?_cons_eq_some_iff (by omega)).2 ⟨text ++ kept, after, ?_, hafter, ?_⟩
    · -- The text that is kept before the first edit begins earlier by the text in front.
      obtain ⟨before, behind, hsource, hstart, hstop⟩ := Text.slice?_eq_some_iff.1 hkept
      obtain ⟨rfl, hrest⟩ := Text.append_inj_of_byteLength hsource hstart
      refine Text.slice?_eq_some_iff.2 ⟨front, behind, ?_, rfl, ?_⟩
      · rw [hrest, List.append_assoc, List.append_assoc]
      · have hstop : e.span.start = _ := hstop
        show e.span.start = _
        rw [Text.byteLength_append]
        omega
    · rw [List.append_assoc, List.append_assoc, List.append_assoc]

/-- **The edits of some parts put the new texts in the places of the old ones.** -/
theorem splice?_edits (front : List Char) (parts : List EditPart) :
    Edit.splice? (front ++ parts.flatMap old) (Text.byteLength front)
      (edits (Text.byteLength front) parts) = some (parts.flatMap new) := by
  -- What stands before the parts grows along the induction, and with it the offset.
  induction parts generalizing front with
  | nil => exact splice?_nil front []
  | cons part parts ih =>
    cases part with
    | kept text =>
      have hrest := ih (front ++ text)
      rw [Text.byteLength_append] at hrest
      rw [List.flatMap_cons, List.flatMap_cons, edits, old, new, ← List.append_assoc]
      refine splice?_kept (fun e he => ?_) (by rwa [Text.byteLength_append])
      rw [Text.byteLength_append]
      exact (edits_bounds e he).1
    | replaced text new =>
      have hrest := ih (front ++ text)
      rw [Text.byteLength_append, List.append_assoc] at hrest
      rw [List.flatMap_cons, List.flatMap_cons, edits]
      refine (splice?_cons_eq_some_iff (Nat.le_refl _)).2 ⟨[], _, ?_, hrest, rfl⟩
      exact Text.slice?_eq_some_iff.2 ⟨front, _, rfl, rfl, rfl⟩

/-- The old text and the edits determine the new one. -/
theorem flatMap_new_eq {parts parts' : List EditPart} (hold : parts.flatMap old = parts'.flatMap old)
    (hedits : edits 0 parts = edits 0 parts') : parts.flatMap new = parts'.flatMap new := by
  have h := splice?_edits [] parts
  have h' := splice?_edits [] parts'
  rw [Text.byteLength_nil] at h h'
  rw [hold, hedits] at h
  exact Option.some.inj (h.symm.trans h')

/-! ## The order of edits -/

theorem le_of_comesBefore {a b : Edit} (h : Edit.comesBefore a b = true) :
    a.span.start ≤ b.span.start := by
  simp only [Edit.comesBefore, Bool.or_eq_true, Bool.and_eq_true, decide_eq_true_eq, beq_iff_eq] at h
  omega

theorem comesBefore_trans (a b c : Edit) (hab : Edit.comesBefore a b = true)
    (hbc : Edit.comesBefore b c = true) : Edit.comesBefore a c = true := by
  simp only [Edit.comesBefore, Bool.or_eq_true, Bool.and_eq_true, decide_eq_true_eq, beq_iff_eq]
    at hab hbc ⊢
  omega

theorem comesBefore_total (a b : Edit) :
    (Edit.comesBefore a b || Edit.comesBefore b a) = true := by
  simp only [Edit.comesBefore, Bool.or_eq_true, Bool.and_eq_true, decide_eq_true_eq, beq_iff_eq]
  omega

theorem pairwise_comesBefore (offset : Nat) (parts : List EditPart) :
    (edits offset parts).Pairwise fun a b => Edit.comesBefore a b = true := by
  refine (pairwise_edits offset parts).imp_of_mem fun {a b} ha hb hab => ?_
  have ha := (edits_bounds a ha).2
  have hb := (edits_bounds b hb).2
  simp only [Edit.comesBefore, Bool.or_eq_true, Bool.and_eq_true, decide_eq_true_eq, beq_iff_eq]
  omega

/-- If no part that is replaced is empty, the edits begin one behind the other. -/
theorem pairwise_start_lt {offset : Nat} {parts : List EditPart}
    (hparts : ∀ text new, replaced text new ∈ parts → text ≠ []) :
    (edits offset parts).Pairwise fun a b => a.span.start < b.span.start := by
  induction parts generalizing offset with
  | nil => exact .nil
  | cons part parts ih =>
    have hrest : ∀ text new, replaced text new ∈ parts → text ≠ [] :=
      fun text new h => hparts text new (List.mem_cons_of_mem _ h)
    cases part with
    | kept text => exact ih hrest
    | replaced text new =>
      have hpos := Text.byteLength_pos (hparts text new List.mem_cons_self)
      refine List.pairwise_cons.2 ⟨fun e he => ?_, ih hrest⟩
      have := (edits_bounds e he).1
      dsimp only [Edit.replace]
      omega

theorem eq_of_start_eq {es : List Edit}
    (hstarts : es.Pairwise fun a b => a.span.start < b.span.start) {a b : Edit} (ha : a ∈ es)
    (hb : b ∈ es) (hstart : a.span.start = b.span.start) : a = b := by
  induction es with
  | nil => exact absurd ha List.not_mem_nil
  | cons e es ih =>
    obtain ⟨hlater, hstarts⟩ := List.pairwise_cons.1 hstarts
    rcases List.mem_cons.1 ha with rfl | hmem <;> rcases List.mem_cons.1 hb with rfl | hmem'
    · rfl
    · exact absurd hstart (Nat.ne_of_lt (hlater b hmem'))
    · exact absurd hstart.symm (Nat.ne_of_lt (hlater a hmem))
    · exact ih hstarts hmem hmem'

/-- Edits that are those of some parts once they are in order turn the old texts into the new ones. -/
theorem applyTo?_of_edits_eq {parts : List EditPart} {es : List Edit}
    (h : edits 0 parts = es.mergeSort Edit.comesBefore) :
    Edit.applyTo? es (String.ofList (parts.flatMap old)) =
      some (String.ofList (parts.flatMap new)) := by
  have hsplice := splice?_edits [] parts
  rw [Text.byteLength_nil, List.nil_append] at hsplice
  rw [Edit.applyTo?, ← h, String.toList_ofList, hsplice]
  rfl

/-- **The edits of some parts in any order** turn the old texts into the new ones, if they begin one
behind the other. -/
theorem applyTo?_of_perm {parts : List EditPart} {es : List Edit}
    (hstarts : (edits 0 parts).Pairwise fun a b => a.span.start < b.span.start)
    (hes : es.Perm (edits 0 parts)) :
    Edit.applyTo? es (String.ofList (parts.flatMap old)) =
      some (String.ofList (parts.flatMap new)) := by
  have hperm : (es.mergeSort Edit.comesBefore).Perm (edits 0 parts) :=
    (List.mergeSort_perm es Edit.comesBefore).trans hes
  have hsorted : es.mergeSort Edit.comesBefore = edits 0 parts := by
    refine hperm.eq_of_pairwise (fun a b ha hb hab hba => ?_)
      (List.pairwise_mergeSort comesBefore_trans comesBefore_total es) (pairwise_comesBefore 0 parts)
    -- Two edits that come before each other begin at one place.
    refine eq_of_start_eq hstarts (hperm.mem_iff.1 ha) hb ?_
    have hle := le_of_comesBefore hab
    have hge := le_of_comesBefore hba
    omega
  exact applyTo?_of_edits_eq hsorted.symm

end EditPart

/-! ## Edits of one span -/

namespace Edit

/-- The edits of a span, in the order in which they are listed. -/
def onSpan (span : Span) (es : List Edit) : List Edit := es.filter fun e => e.span = span

theorem mem_onSpan_iff {span : Span} {es : List Edit} {e : Edit} :
    e ∈ onSpan span es ↔ e ∈ es ∧ e.span = span := by
  simp [onSpan]

theorem onSpan_append (span : Span) (es more : List Edit) :
    onSpan span (es ++ more) = onSpan span es ++ onSpan span more := List.filter_append ..

theorem onSpan_cons_self (e : Edit) (es : List Edit) :
    onSpan e.span (e :: es) = e :: onSpan e.span es := List.filter_cons_of_pos (by simp)

theorem onSpan_onSpan_self (span : Span) (es : List Edit) :
    onSpan span (onSpan span es) = onSpan span es := by simp [onSpan]

theorem onSpan_eq_nil {span : Span} {es : List Edit} (h : ∀ e ∈ es, e.span ≠ span) :
    onSpan span es = [] := List.filter_eq_nil_iff.2 (by simpa using h)

/-- Edits of different spans may change places. -/
theorem onSpan_append_comm {es more : List Edit} (h : ∀ a ∈ es, ∀ b ∈ more, a.span ≠ b.span)
    (span : Span) : onSpan span (es ++ more) = onSpan span (more ++ es) := by
  rw [onSpan_append, onSpan_append]
  by_cases hspan : ∃ a ∈ es, a.span = span
  · obtain ⟨a, ha, rfl⟩ := hspan
    rw [onSpan_eq_nil fun b hb => (h a ha b hb).symm, List.append_nil, List.nil_append]
  · rw [onSpan_eq_nil fun a ha heq => hspan ⟨a, ha, heq⟩, List.append_nil, List.nil_append]

/-- Putting edits in order keeps those of one span as they are listed. -/
theorem onSpan_mergeSort (span : Span) (es : List Edit) :
    onSpan span (es.mergeSort comesBefore) = onSpan span es := by
  have htied : (onSpan span es).Pairwise fun a b => comesBefore a b = true := by
    refine List.pairwise_of_forall_mem_list fun a ha b hb => ?_
    simp [comesBefore, (mem_onSpan_iff.1 ha).2, (mem_onSpan_iff.1 hb).2]
  have hsublist : (onSpan span es).Sublist (es.mergeSort comesBefore) :=
    List.sublist_mergeSort EditPart.comesBefore_trans EditPart.comesBefore_total htied
      List.filter_sublist
  have hlength : (onSpan span (es.mergeSort comesBefore)).length = (onSpan span es).length :=
    ((List.mergeSort_perm es comesBefore).filter _).length_eq
  refine (List.Sublist.eq_of_length ?_ hlength.symm).symm
  rw [← onSpan_onSpan_self]
  exact hsublist.filter _

theorem span_eq_of_comesBefore {a b : Edit} (hab : comesBefore a b = true)
    (hba : comesBefore b a = true) : a.span = b.span := by
  obtain ⟨⟨start, stop⟩, text⟩ := a
  obtain ⟨⟨start', stop'⟩, text'⟩ := b
  simp only [comesBefore, Bool.or_eq_true, Bool.and_eq_true, decide_eq_true_eq, beq_iff_eq] at hab hba
  simp only [Span.mk.injEq]
  omega

theorem mem_of_onSpan_eq {es c : List Edit} (h : ∀ span, onSpan span es = onSpan span c) {e : Edit}
    (he : e ∈ es) : e ∈ c := by
  have he : e ∈ onSpan e.span es := mem_onSpan_iff.2 ⟨he, rfl⟩
  rw [h] at he
  exact (mem_onSpan_iff.1 he).1

/-- **Edits in order are given by those of each span.** -/
theorem eq_of_onSpan_eq {es c : List Edit} (hes : es.Pairwise fun a b => comesBefore a b = true)
    (hc : c.Pairwise fun a b => comesBefore a b = true)
    (h : ∀ span, onSpan span es = onSpan span c) : es = c := by
  induction es generalizing c with
  | nil =>
    refine (List.eq_nil_iff_forall_not_mem.2 fun e he => ?_).symm
    exact List.not_mem_nil (mem_of_onSpan_eq (fun span => (h span).symm) he)
  | cons a es ih =>
    cases c with
    | nil => exact absurd (mem_of_onSpan_eq h List.mem_cons_self) List.not_mem_nil
    | cons b c =>
      obtain ⟨ha, hlater⟩ := List.pairwise_cons.1 hes
      obtain ⟨hb, hothers⟩ := List.pairwise_cons.1 hc
      -- Each of the two first edits is somewhere in the other list, so both have one span.
      have hspan : a.span = b.span := by
        rcases List.mem_cons.1 (mem_of_onSpan_eq h List.mem_cons_self) with heq | hac
        · rw [heq]
        rcases List.mem_cons.1 (mem_of_onSpan_eq (fun span => (h span).symm) List.mem_cons_self)
          with heq | hbes
        · rw [heq]
        exact span_eq_of_comesBefore (ha b hbes) (hb a hac)
      have hfirst := h a.span
      rw [onSpan_cons_self, hspan, onSpan_cons_self] at hfirst
      obtain rfl := (List.cons.inj hfirst).1
      refine congrArg (a :: ·) (ih hlater hothers fun span => ?_)
      have hrest := h span
      by_cases hs : a.span = span
      · rw [← hs, onSpan_cons_self, onSpan_cons_self] at hrest
        rw [← hs]
        exact (List.cons.inj hrest).2
      · simpa [onSpan, hs] using hrest

theorem mergeSort_eq_of_onSpan_eq {es c : List Edit}
    (hc : c.Pairwise fun a b => comesBefore a b = true)
    (h : ∀ span, onSpan span es = onSpan span c) : es.mergeSort comesBefore = c :=
  eq_of_onSpan_eq
    (List.pairwise_mergeSort EditPart.comesBefore_trans EditPart.comesBefore_total es) hc
    fun span => (onSpan_mergeSort span es).trans (h span)

end Edit

/-! ## Where edits begin -/

/-- Edits begin one behind the other, from an offset on and before another one. -/
structure Edit.BeginWithin (start stop : Nat) (es : List Edit) : Prop where
  /-- They begin one behind the other. -/
  ordered : es.Pairwise fun a b => a.span.start < b.span.start
  /-- All begin between the offsets. -/
  within : ∀ e ∈ es, start ≤ e.span.start ∧ e.span.start < stop

namespace Edit.BeginWithin

variable {start middle stop : Nat} {es more : List Edit}

theorem nil (start stop : Nat) : BeginWithin start stop [] := ⟨.nil, by simp⟩

theorem singleton {e : Edit} (hstart : start ≤ e.span.start) (hstop : e.span.start < stop) :
    BeginWithin start stop [e] :=
  ⟨List.pairwise_singleton _ _, by simp [hstart, hstop]⟩

theorem append (h : BeginWithin start middle es) (hmore : BeginWithin middle stop more)
    (hstart : start ≤ middle) (hstop : middle ≤ stop) : BeginWithin start stop (es ++ more) := by
  refine ⟨List.pairwise_append.2 ⟨h.ordered, hmore.ordered, fun a ha b hb => ?_⟩, fun e he => ?_⟩
  · have ha := (h.within a ha).2
    have hb := (hmore.within b hb).1
    omega
  · rcases List.mem_append.1 he with he | he
    · have := h.within e he
      omega
    · have := hmore.within e he
      omega

end Edit.BeginWithin

namespace EditPart

/-! ## Parts of given edits -/

/-- What an edit replaces can be cut out of the source. -/
theorem exists_slice?_of_mem_edits (front : List Char) {parts : List EditPart} {e : Edit}
    (he : e ∈ edits (Text.byteLength front) parts) :
    ∃ text, Text.slice? e.span (front ++ parts.flatMap old) = some text := by
  induction parts generalizing front with
  | nil => exact absurd he List.not_mem_nil
  | cons part parts ih =>
    have hrest := @ih (front ++ part.old)
    rw [Text.byteLength_append, List.append_assoc] at hrest
    cases part with
    | kept text => exact hrest he
    | replaced text new =>
      rcases List.mem_cons.1 he with rfl | he
      · exact ⟨text, Text.slice?_eq_some_iff.2 ⟨front, _, rfl, rfl, rfl⟩⟩
      · exact hrest he

theorem edits_append (offset : Nat) (first more : List EditPart) :
    edits offset (first ++ more) =
      edits offset first ++ edits (offset + Text.byteLength (first.flatMap old)) more := by
  induction first generalizing offset with
  | nil => simp [edits]
  | cons part first ih =>
    cases part <;> simp [edits, ih, old, Text.byteLength_append, Nat.add_assoc]

/-- Parts that stand further on have their edits further on. -/
theorem edits_add (offset by_ : Nat) (parts : List EditPart) :
    edits (offset + by_) parts =
      (edits offset parts).map fun e => Edit.replace (e.span.shift by_) e.text := by
  induction parts generalizing offset with
  | nil => rfl
  | cons part parts ih =>
    cases part with
    | kept text => rw [edits, edits, ← ih, Nat.add_right_comm]
    | replaced text new =>
      have hrest := ih (offset + Text.byteLength text)
      rw [edits, edits, List.map_cons, ← hrest, Nat.add_right_comm]
      simp only [Edit.replace, Span.shift, Nat.add_right_comm]

/-- A text that is at least as long in bytes as another beginning of the same text goes on from it. -/
theorem exists_append_of_byteLength_le {front before rest rest' : List Char}
    (h : front ++ rest = before ++ rest') (hle : Text.byteLength front ≤ Text.byteLength before) :
    ∃ gap, before = front ++ gap ∧ rest = gap ++ rest' := by
  rcases List.append_eq_append_iff.1 h with ⟨gap, rfl, rfl⟩ | ⟨gap, rfl, rfl⟩
  · exact ⟨gap, rfl, rfl⟩
  · rw [Text.byteLength_append] at hle
    have hgap : gap = [] := by
      cases gap with
      | nil => rfl
      | cons c gap =>
        have := Text.byteLength_pos (List.cons_ne_nil c gap)
        omega
    exact ⟨[], by simp [hgap], by simp [hgap]⟩

/-- **Edits that stand in order are those of some parts**, if each can be cut out of the source. -/
theorem exists_edits_eq (front text : List Char) {es : List Edit}
    (hordered : es.Pairwise fun a b => a.span.stop ≤ b.span.start)
    (hslices : ∀ e ∈ es, ∃ inside, Text.slice? e.span (front ++ text) = some inside)
    (hfront : ∀ e ∈ es, Text.byteLength front ≤ e.span.start) :
    ∃ parts, parts.flatMap old = text ∧ edits (Text.byteLength front) parts = es := by
  -- Behind the first edit the rest is cut in the same way, with all that was passed over in front.
  induction es generalizing front text with
  | nil => exact ⟨[kept text], by simp [old], rfl⟩
  | cons e es ih =>
    obtain ⟨horderedE, hordered⟩ := List.pairwise_cons.1 hordered
    obtain ⟨inside, hinside⟩ := hslices e List.mem_cons_self
    obtain ⟨before, after, hsource, hstart, hstop⟩ := Text.slice?_eq_some_iff.1 hinside
    have hle := hfront e List.mem_cons_self
    rw [hstart] at hle
    obtain ⟨gap, rfl, rfl⟩ := exists_append_of_byteLength_le hsource hle
    have hbehind : front ++ (gap ++ (inside ++ after)) = front ++ gap ++ inside ++ after := by
      simp only [List.append_assoc]
    have hlength : Text.byteLength (front ++ gap ++ inside) = e.span.stop := by
      rw [Text.byteLength_append, hstop]
    obtain ⟨parts, hold, hedits⟩ := ih (front ++ gap ++ inside) after hordered
      (fun e' he' => hbehind ▸ hslices e' (List.mem_cons_of_mem e he'))
      (fun e' he' => hlength ▸ horderedE e' he')
    refine ⟨kept gap :: replaced inside e.text :: parts, by simp [old, hold], ?_⟩
    have hgap : Text.byteLength front + Text.byteLength gap = e.span.start := by
      rw [hstart, Text.byteLength_append]
    have hspan : e.span.start + Text.byteLength inside = e.span.stop := by rw [hstop, hstart]
    rw [edits, edits, hgap, hspan, ← hlength, hedits, hlength]
    rfl

/-- Insertions replace nothing. -/
theorem eq_nil_of_insertions {offset : Nat} {parts : List EditPart}
    (h : ∀ e ∈ edits offset parts, e.span.start = e.span.stop) {text : List Char} {new : String}
    (hmem : replaced text new ∈ parts) : text = [] := by
  induction parts generalizing offset with
  | nil => exact absurd hmem List.not_mem_nil
  | cons part parts ih =>
    cases part with
    | kept other =>
      exact ih h ((List.mem_cons.1 hmem).resolve_left (by simp))
    | replaced other new' =>
      obtain ⟨hfirst, hrest⟩ := List.forall_mem_cons.1 h
      rcases List.mem_cons.1 hmem with heq | hmem
      · obtain ⟨rfl, rfl⟩ := replaced.inj heq
        cases text with
        | nil => rfl
        | cons c text =>
          have hpos := Text.byteLength_pos (List.cons_ne_nil c text)
          dsimp only [Edit.replace] at hfirst
          omega
      · exact ih hrest hmem

/-! ## The new text -/

/-- A character of the new text was there before or came with an edit. -/
theorem mem_new {offset : Nat} {parts : List EditPart} {c : Char} (h : c ∈ parts.flatMap new) :
    c ∈ parts.flatMap old ∨ ∃ e ∈ edits offset parts, c ∈ e.text.toList := by
  induction parts generalizing offset with
  | nil => exact absurd h (by simp)
  | cons part parts ih =>
    rw [List.flatMap_cons] at h ⊢
    rcases List.mem_append.1 h with hpart | hrest
    · cases part with
      | kept text => exact .inl (List.mem_append.2 (.inl hpart))
      | replaced text new => exact .inr ⟨_, List.mem_cons_self, hpart⟩
    · cases part with
      | kept text =>
        rcases ih hrest with hold | hedit
        · exact .inl (List.mem_append.2 (.inr hold))
        · exact .inr hedit
      | replaced text new =>
        rcases ih hrest with hold | ⟨e, he, hc⟩
        · exact .inl (List.mem_append.2 (.inr hold))
        · exact .inr ⟨e, List.mem_cons_of_mem _ he, hc⟩

/-- Without edits the text stays. -/
theorem flatMap_new_of_edits_eq_nil {offset : Nat} {parts : List EditPart}
    (h : edits offset parts = []) : parts.flatMap new = parts.flatMap old := by
  induction parts generalizing offset with
  | nil => rfl
  | cons part parts ih =>
    cases part with
    | kept text => exact congrArg (text ++ ·) (ih h)
    | replaced text new => exact absurd h (List.cons_ne_nil _ _)

/-- The first character stays if no edit begins before it. -/
theorem head?_new {offset : Nat} {parts : List EditPart} (h : ∀ e ∈ edits offset parts,
    offset < e.span.start) : (parts.flatMap new).head? = (parts.flatMap old).head? := by
  induction parts with
  | nil => rfl
  | cons part parts ih =>
    cases part with
    | replaced text new => exact absurd (h _ List.mem_cons_self) (Nat.lt_irrefl _)
    | kept text =>
      cases text with
      | nil => exact ih h
      | cons c cs => rfl

end EditPart

end MailTemplate
