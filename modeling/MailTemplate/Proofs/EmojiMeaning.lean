import Mathlib.Data.List.Find
import MailTemplate.Proofs.ReferencedTokens

/-!
# What references stand for

References are read in texts, in values and in titles, but not in style sheets and scripts.  So a source
is cut into stretches: the bodies of its style sheets and scripts, and what stands outside of them.  The
rule for emoji writes references into all of them alike.  Outside of the bodies they are read as what they
stand for, and nothing changes for the reader.  A body is changed by them.

## Main definitions

* `EmojiEntities.decode` — a text with its references read.
* `Token.codeBody?` — the bodies of style sheets and scripts.
* `Stretch`, `stretches` — the parts of a source in which references are read, or not.

## Main results

* `EmojiEntities.decode_spell` — references are read as the emoji that they were written for.
* `flatMap_text_stretches` — the stretches make up the source.
* `EmojiEntities.stretches_applyTo` — the rule writes references into every stretch.
* `EmojiEntities.emoji_keep_meaning` — emoji keep their meaning outside of style sheets and scripts, and
  bodies without emoji are kept.
* `EmojiEntities.emoji_changes_style_sheet` — a style sheet with an emoji is not.
-/

namespace MailTemplate

namespace EmojiEntities

/-! ## Reading references -/

/-- The emoji whose reference a text begins with. -/
def entryAhead? (cs : List Char) : Option (Char × String) :=
  table.find? fun entry => Text.beginsWithBy (· == ·) entry.2.toList cs

/-- A text with its references read. -/
def decode (cs : List Char) : List Char :=
  match cs with
  | [] => []
  | c :: rest =>
    match entryAhead? (c :: rest) with
    | some entry => entry.1 :: decode (rest.drop (entry.2.toList.length - 1))
    | none => c :: decode rest
termination_by cs.length
decreasing_by all_goals simp only [List.length_drop, List.length_cons]; omega

variable {entry : Char × String} {c : Char} {cs rest : List Char}

/-- The references are told apart by as many characters as each has. -/
theorem entryAhead?_reference (h : entry ∈ table) (rest : List Char) :
    entryAhead? (entry.2.toList ++ rest) = some entry := by
  have hlength : ∀ a ∈ table, ∀ b ∈ table, a.2.toList.length ≤ b.2.toList.length := by decide
  have halone : ∀ entry ∈ table, entryAhead? entry.2.toList = some entry := by decide
  rw [← halone entry h]
  exact List.find?_congr fun a ha => Text.beginsWithBy_append_of_le _ (hlength a ha entry h) rest

theorem eq_append_of_entryAhead? (h : entryAhead? cs = some entry) :
    entry ∈ table ∧ ∃ rest, cs = entry.2.toList ++ rest := by
  have hbegins := List.find?_some h
  obtain ⟨rest, hrest⟩ := Text.beginsWithBy_beq_iff.1 hbegins
  exact ⟨List.mem_of_find?_eq_some h, rest, hrest.symm⟩

theorem decode_reference_append (h : entry ∈ table) (rest : List Char) :
    decode (entry.2.toList ++ rest) = entry.1 :: decode rest := by
  have hahead := entryAhead?_reference h rest
  obtain ⟨tail, htail⟩ := exists_reference h
  rw [htail, List.cons_append] at hahead ⊢
  rw [decode, hahead]
  simp only [htail, List.length_cons, Nat.add_sub_cancel, List.drop_left]

theorem decode_cons_of_none (h : entryAhead? (c :: rest) = none) :
    decode (c :: rest) = c :: decode rest := by
  rw [decode, h]

/-- References are left alone. -/
theorem spell_reference (h : entry ∈ table) : spell entry.2.toList = entry.2.toList := by
  have hall : ∀ entry ∈ table, ∀ other ∈ table, other.1 ∉ entry.2.toList := by decide
  exact spell_eq_self_iff.2 (hall entry h)

/-- Whether a reference begins somewhere does not depend on those that are written behind it. -/
theorem entryAhead?_spell (hkept : written c = [c]) (cs : List Char) :
    entryAhead? (spell (c :: cs)) = entryAhead? (c :: cs) := by
  have htails : ∀ entry ∈ table, isApart (· == ·) entry.2.toList.tail = true := by decide
  refine List.find?_congr fun entry hentry => ?_
  have happart := htails entry hentry
  obtain ⟨tail, htail⟩ := exists_reference hentry
  rw [htail, List.tail_cons] at happart
  rw [htail, spell_cons, hkept, List.singleton_append, Text.beginsWithBy, Text.beginsWithBy,
    beginsWithBy_spell happart]

/-- **References are read as the emoji that they were written for,** and others as before. -/
theorem decode_spell (cs : List Char) : decode (spell cs) = decode cs := by
  fun_induction decode cs with
  | case1 => rw [show spell [] = [] from rfl, decode]
  | case2 c rest entry hahead ih =>
    -- The reference stood there before, and it is left alone.
    obtain ⟨hentry, behind, hcs⟩ := eq_append_of_entryAhead? hahead
    have hbehind : rest.drop (entry.2.toList.length - 1) = behind := by
      obtain ⟨tail, htail⟩ := exists_reference hentry
      rw [htail, List.cons_append] at hcs
      rw [(List.cons.inj hcs).2, htail, List.length_cons, Nat.add_sub_cancel, List.drop_left]
    rw [hbehind] at ih ⊢
    rw [hcs, spell_append, spell_reference hentry, decode_reference_append hentry, ih]
  | case3 c rest hnone ih =>
    rcases written_cases c with ⟨hkept, -⟩ | ⟨entry, hentry, rfl, href⟩
    · rw [← entryAhead?_spell hkept, spell_cons, hkept, List.singleton_append] at hnone
      rw [spell_cons, hkept, List.singleton_append, decode_cons_of_none hnone, ih]
    · rw [spell_cons, href, decode_reference_append hentry, ih]

/-- A text without references is read as it is. -/
theorem decode_eq_self {cs : List Char} (h : ∀ entry ∈ table, ¬ entry.2.toList <:+: cs) :
    decode cs = cs := by
  induction cs with
  | nil => rw [decode]
  | cons c cs ih =>
    have hnone : entryAhead? (c :: cs) = none := by
      refine List.find?_eq_none.2 fun entry hentry hbegins => ?_
      exact h entry hentry (Text.beginsWithBy_beq_iff.1 hbegins).isInfix
    have hcs : ∀ entry ∈ table, ¬ entry.2.toList <:+: cs := fun entry hentry hinside =>
      h entry hentry (hinside.trans (List.suffix_cons c cs).isInfix)
    rw [decode_cons_of_none hnone, ih hcs]

end EmojiEntities

/-! ## Stretches of a source -/

/-- A body in which references are not read, with its element. -/
def Token.codeBody? : Token → Option (String × Span)
  | rawText element span => if element = "style" ∨ element = "script" then some (element, span) else none
  | _ => none

theorem Token.span_of_codeBody? {token : Token} {element : String} {span : Span}
    (h : token.codeBody? = some (element, span)) : token.span = span := by
  cases token with
  | rawText e s =>
    by_cases hcode : e = "style" ∨ e = "script"
    · rw [codeBody?, if_pos hcode] at h
      exact (Prod.mk.inj (Option.some.inj h)).2
    · rw [codeBody?, if_neg hcode] at h
      exact absurd h (by simp)
  | startTag | endTag | comment | declaration => exact absurd h (by simp [codeBody?])

/-- A part of a source. -/
structure Stretch where
  /-- The element whose body it is, if it is the body of a style sheet or of a script. -/
  element? : Option String
  /-- What stands there. -/
  text : List Char
  deriving DecidableEq, Repr

/-- The parts of a source from an offset on, some bodies being ahead. -/
def stretchesFrom (source : List Char) (offset : Nat) : List (String × Span) → List Stretch
  | [] => [⟨none, Text.slice ⟨offset, Text.byteLength source⟩ source⟩]
  | (element, span) :: bodies =>
    ⟨none, Text.slice ⟨offset, span.start⟩ source⟩ :: ⟨some element, Text.slice span source⟩ ::
      stretchesFrom source span.stop bodies

/-- The parts of a source. -/
def stretches (source : String) : List Stretch :=
  stretchesFrom source.toList 0 ((Token.tokenize source).filterMap Token.codeBody?)

/-- What stands between two offsets of a source. -/
theorem Text.slice_of_append (before text behind : List Char) :
    slice ⟨byteLength before, byteLength (before ++ text)⟩ (before ++ (text ++ behind)) = text := by
  have hslice : slice? ⟨byteLength before, byteLength (before ++ text)⟩ (before ++ (text ++ behind)) =
      some text :=
    slice?_eq_some_iff.2 ⟨before, behind, rfl, rfl, byteLength_append before text⟩
  rw [slice, hslice, Option.getD_some]

/-- Nothing stands between an offset and one before it. -/
theorem Text.slice_of_lt {n m : Nat} (h : m < n) (cs : List Char) : slice ⟨n, m⟩ cs = [] := by
  rw [slice, slice?, if_pos h]
  rfl

theorem flatMap_text_stretchesFrom {source behind : List Char} (before : List Char) {tokens : List Token}
    (hsource : source = before ++ behind)
    (h : Token.PlacedFrom source (Text.byteLength before) tokens) :
    (stretchesFrom source (Text.byteLength before)
      (tokens.filterMap Token.codeBody?)).flatMap Stretch.text = behind := by
  induction tokens generalizing before behind with
  | nil =>
    have hslice := Text.slice_of_append before behind []
    rw [List.append_nil, ← hsource] at hslice
    simp [stretchesFrom, hslice]
  | cons token tokens ih =>
    have htokens : Token.PlacedFrom source (Text.byteLength before) tokens :=
      ⟨fun t ht => h.placed t (.tail _ ht), fun t ht => h.behind t (.tail _ ht), h.ordered.tail⟩
    cases hbody : token.codeBody? with
    | none =>
      rw [List.filterMap_cons_none hbody]
      exact ih before hsource htokens
    | some body =>
      obtain ⟨element, span⟩ := body
      obtain rfl := Token.span_of_codeBody? hbody
      obtain ⟨⟨text, hslice, -⟩, -⟩ := h.placed token List.mem_cons_self
      obtain ⟨front, after, hcut, hstart, hstop⟩ := Text.slice?_eq_some_iff.1 hslice
      have hle := h.behind token List.mem_cons_self
      rw [hstart] at hle
      obtain ⟨gap, rfl, rfl⟩ := EditPart.exists_append_of_byteLength_le (hsource.symm.trans hcut) hle
      have hgap : Text.slice ⟨Text.byteLength before, token.span.start⟩ source = gap := by
        rw [hstart, hsource]
        exact Text.slice_of_append before gap _
      have htext : Text.slice token.span source = text := by rw [Text.slice, hslice, Option.getD_some]
      have hnext : token.span.stop = Text.byteLength (before ++ gap ++ text) := by
        rw [hstop, ← Text.byteLength_append]
      have hbehind : Token.PlacedFrom source (Text.byteLength (before ++ gap ++ text)) tokens := by
        rw [← hnext]
        exact ⟨htokens.placed, fun t ht => List.rel_of_pairwise_cons h.ordered ht, htokens.ordered⟩
      have hafter : source = before ++ gap ++ text ++ after := by
        rw [hcut, List.append_assoc (before ++ gap)]
      have hrest := ih (before ++ gap ++ text) hafter hbehind
      rw [List.filterMap_cons_some hbody, stretchesFrom, List.flatMap_cons, List.flatMap_cons, hgap, htext,
        hnext, hrest]

/-- **The stretches make up the source.** -/
theorem flatMap_text_stretches (source : String) :
    (stretches source).flatMap Stretch.text = source.toList :=
  flatMap_text_stretchesFrom [] rfl
    (Token.placedFrom_tokensFrom (Cursor.on_front source.toList))

namespace EmojiEntities

variable {source : List Char}

/-- **What stands between two places** is the same, with references. -/
theorem slice_spell {n n' m m' : Nat} (h : SamePlace source n n') (hm : SamePlace source m m') :
    Text.slice ⟨n', m'⟩ (spell source) = spell (Text.slice ⟨n, m⟩ source) := by
  obtain ⟨before, behind, hsource, rfl, rfl⟩ := h
  obtain ⟨before', behind', hsource', rfl, rfl⟩ := hm
  have hsame := hsource.symm.trans hsource'
  rcases Nat.lt_or_ge (Text.byteLength before') (Text.byteLength before) with hlt | hle
  · -- The second place stands before the first one, and still does.
    obtain ⟨text, rfl, -⟩ := EditPart.exists_append_of_byteLength_le hsame.symm (Nat.le_of_lt hlt)
    have hne : text ≠ [] := by
      rintro rfl
      exact absurd hlt (by simp)
    have hpos := Text.byteLength_pos (mt spell_eq_nil_iff.1 hne)
    have hlt' : Text.byteLength (spell before') < Text.byteLength (spell (before' ++ text)) := by
      rw [spell_append, Text.byteLength_append]
      omega
    rw [Text.slice_of_lt hlt', Text.slice_of_lt hlt]
    rfl
  · obtain ⟨text, rfl, rfl⟩ := EditPart.exists_append_of_byteLength_le hsame hle
    rw [hsource, spell_append, spell_append, spell_append, Text.slice_of_append, Text.slice_of_append]

/-- A stretch with references. -/
def spelledStretch (s : Stretch) : Stretch := ⟨s.element?, spell s.text⟩

theorem stretchesFrom_spell {n n' : Nat} {bodies bodies' : List (String × Span)} (h : SamePlace source n n')
    (hbodies : List.Forall₂ (fun a b => b.1 = a.1 ∧ SameSpan source a.2 b.2) bodies bodies') :
    stretchesFrom (spell source) n' bodies' = (stretchesFrom source n bodies).map spelledStretch := by
  induction hbodies generalizing n n' with
  | nil =>
    have hend : SamePlace source (Text.byteLength source) (Text.byteLength (spell source)) :=
      ⟨source, [], by simp, rfl, rfl⟩
    simp only [stretchesFrom, List.map_cons, List.map_nil, spelledStretch, slice_spell h hend]
  | cons hbody _ ih =>
    obtain ⟨hname, hspan⟩ := hbody
    simp only [stretchesFrom, List.map_cons, spelledStretch, slice_spell h hspan.start,
      slice_spell hspan.start hspan.stop, ih hspan.stop, hname]

/-- The bodies of style sheets and scripts are the same ones. -/
theorem codeBody?_same {token token' : Token} (h : SameToken source token token') :
    Option.Rel (fun a b => b.1 = a.1 ∧ SameSpan source a.2 b.2) token.codeBody? token'.codeBody? := by
  cases h with
  | rawText element hspan =>
    by_cases hcode : element = "style" ∨ element = "script"
    · simp only [Token.codeBody?, if_pos hcode]
      exact .some ⟨rfl, hspan⟩
    · simp only [Token.codeBody?, if_neg hcode]
      exact .none
  | startTag | endTag | comment | declaration => exact .none

/-- **The rule writes references into every stretch.** -/
theorem stretches_applyTo (source : String) :
    stretches (rule.applyTo source) = (stretches source).map spelledStretch := by
  have hbodies := List.rel_filterMap (fun _ _ h => codeBody?_same h) (tokenize_applyTo source)
  have hspelled := stretchesFrom_spell ⟨[], source.toList, rfl, rfl, rfl⟩ hbodies
  have hresult : (rule.applyTo source).toList = spell source.toList := by
    rw [applyTo_eq, String.toList_ofList]
    rfl
  rw [stretches, hresult]
  exact hspelled

/-- **Emoji keep their meaning outside of style sheets and scripts.**  No emoji is left in any stretch.
Outside of bodies, a stretch is read as before, and as it is written if no reference stands in it.  The
bodies of the result are those of the source, and a body is kept exactly if no emoji stands in it. -/
theorem emoji_keep_meaning (source : String) :
    (∀ s ∈ stretches (rule.applyTo source), ∀ entry ∈ table, entry.1 ∉ s.text) ∧
    List.Forall₂ (fun s s' => s'.element? = s.element? ∧
        (s.element? = none → decode s'.text = decode s.text ∧
          ((∀ entry ∈ table, ¬ entry.2.toList <:+: s.text) → decode s'.text = s.text)) ∧
        (s.element? ≠ none → (s'.text = s.text ↔ ∀ entry ∈ table, entry.1 ∉ s.text)))
      (stretches source) (stretches (rule.applyTo source)) := by
  rw [stretches_applyTo]
  refine ⟨fun s hs entry hentry => ?_, ?_⟩
  · obtain ⟨t, -, rfl⟩ := List.mem_map.1 hs
    exact emoji_not_mem_spell hentry t.text
  · rw [List.forall₂_map_right_iff, List.forall₂_same]
    intro s _
    refine ⟨rfl, fun _ => ⟨decode_spell s.text, fun hnone => ?_⟩, fun _ => spell_eq_self_iff⟩
    exact (decode_spell s.text).trans (decode_eq_self hnone)

/-- **A style sheet with an emoji is changed,** and in it the reference stands for itself. -/
theorem emoji_changes_style_sheet :
    stretches "<style>i:after\x7bcontent:\"👾\"\x7d</style>" =
      [⟨none, "<style>".toList⟩, ⟨some "style", "i:after\x7bcontent:\"👾\"\x7d".toList⟩,
        ⟨none, "</style>".toList⟩] ∧
    stretches (rule.applyTo "<style>i:after\x7bcontent:\"👾\"\x7d</style>") =
      [⟨none, "<style>".toList⟩, ⟨some "style", "i:after\x7bcontent:\"&#x1F47E;\"\x7d".toList⟩,
        ⟨none, "</style>".toList⟩] := by
  decide +kernel

end EmojiEntities

end MailTemplate
