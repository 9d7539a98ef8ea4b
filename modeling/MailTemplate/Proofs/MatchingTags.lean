import MailTemplate.Proofs.EditPlaces

/-!
# Elements and their ends

The tokens of a document form no tree.  The end of an element is found by counting: each start tag of
its name that is not self-closing is one more element to close, each end tag of the name closes one.
What is counted away before the end is found are whole elements, and each end tag ends one element.  A
self-closing tag is passed over by the count, but asked for its own end it answers like any other tag:
with the end of the element that it stands in.

A list of tokens in which the count does not come to an end leaves some elements open
(`Token.exists_closes_or_unclosed`), and what the count finds behind it is known from their number alone
(`Document.closingEnd?_append_unclosed`).  All results about ends follow from these two.

## Main definitions

* `Token.Balanced` — tokens in which the elements of a name are whole.
* `Token.Unclosed` — tokens that leave elements of a name open.
* `Document.HoldsSelfClosing` — a self-closing tag stands directly inside of an element of its name.

## Main results

* `Document.closingEnd?_zero_iff` — the end of an element stands behind balanced tokens.
* `Document.stop_le_of_closingEnd?` — of two elements, the one that stands inside ends first.
* `Document.nested_or_disjoint` — two elements of one name are nested or disjoint.
* `Document.matchingEnd_closes_element` — matching ends pair elements, but for self-closing tags.
-/

namespace MailTemplate

/-! ## Balanced tokens -/

namespace Token

variable {name : String} {front behind : List Token} {depth : Nat}

/-- Whether a token is a start tag that opens an element of a name. -/
def opens (name : String) : Token → Bool
  | startTag tag => tag.name == name && !tag.selfClosing
  | _ => false

/-- Whether a token is an end tag of a name. -/
def closes (name : String) : Token → Bool
  | endTag n _ => n == name
  | _ => false

/-- Tokens in which each element of a name that is opened is closed, and nothing else is. -/
inductive Balanced (name : String) : List Token → Prop
  /-- There is no token. -/
  | nil : Balanced name []
  /-- A token in front that neither opens nor closes an element of the name. -/
  | passed {t : Token} {behind : List Token} (hopens : t.opens name = false)
      (hcloses : t.closes name = false) (hbehind : Balanced name behind) : Balanced name (t :: behind)
  /-- An element in front. -/
  | element {first last : Token} {inner behind : List Token} (hfirst : first.opens name = true)
      (hlast : last.closes name = true) (hinner : Balanced name inner)
      (hbehind : Balanced name behind) : Balanced name (first :: (inner ++ last :: behind))

/-- Tokens that leave a number of elements of a name open. -/
inductive Unclosed (name : String) : Nat → List Token → Prop
  /-- None is left open. -/
  | balanced {ts : List Token} (h : Balanced name ts) : Unclosed name 0 ts
  /-- The outermost one that is left open, and what stands inside of it. -/
  | opened {depth : Nat} {front behind : List Token} {first : Token} (hfront : Balanced name front)
      (hfirst : first.opens name = true) (hbehind : Unclosed name depth behind) :
      Unclosed name (depth + 1) (front ++ first :: behind)

theorem exists_of_opens {t : Token} (h : t.opens name = true) :
    ∃ tag, t = startTag tag ∧ tag.name = name ∧ tag.selfClosing = false := by
  cases t with
  | startTag tag =>
    simp only [opens, Bool.and_eq_true, beq_iff_eq, Bool.not_eq_true'] at h
    exact ⟨tag, rfl, h⟩
  | _ => exact absurd h (by simp [opens])

theorem exists_of_closes {t : Token} (h : t.closes name = true) : ∃ span, t = endTag name span := by
  cases t with
  | endTag n span =>
    simp only [closes, beq_iff_eq] at h
    exact ⟨span, h ▸ rfl⟩
  | _ => exact absurd h (by simp [closes])

theorem Balanced.append (hfront : Balanced name front) (hbehind : Balanced name behind) :
    Balanced name (front ++ behind) := by
  induction hfront with
  | nil => exact hbehind
  | passed hopens hcloses _ ih => exact .passed hopens hcloses ih
  | element hfirst hlast hinner _ _ ih =>
    rw [List.cons_append, List.append_assoc, List.cons_append]
    exact .element hfirst hlast hinner ih

theorem Unclosed.behind_balanced (hfront : Balanced name front)
    (hbehind : Unclosed name depth behind) : Unclosed name depth (front ++ behind) := by
  cases hbehind with
  | balanced h => exact .balanced (hfront.append h)
  | opened hbefore hfirst hrest =>
    rw [← List.append_assoc]
    exact .opened (hfront.append hbefore) hfirst hrest

/-- **Tokens close the element that they stand in, behind balanced ones, or they leave elements open.** -/
theorem exists_closes_or_unclosed (name : String) (ts : List Token) :
    (∃ inner last behind, ts = inner ++ last :: behind ∧ last.closes name = true ∧
      Balanced name inner) ∨ ∃ depth, Unclosed name depth ts := by
  -- By induction on the length, for behind a whole element the tokens are a proper part.
  induction hlength : ts.length using Nat.strongRecOn generalizing ts with
  | ind n ih =>
    subst hlength
    match ts with
    | [] => exact .inr ⟨0, .balanced .nil⟩
    | t :: rest =>
      cases hcloses : t.closes name with
      | true => exact .inl ⟨[], t, rest, rfl, hcloses, .nil⟩
      | false =>
        have hrest := ih rest.length (Nat.lt_succ_self _) rest rfl
        cases hopens : t.opens name with
        | false =>
          have hone : Balanced name [t] := .passed hopens hcloses .nil
          rcases hrest with ⟨inner, last, behind, rfl, hlast, hinner⟩ | ⟨depth, hdepth⟩
          · exact .inl ⟨t :: inner, last, behind, rfl, hlast, hone.append hinner⟩
          · exact .inr ⟨depth, .behind_balanced hone hdepth⟩
        | true =>
          rcases hrest with ⟨inner, last, behind, rfl, hlast, hinner⟩ | ⟨depth, hdepth⟩
          · -- The tag opens an element that is closed.
            have helement : Balanced name (t :: (inner ++ [last])) :=
              .element hopens hlast hinner .nil
            have hsplit : t :: (inner ++ last :: behind) = t :: (inner ++ [last]) ++ behind := by
              simp only [List.cons_append, List.append_assoc, List.nil_append]
            rw [hsplit]
            have hbehind := ih behind.length (by
              simp only [List.length_cons, List.length_append]
              omega) behind rfl
            rcases hbehind with ⟨inner', last', behind', rfl, hlast', hinner'⟩ | ⟨depth, hdepth⟩
            · refine .inl ⟨_, last', behind', ?_, hlast', helement.append hinner'⟩
              rw [List.append_assoc]
            · exact .inr ⟨depth, .behind_balanced helement hdepth⟩
          · exact .inr ⟨depth + 1, .opened .nil hopens hdepth⟩

end Token

/-! ## The count -/

namespace Document

variable {name : String} {depth : Nat} {t : Token} {front rest : List Token} {span : Span}

theorem closingEnd?_cons_of_passed (hopens : t.opens name = false) (hcloses : t.closes name = false) :
    closingEnd? name depth (t :: rest) = closingEnd? name depth rest := by
  cases t with
  | startTag tag =>
    have hkept : ¬ (tag.name = name ∧ tag.selfClosing = false) := by
      rintro ⟨hname, hself⟩
      simp [Token.opens, hname, hself] at hopens
    rw [closingEnd?, if_neg hkept]
  | endTag n span =>
    have hname : ¬ n = name := by simpa [Token.closes] using hcloses
    simp only [closingEnd?, if_neg hname]
  | _ => rfl

theorem closingEnd?_cons_of_opens (h : t.opens name = true) :
    closingEnd? name depth (t :: rest) = closingEnd? name (depth + 1) rest := by
  obtain ⟨tag, rfl, hopens⟩ := Token.exists_of_opens h
  rw [closingEnd?, if_pos hopens]

theorem closingEnd?_zero_cons_of_closes (h : t.closes name = true) :
    closingEnd? name 0 (t :: rest) = some t.span := by
  obtain ⟨span, rfl⟩ := Token.exists_of_closes h
  rw [closingEnd?, if_pos rfl]
  rfl

theorem closingEnd?_succ_cons_of_closes (h : t.closes name = true) :
    closingEnd? name (depth + 1) (t :: rest) = closingEnd? name depth rest := by
  obtain ⟨span, rfl⟩ := Token.exists_of_closes h
  rw [closingEnd?, if_pos rfl]

/-- Balanced tokens are passed over. -/
theorem closingEnd?_append_balanced (h : Token.Balanced name front) (depth : Nat)
    (rest : List Token) : closingEnd? name depth (front ++ rest) = closingEnd? name depth rest := by
  induction h generalizing depth rest with
  | nil => rfl
  | passed hopens hcloses _ ih =>
    rw [List.cons_append, closingEnd?_cons_of_passed hopens hcloses, ih]
  | element hfirst hlast _ _ ihinner ihbehind =>
    rw [List.cons_append, List.append_assoc, List.cons_append, closingEnd?_cons_of_opens hfirst,
      ihinner, closingEnd?_succ_cons_of_closes hlast, ihbehind]

/-- Behind tokens that leave elements open these are to be closed first. -/
theorem closingEnd?_append_unclosed {opened : Nat} (h : Token.Unclosed name opened front)
    (depth : Nat) (rest : List Token) :
    closingEnd? name depth (front ++ rest) = closingEnd? name (depth + opened) rest := by
  induction h generalizing depth with
  | balanced hbalanced => exact closingEnd?_append_balanced hbalanced depth rest
  | opened hfront hfirst _ ih =>
    rw [List.append_assoc, List.cons_append, closingEnd?_append_balanced hfront,
      closingEnd?_cons_of_opens hfirst, ih, Nat.add_right_comm, Nat.add_assoc]

/-- **The end of an element is the first end tag of its name behind balanced tokens.** -/
theorem closingEnd?_zero_iff {ts : List Token} :
    closingEnd? name 0 ts = some span ↔
      ∃ inner behind, ts = inner ++ .endTag name span :: behind ∧ Token.Balanced name inner := by
  constructor
  · intro h
    rcases Token.exists_closes_or_unclosed name ts with
      ⟨inner, last, behind, rfl, hlast, hinner⟩ | ⟨depth, hdepth⟩
    · rw [closingEnd?_append_balanced hinner, closingEnd?_zero_cons_of_closes hlast] at h
      obtain ⟨span', rfl⟩ := Token.exists_of_closes hlast
      obtain rfl := Option.some.inj h
      exact ⟨inner, behind, rfl, hinner⟩
    · -- Tokens that leave elements open hold no end.
      rw [← List.append_nil ts, closingEnd?_append_unclosed hdepth] at h
      exact absurd h (by simp [closingEnd?])
  · rintro ⟨inner, behind, rfl, hinner⟩
    rw [closingEnd?_append_balanced hinner,
      closingEnd?_zero_cons_of_closes (by simp [Token.closes])]
    rfl

/-- **The more elements are to be closed, the later is the end.** -/
theorem stop_le_of_closingEnd? {ts : List Token} {depth' : Nat} {span' : Span}
    (hordered : ts.Pairwise fun a b => a.span.stop ≤ b.span.start) (hlt : depth < depth')
    (h : closingEnd? name depth ts = some span) (h' : closingEnd? name depth' ts = some span') :
    span.stop ≤ span'.start := by
  induction ts generalizing depth depth' with
  | nil => exact absurd h (by simp [closingEnd?])
  | cons t rest ih =>
    obtain ⟨hlater, hordered⟩ := List.pairwise_cons.1 hordered
    cases hcloses : t.closes name with
    | true =>
      -- The count with fewer elements may end here, the other one goes on.
      obtain ⟨depth', rfl⟩ := Nat.exists_eq_add_of_lt hlt
      rw [closingEnd?_succ_cons_of_closes hcloses] at h'
      cases depth with
      | zero =>
        rw [closingEnd?_zero_cons_of_closes hcloses] at h
        obtain rfl := Option.some.inj h
        exact hlater _ (mem_of_closingEnd? h')
      | succ depth =>
        rw [closingEnd?_succ_cons_of_closes hcloses] at h
        exact ih hordered (by omega) h h'
    | false =>
      cases hopens : t.opens name with
      | true =>
        rw [closingEnd?_cons_of_opens hopens] at h h'
        exact ih hordered (Nat.succ_lt_succ hlt) h h'
      | false =>
        rw [closingEnd?_cons_of_passed hopens hcloses] at h h'
        exact ih hordered hlt h h'

/-! ## The elements of a document -/

variable {doc : Document} {i j : Nat} {tag other : StartTag} {between behind : List Token}

theorem exists_split_of_getElem? (h : doc.tokens[i]? = some t) :
    ∃ front rest, doc.tokens = front ++ t :: rest ∧ front.length = i := by
  obtain ⟨hlt, rfl⟩ := List.getElem?_eq_some_iff.1 h
  refine ⟨doc.tokens.take i, doc.tokens.drop (i + 1), ?_, List.length_take_of_le hlt.le⟩
  rw [← List.drop_eq_getElem_cons hlt, List.take_append_drop]

theorem matchingEnd?_of_split (h : doc.tokens = front ++ .startTag tag :: rest) :
    doc.matchingEnd? front.length = closingEnd? tag.name 0 rest := by
  unfold matchingEnd?
  rw [h, List.drop_left]

/-- Two tags in order, and the tokens before, between and behind them. -/
theorem exists_split_of_lt (hi : doc.tokens[i]? = some (.startTag tag))
    (hj : doc.tokens[j]? = some (.startTag other)) (hlt : i < j) :
    ∃ front between behind,
      doc.tokens = front ++ .startTag tag :: (between ++ .startTag other :: behind) ∧
        front.length = i ∧ i + 1 + between.length = j := by
  obtain ⟨front, rest, hdoc, rfl⟩ := exists_split_of_getElem? hi
  obtain ⟨gap, rfl⟩ := Nat.exists_eq_add_of_lt hlt
  have hrest : (Document.mk doc.source rest).tokens[gap]? = some (.startTag other) := by
    rw [hdoc, List.getElem?_append_right (by omega)] at hj
    rwa [show front.length + gap + 1 - front.length = gap + 1 by omega, List.getElem?_cons_succ] at hj
  obtain ⟨between, behind, hsplit, rfl⟩ := exists_split_of_getElem? hrest
  dsimp only at hsplit
  exact ⟨front, between, behind, by rw [hdoc, hsplit], rfl, by omega⟩

/-- The second of two tags, with all tokens before it. -/
theorem split_at_second
    (h : doc.tokens = front ++ .startTag tag :: (between ++ .startTag other :: behind)) :
    doc.tokens = (front ++ .startTag tag :: between) ++ .startTag other :: behind ∧
      (front ++ .startTag tag :: between).length = front.length + 1 + between.length := by
  refine ⟨by rw [h, List.append_assoc, List.cons_append], ?_⟩
  rw [List.length_append, List.length_cons]
  omega

theorem matchingEnd?_behind
    (h : doc.tokens = front ++ .startTag tag :: (between ++ .startTag other :: behind)) :
    doc.matchingEnd? (front.length + 1 + between.length) = closingEnd? other.name 0 behind := by
  obtain ⟨hdoc, hlength⟩ := split_at_second h
  rw [← hlength, matchingEnd?_of_split hdoc]

/-- A self-closing tag stands directly inside of an element of its name: what stands between the two is
balanced. -/
def HoldsSelfClosing (doc : Document) (outer inner : Nat) : Prop :=
  ∃ front tag between other behind,
    doc.tokens = front ++ .startTag tag :: (between ++ .startTag other :: behind) ∧
      front.length = outer ∧ outer + 1 + between.length = inner ∧
        other.name = tag.name ∧ other.selfClosing = true ∧ Token.Balanced tag.name between

/-- Such a tag is given the end of the element. -/
theorem HoldsSelfClosing.matchingEnd?_eq (h : doc.HoldsSelfClosing i j) :
    doc.matchingEnd? j = doc.matchingEnd? i := by
  obtain ⟨front, tag, between, other, behind, hdoc, rfl, rfl, hname, hself, hbalanced⟩ := h
  have hpassed : (Token.startTag other).opens tag.name = false := by simp [Token.opens, hself]
  rw [matchingEnd?_behind hdoc, matchingEnd?_of_split hdoc, closingEnd?_append_balanced hbalanced,
    closingEnd?_cons_of_passed hpassed rfl, hname]

/-- Both are start tags, in order. -/
theorem HoldsSelfClosing.exists_tags (h : doc.HoldsSelfClosing i j) :
    i < j ∧ (∃ tag, doc.tokens[i]? = some (.startTag tag)) ∧
      ∃ other, doc.tokens[j]? = some (.startTag other) := by
  obtain ⟨front, tag, between, other, behind, hdoc, rfl, rfl, -⟩ := h
  obtain ⟨hdoc', hlength⟩ := split_at_second hdoc
  refine ⟨by omega, ⟨tag, ?_⟩, other, ?_⟩
  · rw [hdoc, List.getElem?_append_right (Nat.le_refl _), Nat.sub_self, List.getElem?_cons_zero]
  · rw [hdoc', ← hlength, List.getElem?_append_right (Nat.le_refl _), Nat.sub_self,
      List.getElem?_cons_zero]

/-- The tokens of a source stand in order. -/
theorem ordered_read (source : String) :
    (read source).tokens.Pairwise fun a b => a.span.stop ≤ b.span.start :=
  (Token.placedFrom_tokenize source).ordered

/-- Only raw text can be empty. -/
theorem start_lt_stop {source : String} (h : t ∈ (read source).tokens)
    (hraw : ∀ element span, t ≠ .rawText element span) : t.span.start < t.span.stop := by
  obtain ⟨text, hslice, hempty⟩ := ((Token.placedFrom_tokenize source).placed _ h).text
  obtain ⟨before, after, -, hstart, hstop⟩ := Text.slice?_eq_some_iff.1 hslice
  have htext : text ≠ [] := by
    intro hnil
    obtain ⟨element, span, heq⟩ := hempty hnil
    exact hraw element span heq
  have := Text.byteLength_pos htext
  omega

theorem endTag_lt {source : String} (h : .endTag name span ∈ (read source).tokens) :
    span.start < span.stop := start_lt_stop h (by simp)

theorem endTag_inj {source name' : String} (h : .endTag name span ∈ (read source).tokens)
    (h' : .endTag name' span ∈ (read source).tokens) : name = name' := by
  by_contra hne
  have hlt := endTag_lt h
  rcases Token.apart_of_mem_tokenize h h' (by simpa using hne) with hle | hle
  · exact absurd hlt (Nat.not_lt_of_le hle)
  · exact absurd hlt (Nat.not_lt_of_le hle)

/-- An element ends before a later tag, or it ends behind it, once what is still open is closed. -/
theorem matchingEnd?_cases
    (hdoc : doc.tokens = front ++ .startTag tag :: (between ++ .startTag other :: behind))
    (hordered : doc.tokens.Pairwise fun a b => a.span.stop ≤ b.span.start)
    (hend : doc.matchingEnd? front.length = some span) :
    span.stop ≤ other.span.start ∨ ∃ depth, closingEnd? tag.name depth behind = some span ∧
      (depth = 0 → Token.Balanced tag.name between ∧
        (Token.startTag other).opens tag.name = false) := by
  rw [matchingEnd?_of_split hdoc] at hend
  rcases Token.exists_closes_or_unclosed tag.name between with
    ⟨inner, last, after, rfl, hlast, hinner⟩ | ⟨depth, hdepth⟩
  · left
    rw [List.append_assoc, closingEnd?_append_balanced hinner, List.cons_append,
      closingEnd?_zero_cons_of_closes hlast] at hend
    obtain rfl := Option.some.inj hend
    rw [hdoc] at hordered
    obtain ⟨-, hordered⟩ := List.pairwise_cons.1 (List.pairwise_append.1 hordered).2.1
    exact (List.pairwise_append.1 hordered).2.2 last (by simp) _ List.mem_cons_self
  · right
    rw [closingEnd?_append_unclosed hdepth, Nat.zero_add] at hend
    cases hopens : (Token.startTag other).opens tag.name with
    | true =>
      rw [closingEnd?_cons_of_opens hopens] at hend
      exact ⟨depth + 1, hend, fun hzero => absurd hzero (Nat.succ_ne_zero depth)⟩
    | false =>
      rw [closingEnd?_cons_of_passed hopens rfl] at hend
      refine ⟨depth, hend, ?_⟩
      rintro rfl
      obtain ⟨hbalanced⟩ := hdepth
      exact ⟨hbalanced, rfl⟩

section

variable {source : String} {span' : Span}

theorem ordered_behind
    (hdoc : (read source).tokens = front ++ .startTag tag :: (between ++ .startTag other :: behind)) :
    (∀ t ∈ behind, other.span.stop ≤ t.span.start) ∧
      behind.Pairwise fun a b => a.span.stop ≤ b.span.start := by
  have hordered := ordered_read source
  rw [(split_at_second hdoc).1] at hordered
  exact List.pairwise_cons.1 (List.pairwise_append.1 hordered).2.1

theorem start_lt_start (hlt : i < j) (hi : (read source).tokens[i]? = some (.startTag tag))
    (hj : (read source).tokens[j]? = some (.startTag other)) : tag.span.start < other.span.start := by
  obtain ⟨hi, heqi⟩ := List.getElem?_eq_some_iff.1 hi
  obtain ⟨hj, heqj⟩ := List.getElem?_eq_some_iff.1 hj
  have hle := List.pairwise_iff_getElem.1 (ordered_read source) i j hi hj hlt
  have htag := start_lt_stop (List.getElem_mem hi) (by simp [heqi])
  rw [heqi] at hle htag
  rw [heqj] at hle
  exact Nat.lt_of_lt_of_le htag hle

/-- An element begins before it ends. -/
theorem start_lt_matchingEnd? (hi : (read source).tokens[i]? = some (.startTag tag))
    (hend : (read source).matchingEnd? i = some span) : tag.span.start < span.stop := by
  obtain ⟨front, rest, hdoc, rfl⟩ := exists_split_of_getElem? hi
  rw [matchingEnd?_of_split hdoc] at hend
  have hmem : Token.endTag tag.name span ∈ rest := mem_of_closingEnd? hend
  have htag := start_lt_stop (List.mem_of_getElem? hi) (by simp)
  have hread : Token.endTag tag.name span ∈ (read source).tokens := by
    rw [hdoc]
    simp [hmem]
  have hspan := endTag_lt hread
  have hordered := ordered_read source
  rw [hdoc] at hordered
  have hle := (List.pairwise_cons.1 (List.pairwise_append.1 hordered).2.1).1 _ hmem
  simp only [Token.span] at htag hle
  omega

/-- **Two tags of one name:** the element of the first ends before the second, or the element of the
second ends no later. -/
theorem nested_or_disjoint (hlt : i < j) (hi : (read source).tokens[i]? = some (.startTag tag))
    (hj : (read source).tokens[j]? = some (.startTag other)) (hname : other.name = tag.name)
    (hendi : (read source).matchingEnd? i = some span)
    (hendj : (read source).matchingEnd? j = some span') :
    span.stop ≤ other.span.start ∨ span'.stop ≤ span.stop := by
  obtain ⟨front, between, behind, hdoc, rfl, rfl⟩ := exists_split_of_lt hi hj hlt
  rw [matchingEnd?_behind hdoc, hname] at hendj
  rcases matchingEnd?_cases hdoc (ordered_read source) hendi with hbefore | ⟨depth, hend, -⟩
  · exact .inl hbefore
  · right
    rcases Nat.eq_zero_or_pos depth with rfl | hpos
    · obtain rfl := Option.some.inj (hend.symm.trans hendj)
      exact Nat.le_refl _
    · have hle := stop_le_of_closingEnd? (ordered_behind hdoc).2 hpos hendj hend
      have hmem : Token.endTag tag.name span ∈ (read source).tokens := by
        rw [hdoc]
        simp [mem_of_closingEnd? hend]
      have := endTag_lt hmem
      omega

/-- **Two tags with one end:** the later one is self-closing and stands directly inside of the element
of the earlier one. -/
theorem holdsSelfClosing_of_matchingEnd? (hlt : i < j)
    (hi : (read source).tokens[i]? = some (.startTag tag))
    (hj : (read source).tokens[j]? = some (.startTag other))
    (hendi : (read source).matchingEnd? i = some span)
    (hendj : (read source).matchingEnd? j = some span) : (read source).HoldsSelfClosing i j := by
  obtain ⟨front, between, behind, hdoc, rfl, rfl⟩ := exists_split_of_lt hi hj hlt
  rw [matchingEnd?_behind hdoc] at hendj
  have hmem : Token.endTag other.name span ∈ behind := mem_of_closingEnd? hendj
  have htokens : ∀ t ∈ behind, t ∈ (read source).tokens := by
    intro t ht
    rw [hdoc]
    simp [ht]
  have hspan : span.start < span.stop := endTag_lt (htokens _ hmem)
  rcases matchingEnd?_cases hdoc (ordered_read source) hendi with hbefore | ⟨depth, hend, hzero⟩
  · -- The end stands behind the later tag.
    have hlater := (ordered_behind hdoc).1 _ hmem
    have hother := start_lt_stop (List.mem_of_getElem? hj) (by simp)
    simp only [Token.span] at hlater hother
    omega
  · have hname : other.name = tag.name :=
      endTag_inj (htokens _ hmem) (htokens _ (mem_of_closingEnd? hend))
    rw [hname] at hendj
    have hdepth : depth = 0 := by
      refine Nat.eq_zero_of_not_pos fun hpos => ?_
      have hle := stop_le_of_closingEnd? (ordered_behind hdoc).2 hpos hendj hend
      omega
    obtain ⟨hbalanced, hopens⟩ := hzero hdepth
    refine ⟨front, tag, between, other, behind, hdoc, rfl, rfl, hname, ?_, hbalanced⟩
    simpa [Token.opens, hname] using hopens

end

/-- **The end of an element closes it:** what `matchingEnd?` gives for a start tag is the end tag of its
name behind it with balanced tokens between the two, and it gives this end tag whenever there is one.
**No other start tag is given the same end tag, but for self-closing tags** that stand directly inside of
an element of their name. -/
theorem matchingEnd_closes_element (source : String) {i : Nat} {tag : StartTag}
    (htag : (read source).tokens[i]? = some (.startTag tag)) (span : Span) :
    ((read source).matchingEnd? i = some span ↔ ∃ front inner behind,
      (read source).tokens =
        front ++ .startTag tag :: (inner ++ .endTag tag.name span :: behind) ∧
          front.length = i ∧ Token.Balanced tag.name inner) ∧
    ((read source).matchingEnd? i = some span →
      ((∀ j other, j ≠ i → (read source).tokens[j]? = some (.startTag other) →
          (read source).matchingEnd? j ≠ some span) ↔
        ∀ j, ¬ (read source).HoldsSelfClosing i j ∧ ¬ (read source).HoldsSelfClosing j i)) := by
  obtain ⟨front, rest, hdoc, rfl⟩ := exists_split_of_getElem? htag
  constructor
  · rw [matchingEnd?_of_split hdoc, closingEnd?_zero_iff]
    constructor
    · rintro ⟨inner, behind, rfl, hinner⟩
      exact ⟨front, inner, behind, hdoc, rfl, hinner⟩
    · rintro ⟨front', inner, behind, hdoc', hlength, hinner⟩
      rw [hdoc] at hdoc'
      obtain ⟨-, hrest⟩ := List.append_inj hdoc' hlength.symm
      exact ⟨inner, behind, (List.cons.inj hrest).2, hinner⟩
  · intro hend
    constructor
    · intro hown j
      constructor
      · intro hholds
        obtain ⟨hlt, -, other, hother⟩ := hholds.exists_tags
        exact hown j other hlt.ne' hother (hholds.matchingEnd?_eq.trans hend)
      · intro hholds
        obtain ⟨hlt, ⟨other, hother⟩, -⟩ := hholds.exists_tags
        exact hown j other hlt.ne hother (hholds.matchingEnd?_eq.symm.trans hend)
    · intro hnone j other hne hother hend'
      rcases Nat.lt_or_gt_of_ne hne with hlt | hlt
      · exact (hnone j).2 (holdsSelfClosing_of_matchingEnd? hlt hother htag hend' hend)
      · exact (hnone j).1 (holdsSelfClosing_of_matchingEnd? hlt htag hother hend hend')

/-- A paragraph in a paragraph, behind a self-closing one that is passed over. -/
theorem matchingEnd_closes_paragraph :
    let doc := read "<p/><p><p></p></p>"
    ∃ tag, doc.tokens[1]? = some (.startTag tag) ∧ ∃ front inner behind,
      doc.tokens = front ++ .startTag tag :: (inner ++ .endTag tag.name ⟨14, 18⟩ :: behind) ∧
        front.length = 1 ∧ Token.Balanced tag.name inner := by
  intro doc
  have hpage : doc.tokens[1]? = some (.startTag ⟨"p", [], ⟨4, 7⟩, 6, false⟩) ∧
      doc.matchingEnd? 1 = some ⟨14, 18⟩ := by decide +kernel
  obtain ⟨htag, hend⟩ := hpage
  exact ⟨_, htag, (matchingEnd_closes_element _ htag ⟨14, 18⟩).1.1 hend⟩

/-- A self-closing table in a table: both are given the same end tag. -/
theorem self_closing_table_shares_end :
    let doc := read "<table><table/></table>"
    doc.tokens[0]? = some (.startTag ⟨"table", [], ⟨0, 7⟩, 6, false⟩) ∧
      doc.tokens[1]? = some (.startTag ⟨"table", [], ⟨7, 15⟩, 13, true⟩) ∧
        doc.matchingEnd? 0 = some ⟨15, 23⟩ ∧ doc.matchingEnd? 1 = some ⟨15, 23⟩ := by
  decide +kernel

end Document

end MailTemplate
