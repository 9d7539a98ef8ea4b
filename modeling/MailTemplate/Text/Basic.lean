import MailTemplate.Text.Blank

/-!
# Text as a list of characters

Scanners read a text as the list of its characters.  Where a place in a text is shown outside, it is
the number of UTF-8 bytes before it, so the length of a text is counted in bytes too.

## Main definitions

* `byteLength` — the length of a text in UTF-8.
* `indexOf?`, `contains`, `replaceAll` — searching for the first or every occurrence of a text.
* `trim`, `trimStart`, `trimEnd`, `words`, `lines` — taking a text apart at blanks and line ends.
* `lower`, `equalsFold` — ASCII letter case.

## Main results

* `byteLength_append` — bytes add up.
* `prefix_drop_of_indexOf?` — what `indexOf?` finds stands where it says.
* `contains_iff` — `contains` decides whether a text is part of another one.
-/

namespace MailTemplate

namespace Text

/-! ## Length in bytes -/

/-- The number of bytes of a text in UTF-8. -/
def byteLength : List Char → Nat
  | [] => 0
  | c :: cs => c.utf8Size + byteLength cs

@[simp] theorem byteLength_nil : byteLength [] = 0 := rfl

@[simp] theorem byteLength_cons (c : Char) (cs : List Char) :
    byteLength (c :: cs) = c.utf8Size + byteLength cs := rfl

theorem byteLength_append (as bs : List Char) :
    byteLength (as ++ bs) = byteLength as + byteLength bs := by
  induction as with
  | nil => simp
  | cons c as ih => simp [ih, Nat.add_assoc]

theorem byteLength_pos {cs : List Char} (h : cs ≠ []) : 0 < byteLength cs := by
  cases cs with
  | nil => exact absurd rfl h
  | cons c cs =>
    have := Char.utf8Size_pos c
    rw [byteLength_cons]
    omega

/-! ## Searching -/

section Search

variable (same : Char → Char → Bool)

/-- Whether a text begins with another one, characters being compared by `same`. -/
def beginsWithBy : List Char → List Char → Bool
  | [], _ => true
  | _ :: _, [] => false
  | a :: as, b :: bs => same a b && beginsWithBy as bs

/-- How many characters stand before the first occurrence of a text, characters being compared by
`same`. -/
def indexOfBy? (sought : List Char) : List Char → Option Nat
  | [] => if beginsWithBy same sought [] then some 0 else none
  | c :: cs =>
    if beginsWithBy same sought (c :: cs) then some 0
    else (indexOfBy? sought cs).map (· + 1)

end Search

/-- Equality of characters up to the case of ASCII letters. -/
def sameFold (a b : Char) : Bool := a.toLower == b.toLower

/-- How many characters stand before the first occurrence of a text. -/
def indexOf? (sought cs : List Char) : Option Nat := indexOfBy? (· == ·) sought cs

/-- How many characters stand before the first occurrence of a text in any case. -/
def indexOfFold? (sought cs : List Char) : Option Nat := indexOfBy? sameFold sought cs

/-- Whether a text occurs in another one. -/
def contains (cs sought : List Char) : Bool := (indexOf? sought cs).isSome

theorem beginsWithBy_beq_iff {as bs : List Char} :
    beginsWithBy (· == ·) as bs = true ↔ as <+: bs := by
  induction as generalizing bs with
  | nil => simp [beginsWithBy]
  | cons a as ih =>
    cases bs with
    | nil => simp [beginsWithBy]
    | cons b bs => simp [beginsWithBy, ih, List.cons_prefix_cons]

theorem indexOfBy?_le {same : Char → Char → Bool} {sought cs : List Char} {i : Nat}
    (h : indexOfBy? same sought cs = some i) : i ≤ cs.length := by
  induction cs generalizing i with
  | nil =>
    simp only [indexOfBy?] at h
    split at h
    · simp only [Option.some.injEq] at h
      omega
    · simp at h
  | cons c cs ih =>
    simp only [indexOfBy?] at h
    split at h
    · simp only [Option.some.injEq] at h
      omega
    · obtain ⟨j, hj, rfl⟩ := Option.map_eq_some_iff.1 h
      simpa using ih hj

/-- Where `indexOf?` finds a text, the text stands. -/
theorem prefix_drop_of_indexOf? {sought cs : List Char} {i : Nat}
    (h : indexOf? sought cs = some i) : sought <+: cs.drop i := by
  unfold indexOf? at h
  induction cs generalizing i with
  | nil =>
    simp only [indexOfBy?] at h
    split at h
    · next hp =>
      cases h
      exact beginsWithBy_beq_iff.1 hp
    · simp at h
  | cons c cs ih =>
    simp only [indexOfBy?] at h
    split at h
    · next hp =>
      cases h
      exact beginsWithBy_beq_iff.1 hp
    · obtain ⟨j, hj, rfl⟩ := Option.map_eq_some_iff.1 h
      simpa using ih hj

/-- What occurs in a text is what is found in it. -/
theorem contains_iff {cs sought : List Char} : contains cs sought = true ↔ sought <:+: cs := by
  unfold contains indexOf?
  induction cs with
  | nil =>
    simp only [indexOfBy?, List.infix_nil]
    split
    · next h => simpa using beginsWithBy_beq_iff.1 h
    · next h =>
      have hne : sought ≠ [] := fun he => h (beginsWithBy_beq_iff.2 (he ▸ List.nil_prefix))
      simpa using hne
  | cons c cs ih =>
    simp only [indexOfBy?]
    split
    · next h => simpa using (beginsWithBy_beq_iff.1 h).isInfix
    · next h =>
      have hno : ¬ sought <+: c :: cs := fun hp => h (beginsWithBy_beq_iff.2 hp)
      rw [Option.isSome_map, ih, List.infix_cons_iff, or_iff_right hno]

/-- Replaces every occurrence of a text that is not empty, from the left. -/
def replaceAll (sought by_ : List Char) (cs : List Char) : List Char :=
  match cs with
  | [] => []
  | c :: rest =>
    if sought ≠ [] ∧ beginsWithBy (· == ·) sought (c :: rest) then
      by_ ++ replaceAll sought by_ (rest.drop (sought.length - 1))
    else
      c :: replaceAll sought by_ rest
termination_by cs.length
decreasing_by all_goals simp only [List.length_drop, List.length_cons]; omega

/-! ## Blanks and lines -/

/-- A text without its leading blanks. -/
def trimStart (cs : List Char) : List Char := cs.dropWhile isBlank

/-- A text without the characters of a class at its end. -/
def dropEndWhile (p : Char → Bool) (cs : List Char) : List Char :=
  (cs.reverse.dropWhile p).reverse

/-- A text without its trailing blanks. -/
def trimEnd (cs : List Char) : List Char := dropEndWhile isBlank cs

/-- A text without the blanks around it. -/
def trim (cs : List Char) : List Char := trimEnd (trimStart cs)

theorem trim_cons_of_isBlank {c : Char} (h : isBlank c = true) (cs : List Char) :
    trim (c :: cs) = trim cs := by
  rw [trim, trimStart, List.dropWhile_cons_of_pos h]
  rfl

/-- A text with blanks at neither end stays as it is. -/
theorem trim_of_ends {cs : List Char} {first last : Char} (hfirst : cs.head? = some first)
    (hlast : cs.getLast? = some last) (hfirst_ : isBlank first = false)
    (hlast_ : isBlank last = false) : trim cs = cs := by
  have hdrop {d : Char} {ds : List Char} (hd : ds.head? = some d) (hblank : isBlank d = false) :
      ds.dropWhile isBlank = ds := by
    obtain ⟨ds, rfl⟩ := List.head?_eq_some_iff.1 hd
    exact List.dropWhile_cons_of_neg (by rw [hblank]; decide)
  have hlast : cs.reverse.head? = some last := by rwa [List.head?_reverse]
  rw [trim, trimStart, hdrop hfirst hfirst_, trimEnd, dropEndWhile, hdrop hlast hlast_,
    List.reverse_reverse]

/-- Whether a text holds blanks only. -/
def isBlankText (cs : List Char) : Bool := cs.all isBlank

/-- The words of a text: its longest runs without blanks. -/
def words (cs : List Char) : List (List Char) :=
  (cs.splitOnP isBlank).filter (· ≠ [])

/-- The lines of a text, each without its line end.  A carriage return before a line feed belongs to
the line end, and a last line that is empty is none. -/
def lines (cs : List Char) : List (List Char) :=
  let parts := cs.splitOn '\n'
  let ended := parts.dropLast.map fun l => if l.getLast? = some '\r' then l.dropLast else l
  match parts.getLast? with
  | none | some [] => ended
  | some l => ended ++ [l]

/-- Texts written one after the other with a separator between them. -/
def joinWith (separator : List Char) : List (List Char) → List Char
  | [] => []
  | [t] => t
  | t :: ts => t ++ separator ++ joinWith separator ts

theorem joinWith_eq_intercalate (separator : List Char) (ts : List (List Char)) :
    joinWith separator ts = separator.intercalate ts := by
  induction ts with
  | nil => rfl
  | cons t ts ih =>
    cases ts with
    | nil => simp [joinWith]
    | cons next ts =>
      rw [joinWith, ih, List.intercalate_cons_cons, List.append_assoc]
      exact List.cons_ne_nil next ts

theorem joinWith_cons (separator t : List Char) (ts : List (List Char)) :
    joinWith separator (t :: ts) = t ++ ts.flatMap (separator ++ ·) := by
  induction ts generalizing t with
  | nil => simp [joinWith]
  | cons next ts ih =>
    rw [joinWith, ih, List.flatMap_cons, List.append_assoc, List.append_assoc]
    exact List.cons_ne_nil next ts

/-- Two lists of texts one after the other have a separator between them. -/
theorem joinWith_append {separator : List Char} {first more : List (List Char)} (hfirst : first ≠ [])
    (hmore : more ≠ []) :
    joinWith separator (first ++ more) = joinWith separator first ++ (separator ++ joinWith separator more) := by
  induction first with
  | nil => exact absurd rfl hfirst
  | cons t first ih =>
    obtain ⟨next, more, rfl⟩ := List.exists_cons_of_ne_nil hmore
    cases first with
    | nil => simp [joinWith]
    | cons second first =>
      have hrest := ih (List.cons_ne_nil _ _)
      simp only [List.cons_append, joinWith, List.append_assoc] at hrest ⊢
      rw [hrest]

theorem not_mem_of_mem_splitOn {α : Type} [BEq α] [LawfulBEq α] {a : α} {as l : List α}
    (h : l ∈ as.splitOn a) : a ∉ l := by
  induction as generalizing l with
  | nil => simp_all
  | cons b bs ih =>
    rw [List.splitOn_cons_eq_if_modifyHead] at h
    split at h
    · rcases List.mem_cons.1 h with rfl | h
      · exact List.not_mem_nil
      · exact ih h
    · next hb =>
      obtain ⟨first, more, hsplit⟩ := List.exists_cons_of_ne_nil (List.splitOn_ne_nil a bs)
      rw [hsplit, List.modifyHead_cons, List.mem_cons] at h
      rcases h with rfl | h
      · have hfirst : a ∉ first := ih (hsplit ▸ List.mem_cons_self)
        intro hm
        rcases List.mem_cons.1 hm with rfl | hm
        · simp at hb
        · exact hfirst hm
      · exact ih (hsplit ▸ List.mem_cons_of_mem _ h)

/-! ## Letter case -/

/-- A text with its ASCII capitals in lower case. -/
def lower (cs : List Char) : List Char := cs.map Char.toLower

theorem utf8Size_toLower (c : Char) : c.toLower.utf8Size = c.utf8Size := by
  unfold Char.toLower
  split
  · next h =>
    -- A capital letter and its small letter are both ASCII.
    have hhigh : c.val.toNat ≤ 'Z'.val.toNat := h.2
    have hsum : (c.val + ('a'.val - 'A'.val)).toNat = c.val.toNat + 32 := by
      rw [UInt32.toNat_add]
      exact Nat.mod_eq_of_lt (Nat.lt_of_le_of_lt (Nat.add_le_add_right hhigh 32) (by decide))
    rw [Char.utf8Size_eq_one_iff.2, Char.utf8Size_eq_one_iff.2]
    · exact UInt32.le_iff_toNat_le.2 (Nat.le_trans hhigh (by decide))
    · refine UInt32.le_iff_toNat_le.2 ?_
      rw [hsum]
      exact Nat.le_trans (Nat.add_le_add_right hhigh 32) (by decide)
  · rfl

theorem byteLength_lower (cs : List Char) : byteLength (lower cs) = byteLength cs := by
  induction cs with
  | nil => rfl
  | cons c cs ih =>
    rw [lower, List.map_cons, byteLength_cons, byteLength_cons, utf8Size_toLower]
    exact congrArg _ ih

/-- Equality of texts up to the case of ASCII letters. -/
def equalsFold (as bs : List Char) : Bool := lower as == lower bs

end Text

/-! ## The same on strings -/

namespace Text

/-- A string with its ASCII capitals in lower case. -/
def lowerString (s : String) : String := String.ofList (lower s.toList)

/-- A string without the blanks around it. -/
def trimString (s : String) : String := String.ofList (trim s.toList)

/-- Whether a string occurs in another one. -/
def stringContains (s sought : String) : Bool := contains s.toList sought.toList

end Text

end MailTemplate
