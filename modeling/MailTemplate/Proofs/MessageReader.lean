import MailTemplate.Mime.Message

/-!
# Reading messages

A message is read from its lines, as a mail client reads it.  The header runs to the first empty line;
a header line that begins with a blank continues the one before it.  The content type says whether the
rest is one body or a sequence of parts, and which boundary separates the parts.  Every line that begins
with two hyphens and the boundary is a delimiter line, whatever follows; it is the last one if two more
hyphens follow.  The line end before a delimiter line belongs to the delimiter.  What stands before the
first and behind the last delimiter line is no part.

## Main definitions

* `Entity` — a body with its type, or parts with their type and boundary.
* `Header.unfold`, `Header.field?`, `Header.mediaType`, `Header.parameter?` — reading a header.
* `Multipart.parts?` — the parts between the delimiter lines of a boundary.
* `Entity.read?` — reading lines.

## Main results

* `Multipart.parts?_eq_singleton` — how one part is found.
* `Entity.read?_single`, `Entity.read?_multipart` — what is read, from the fields of the header.
-/

namespace MailTemplate

/-- What a message holds. -/
inductive Entity where
  /-- One body as it is written, with its media type and its transfer encoding. -/
  | single (mediaType encoding body : List Char)
  /-- Parts, with their media type and the boundary between them. -/
  | multipart (mediaType boundary : List Char) (parts : List Entity)

/-! ## Headers -/

namespace Header

/-- Whether a header line continues the line before it. -/
def isContinuation : List Char → Bool
  | c :: _ => c == ' ' || c == '\t'
  | [] => false

/-- The lines of a header with continuations joined to the lines that they continue. -/
def unfold : List (List Char) → List (List Char)
  | [] => []
  | l :: ls =>
    match unfold ls with
    | [] => [l]
    | next :: more => if isContinuation next then (l ++ next) :: more else l :: next :: more

/-- The value of a header line if it is the field of a name, which is given in lower case. -/
def value? (name line : List Char) : Option (List Char) :=
  if Text.lower (line.takeWhile (· ≠ ':')) = name then
    some (Text.trim ((line.dropWhile (· ≠ ':')).drop 1))
  else none

/-- The value of the first field of a name. -/
def field? (name : List Char) (header : List (List Char)) : Option (List Char) :=
  header.findSome? (value? name)

/-- The media type in the value of a content type. -/
def mediaType (value : List Char) : List Char :=
  Text.lower (Text.trim (value.takeWhile (· ≠ ';')))

/-- The text of a parameter without the quotes around it. -/
def unquote : List Char → List Char
  | '"' :: rest => rest.takeWhile (· ≠ '"')
  | cs => cs

/-- A parameter in the value of a content type. -/
def parameter? (name value : List Char) : Option (List Char) :=
  ((value.splitOn ';').drop 1).findSome? fun p =>
    if Text.lower (Text.trim (p.takeWhile (· ≠ '='))) = name then
      some (unquote (Text.trim ((p.dropWhile (· ≠ '=')).drop 1)))
    else none

/-- Whether a line begins a field. -/
def BeginsField (line : List Char) : Prop := line ≠ [] ∧ isContinuation line = false

theorem unfold_cons_eq (l : List Char) (ls : List (List Char)) :
    ∃ tail more, unfold (l :: ls) = (l ++ tail) :: more := by
  rw [unfold]
  split
  · exact ⟨[], [], by rw [List.append_nil]⟩
  · next next more _ =>
    split
    · exact ⟨next, more, rfl⟩
    · exact ⟨[], next :: more, by rw [List.append_nil]⟩

theorem isContinuation_append {l : List Char} (h : l ≠ []) (tail : List Char) :
    isContinuation (l ++ tail) = isContinuation l := by
  cases l with
  | nil => exact absurd rfl h
  | cons c l => rfl

theorem unfold_cons {ls : List (List Char)} (h : ∀ next ∈ ls.head?, BeginsField next)
    (l : List Char) : unfold (l :: ls) = l :: unfold ls := by
  cases ls with
  | nil => rfl
  | cons next ls =>
    obtain ⟨hne, hbegins⟩ := h next rfl
    obtain ⟨tail, more, hunfold⟩ := unfold_cons_eq next ls
    rw [unfold, hunfold]
    simp only [isContinuation_append hne, hbegins, Bool.false_eq_true, if_false]

/-- Folded lines are joined to the line before them. -/
theorem unfold_cons_folded {rest : List (List Char)} (h : ∀ next ∈ rest.head?, BeginsField next)
    (l : List Char) (folded : List (List Char)) :
    unfold (l :: (folded.map (' ' :: ·) ++ rest)) =
      (l ++ (folded.map (' ' :: ·)).flatten) :: unfold rest := by
  induction folded generalizing l with
  | nil => simpa using unfold_cons h l
  | cons f folded ih =>
    rw [List.map_cons, List.cons_append, unfold, ih]
    rfl

theorem takeWhile_append_cons {c : Char} {as : List Char} (h : c ∉ as) (bs : List Char) :
    (as ++ c :: bs).takeWhile (· ≠ c) = as := by
  rw [List.takeWhile_append_of_pos, List.takeWhile_cons_of_neg, List.append_nil]
  · simp
  · intro a ha
    simpa using fun he : a = c => h (he ▸ ha)

theorem dropWhile_append_cons {c : Char} {as : List Char} (h : c ∉ as) (bs : List Char) :
    (as ++ c :: bs).dropWhile (· ≠ c) = c :: bs := by
  rw [List.dropWhile_append_of_pos, List.dropWhile_cons_of_neg]
  · simp
  · intro a ha
    simpa using fun he : a = c => h (he ▸ ha)

theorem value?_append_cons {name as : List Char} (h : ':' ∉ as) (bs : List Char) :
    value? name (as ++ ':' :: bs) =
      if Text.lower as = name then some (Text.trim bs) else none := by
  rw [value?, takeWhile_append_cons h, dropWhile_append_cons h, List.drop_one, List.tail_cons]

end Header

/-! ## Parts -/

namespace Multipart

/-- Whether a line is a delimiter line of a boundary. -/
def isDelimiter (boundary line : List Char) : Bool := ('-' :: '-' :: boundary).isPrefixOf line

/-- Whether a line is the last delimiter line of a boundary. -/
def isClose (boundary line : List Char) : Bool :=
  ('-' :: '-' :: boundary ++ ['-', '-']).isPrefixOf line

/-- The rest of a part and the parts behind it. -/
def partsFrom (boundary : List Char) : List (List Char) → Option (List (List (List Char)))
  | [] => none
  | l :: ls =>
    if isClose boundary l then some [[]]
    else if isDelimiter boundary l then (partsFrom boundary ls).map ([] :: ·)
    else (partsFrom boundary ls).map (·.modifyHead (l :: ·))

/-- The parts between the delimiter lines of a boundary, which must be closed. -/
def parts? (boundary : List Char) (body : List (List Char)) : Option (List (List (List Char))) :=
  match body.dropWhile (!isDelimiter boundary ·) with
  | [] => none
  | first :: rest => if isClose boundary first then none else partsFrom boundary rest

variable {boundary : List Char}

theorem isDelimiter_of_isClose {l : List Char} (h : isClose boundary l = true) :
    isDelimiter boundary l = true := by
  rw [isClose, List.isPrefixOf_iff_prefix] at h
  rw [isDelimiter, List.isPrefixOf_iff_prefix]
  exact (List.prefix_append _ _).trans h

theorem length_of_mem_partsFrom {ls : List (List Char)} {ps : List (List (List Char))}
    (h : partsFrom boundary ls = some ps) : ∀ p ∈ ps, p.length < ls.length := by
  induction ls generalizing ps with
  | nil => simp [partsFrom] at h
  | cons l ls ih =>
    simp only [partsFrom] at h
    split at h
    · obtain rfl := Option.some.inj h
      simp
    · split at h
      · obtain ⟨qs, hqs, rfl⟩ := Option.map_eq_some_iff.1 h
        intro p hp
        rcases List.mem_cons.1 hp with rfl | hp
        · simp
        · have := ih hqs p hp
          rw [List.length_cons]
          omega
      · obtain ⟨qs, hqs, rfl⟩ := Option.map_eq_some_iff.1 h
        intro p hp
        cases qs with
        | nil => simp at hp
        | cons q qs =>
          rw [List.modifyHead_cons, List.mem_cons] at hp
          rw [List.length_cons]
          rcases hp with rfl | hp
          · have := ih hqs q List.mem_cons_self
            rw [List.length_cons]
            omega
          · have := ih hqs p (List.mem_cons_of_mem _ hp)
            omega

theorem length_of_mem_parts? {body : List (List Char)} {ps : List (List (List Char))}
    (h : parts? boundary body = some ps) : ∀ p ∈ ps, p.length < body.length := by
  unfold parts? at h
  split at h
  · simp at h
  · next first rest hd =>
    split at h
    · simp at h
    · -- The first delimiter line is no part of the parts.
      have hle : rest.length < body.length := by
        have hsuffix := (List.dropWhile_suffix (l := body) (!isDelimiter boundary ·)).length_le
        rw [hd, List.length_cons] at hsuffix
        omega
      intro p hp
      have := length_of_mem_partsFrom h p hp
      omega

theorem partsFrom_eq_singleton {part tail : List (List Char)} {close : List Char}
    (hpart : ∀ l ∈ part, isDelimiter boundary l = false) (hclose : isClose boundary close = true) :
    partsFrom boundary (part ++ close :: tail) = some [part] := by
  induction part with
  | nil => simp [partsFrom, hclose]
  | cons l part ih =>
    have hl := hpart l List.mem_cons_self
    -- A last delimiter line would be a delimiter line.
    have hno : isClose boundary l ≠ true := fun hc => by
      rw [isDelimiter_of_isClose hc] at hl
      exact Bool.noConfusion hl
    rw [List.cons_append, partsFrom, if_neg hno, if_neg (by simp [hl]),
      ih fun l hm => hpart l (List.mem_cons_of_mem _ hm)]
    rfl

/-- The lines between a delimiter line and the last one are one part if none of them is a delimiter
line. -/
theorem parts?_eq_singleton {part tail : List (List Char)} {first close : List Char}
    (hfirst : isDelimiter boundary first = true) (hopen : isClose boundary first = false)
    (hpart : ∀ l ∈ part, isDelimiter boundary l = false) (hclose : isClose boundary close = true) :
    parts? boundary (first :: (part ++ close :: tail)) = some [part] := by
  have hdrop : (first :: (part ++ close :: tail)).dropWhile (!isDelimiter boundary ·) =
      first :: (part ++ close :: tail) := by
    rw [List.dropWhile_cons_of_neg]
    simp [hfirst]
  rw [parts?, hdrop]
  simp only [hopen, Bool.false_eq_true, if_false]
  exact partsFrom_eq_singleton hpart hclose

end Multipart

/-! ## Reading lines -/

namespace Entity

/-- The header of some lines. -/
def headerOf (lines : List (List Char)) : List (List Char) :=
  Header.unfold (lines.takeWhile (· ≠ []))

/-- The lines behind the header. -/
def bodyOf (lines : List (List Char)) : List (List Char) := (lines.dropWhile (· ≠ [])).drop 1

/-- The value of the content type of some lines. -/
def contentType (lines : List (List Char)) : List Char :=
  (Header.field? "content-type".toList (headerOf lines)).getD "text/plain".toList

theorem length_bodyOf_le (lines : List (List Char)) : (bodyOf lines).length ≤ lines.length := by
  have h := (List.dropWhile_suffix (l := lines) (· ≠ [])).length_le
  rw [bodyOf, List.length_drop]
  omega

/-- What some lines hold. -/
def read? (lines : List (List Char)) : Option Entity :=
  let type := Header.mediaType (contentType lines)
  if "multipart/".toList <+: type then
    match Header.parameter? "boundary".toList (contentType lines) with
    | none => none
    | some boundary =>
      match _hp : Multipart.parts? boundary (bodyOf lines) with
      | none => none
      | some ps => (ps.attach.mapM fun p => read? p.1).map (multipart type boundary)
  else
    let encoding := Header.field? "content-transfer-encoding".toList (headerOf lines)
    some (single type (encoding.getD "7bit".toList) (Text.joinWith crlf (bodyOf lines)))
termination_by lines.length
decreasing_by
  exact Nat.lt_of_lt_of_le (Multipart.length_of_mem_parts? _hp p.1 p.2) (length_bodyOf_le lines)

/-- Lines without a multipart type are one body. -/
theorem read?_single {lines : List (List Char)}
    (htype : ¬ "multipart/".toList <+: Header.mediaType (contentType lines)) :
    read? lines = some (single (Header.mediaType (contentType lines))
      ((Header.field? "content-transfer-encoding".toList (headerOf lines)).getD "7bit".toList)
      (Text.joinWith crlf (bodyOf lines))) := by
  rw [read?]
  simp only [if_neg htype]

/-- Lines with a multipart type and one part are what the part is, one level up. -/
theorem read?_multipart {lines part : List (List Char)} {boundary : List Char}
    (htype : "multipart/".toList <+: Header.mediaType (contentType lines))
    (hboundary : Header.parameter? "boundary".toList (contentType lines) = some boundary)
    (hpart : Multipart.parts? boundary (bodyOf lines) = some [part]) :
    read? lines = (read? part).map fun e =>
      multipart (Header.mediaType (contentType lines)) boundary [e] := by
  rw [read?]
  simp only [if_pos htype, hboundary]
  split
  · next hp =>
    rw [hpart] at hp
    simp at hp
  · next ps hp =>
    obtain rfl := Option.some.inj (hp.symm.trans hpart)
    cases hr : read? part with
    | none => simp [List.attach, List.attachWith, hr]
    | some e => simp [List.attach, List.attachWith, hr]

end Entity

end MailTemplate
