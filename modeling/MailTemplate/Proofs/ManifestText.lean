import MailTemplate.Archive.Manifest
import MailTemplate.Text.Utf8

/-!
# What a manifest says

A manifest is read from its text alone: different manifests have different texts.  A quoted string holds no
line break, since line breaks are escaped, so the lines of the text are those that were written, and every
field of the manifest is on a line of its own.

## Main results

* `JsonString.quote_injective` — a quoted string is read in one way only.
* `Manifest.text_injective` — and so is a manifest.
* `Bytes.ofString_injective` — and so are the bytes of a text.
-/

namespace MailTemplate

theorem Bytes.ofString_injective {s t : String} (h : ofString s = ofString t) : s = t := by
  apply String.toByteArray_inj.1
  rw [← String.utf8Encode_toList, ← String.utf8Encode_toList]
  exact congrArg List.toByteArray h

namespace JsonString

variable {c d : Char} {cs ds : List Char} {s t : String}

/-- The characters that do not stand for themselves. -/
def escaped : List Char := '"' :: '\\' :: (List.range 32).map Char.ofNat

theorem mem_escaped_of_lt (h : c.toNat < 32) : c ∈ escaped := by
  refine List.mem_cons_of_mem _ (List.mem_cons_of_mem _ (List.mem_map.2 ⟨c.toNat, ?_, ?_⟩))
  · exact List.mem_range.2 h
  · exact Char.ofNat_toNat c

/-- A character stands for itself, or it is escaped. -/
theorem escape_cases (c : Char) : (escape c = [c] ∧ c ≠ '\\' ∧ c ≠ '\n') ∨ c ∈ escaped := by
  by_cases hlt : c.toNat < 32
  · exact .inr (mem_escaped_of_lt hlt)
  by_cases hquote : c = '"'
  · exact .inr (by simp [escaped, hquote])
  by_cases hback : c = '\\'
  · exact .inr (by simp [escaped, hback])
  refine .inl ⟨escape_of_le (Nat.not_lt.1 hlt) hquote hback, hback, ?_⟩
  rintro rfl
  exact hlt (by decide)

/-- Whether escapes begin with a backslash, hold no line break and are no fronts of each other. -/
def escapesDiffer (cs : List Char) : Bool :=
  cs.all fun c => (escape c).head? == some '\\' && !(escape c).contains '\n' &&
    cs.all fun d => !(escape c).isPrefixOf (escape d) || c == d

/-- What is escaped begins with a backslash, holds no line break and is no front of another escape. -/
theorem of_mem_escaped (c : Char) (hc : c ∈ escaped) : (escape c).head? = some '\\' ∧ '\n' ∉ escape c ∧
    ∀ d ∈ escaped, escape c <+: escape d → c = d := by
  have hall : escapesDiffer escaped = true := by decide +kernel
  have hone := List.all_eq_true.1 hall c hc
  simp only [Bool.and_eq_true, beq_iff_eq, Bool.not_eq_true', List.contains_eq_mem,
    decide_eq_false_iff_not] at hone
  obtain ⟨⟨hhead, hline⟩, hothers⟩ := hone
  refine ⟨hhead, hline, fun d hd hfront => ?_⟩
  have hother := List.all_eq_true.1 hothers d hd
  rw [List.isPrefixOf_iff_prefix.2 hfront] at hother
  simpa using hother

theorem newline_not_mem_escape (c : Char) : '\n' ∉ escape c := by
  rcases escape_cases c with ⟨hself, -, hne⟩ | hmem
  · rw [hself]
    simpa using Ne.symm hne
  · exact (of_mem_escaped c hmem).2.1

theorem escape_ne_nil (c : Char) : escape c ≠ [] := by
  rcases escape_cases c with ⟨hself, -⟩ | hmem
  · rw [hself]
    exact List.cons_ne_nil _ _
  · intro hnil
    have hhead := (of_mem_escaped c hmem).1
    rw [hnil] at hhead
    exact absurd hhead (by simp)

/-- **No escape is the front of another one.** -/
theorem eq_of_escape_front (h : escape c <+: escape d) : c = d := by
  have hhead : (escape c).head? = (escape d).head? := by
    obtain ⟨first, rest, hfirst⟩ := List.exists_cons_of_ne_nil (escape_ne_nil c)
    obtain ⟨more, hmore⟩ := h
    rw [← hmore, hfirst]
    rfl
  rcases escape_cases c with ⟨hc, hcb, -⟩ | hc <;> rcases escape_cases d with ⟨hd, hdb, -⟩ | hd
  · rw [hc, hd] at hhead
    exact Option.some.inj hhead
  · rw [hc, (of_mem_escaped d hd).1] at hhead
    exact absurd (Option.some.inj hhead) hcb
  · rw [hd, (of_mem_escaped c hc).1] at hhead
    exact absurd (Option.some.inj hhead).symm hdb
  · exact (of_mem_escaped c hc).2.2 d hd h

theorem flatMap_escape_injective (h : cs.flatMap escape = ds.flatMap escape) : cs = ds := by
  induction cs generalizing ds with
  | nil =>
    cases ds with
    | nil => rfl
    | cons d ds => exact absurd (List.append_eq_nil_iff.1 h.symm).1 (escape_ne_nil d)
  | cons c cs ih =>
    cases ds with
    | nil => exact absurd (List.append_eq_nil_iff.1 h).1 (escape_ne_nil c)
    | cons d ds =>
      rw [List.flatMap_cons, List.flatMap_cons] at h
      -- Two fronts of one list are comparable.
      have hcd : c = d := by
        have hfront : escape c <+: escape d ++ ds.flatMap escape := h ▸ List.prefix_append _ _
        rcases List.prefix_or_prefix_of_prefix hfront (List.prefix_append _ _) with hle | hge
        · exact eq_of_escape_front hle
        · exact (eq_of_escape_front hge).symm
      subst hcd
      rw [ih (List.append_cancel_left h)]

/-- **A quoted string is read in one way only.** -/
theorem quote_injective (h : quote s = quote t) : s = t := by
  have hinner := (String.append_right_inj _).1 ((String.append_left_inj _).1 h)
  apply String.toList_inj.1
  exact flatMap_escape_injective (String.ofList_inj.1 hinner)

theorem newline_not_mem_quote (s : String) : '\n' ∉ (quote s).toList := by
  simp only [quote, String.toList_append, String.toList_ofList, List.mem_append, List.mem_flatMap, not_or,
    not_exists, not_and]
  refine ⟨⟨by decide, fun c _ => newline_not_mem_escape c⟩, by decide⟩

end JsonString

/-! ## Lines -/

/-- Lines without line breaks are read back from the text that they make up. -/
theorem lines_injective {ls ms : List String} (hls : ∀ l ∈ ls, '\n' ∉ l.toList)
    (hms : ∀ l ∈ ms, '\n' ∉ l.toList) (hls_ne : ls ≠ []) (hms_ne : ms ≠ [])
    (h : String.intercalate "\n" ls = String.intercalate "\n" ms) : ls = ms := by
  have hread : ∀ ks : List String, (∀ l ∈ ks, '\n' ∉ l.toList) → ks ≠ [] →
      (String.intercalate "\n" ks).toList.splitOn '\n' = ks.map String.toList := by
    intro ks hks hne
    rw [String.toList_intercalate]
    exact List.splitOn_intercalate '\n' (List.forall_mem_map.2 hks) (by simpa using hne)
  have hlists := (hread ls hls hls_ne).symm.trans (h ▸ hread ms hms hms_ne)
  exact (List.map_inj_right fun _ _ => String.toList_inj.1).1 hlists

theorem newline_not_mem_toString (n : Nat) : '\n' ∉ (toString n).toList := by
  rw [Nat.toString_eq_ofList_toDigits, String.toList_ofList]
  intro h
  exact absurd (Nat.isDigit_of_mem_toDigits (by decide) (by decide) h) (by decide)

theorem toString_nat_injective {n m : Nat} (h : toString n = toString m) : n = m := by
  rw [Nat.toString_eq_ofList_toDigits, Nat.toString_eq_ofList_toDigits] at h
  rw [← @Nat.ofDigitChars_toDigits 10 n (by decide) (by decide), String.ofList_inj.1 h,
    Nat.ofDigitChars_toDigits (by decide) (by decide)]

namespace ManifestEntry

variable {e e' : ManifestEntry} {name value value' : String}

theorem newline_not_mem_field (hvalue : '\n' ∉ value.toList) : '\n' ∉ (field name value).toList := by
  simp [field, String.toList_append, hvalue, JsonString.newline_not_mem_quote]

theorem newline_not_mem_lines {l : String} (h : l ∈ e.lines) : '\n' ∉ l.toList := by
  have hquote : ∀ name s : String, '\n' ∉ (field name (JsonString.quote s)).toList := fun _ s =>
    newline_not_mem_field (JsonString.newline_not_mem_quote s)
  have hnumber : '\n' ∉ (field "size" (toString e.size)).toList :=
    newline_not_mem_field (newline_not_mem_toString e.size)
  simp only [lines, List.mem_cons, List.not_mem_nil, or_false] at h
  rcases h with rfl | rfl | rfl | rfl | rfl | rfl
  · decide
  · simp [String.toList_append, hquote]
  · simp [String.toList_append, hquote]
  · simp only [String.toList_append, List.mem_append, not_or]
    exact ⟨⟨by decide, hnumber⟩, by decide⟩
  · simp [String.toList_append, hquote]
  · decide

/-- What stands before and behind a value on its line does not matter. -/
theorem value_eq {before behind : String} {value value' : String}
    (h : before ++ field name value ++ behind = before ++ field name value' ++ behind) : value = value' := by
  have hfield := (String.append_right_inj _).1 ((String.append_left_inj _).1 h)
  exact (String.append_right_inj _).1 hfield

/-- The lines of an entry but the last one tell its fields. -/
theorem eq_of_dropLast_lines (h : e.lines.dropLast = e'.lines.dropLast) : e = e' := by
  simp only [lines, List.dropLast_cons_cons, List.dropLast_singleton, List.cons.injEq, and_true, true_and] at h
  obtain ⟨hlabel, hname, hsize, hdigest⟩ := h
  have hdigest' := (String.append_right_inj _).1 ((String.append_right_inj _).1 hdigest)
  obtain ⟨label, fileName, size, digest⟩ := e
  obtain ⟨label', fileName', size', digest'⟩ := e'
  obtain rfl := JsonString.quote_injective (value_eq hlabel)
  obtain rfl := JsonString.quote_injective (value_eq hname)
  obtain rfl := toString_nat_injective (value_eq hsize)
  obtain rfl := JsonString.quote_injective hdigest'
  rfl

end ManifestEntry

namespace Manifest

variable {m m' : Manifest} {es es' : List ManifestEntry}

theorem newline_not_mem_archiveLines {l : String} (h : l ∈ archiveLines es) : '\n' ∉ l.toList := by
  induction es with
  | nil => exact absurd h List.not_mem_nil
  | cons e rest ih =>
    cases rest with
    | nil => exact ManifestEntry.newline_not_mem_lines h
    | cons e' rest =>
      rw [archiveLines] at h
      · rcases List.mem_append.1 h with h | h
        · rcases List.mem_append.1 h with h | h
          · exact ManifestEntry.newline_not_mem_lines (List.dropLast_subset _ h)
          · rw [List.mem_singleton.1 h]
            decide
        · exact ih h
      · simp

/-- The lines of archives begin with those of the first one, and tell whether there are more. -/
theorem archiveLines_cons (e : ManifestEntry) (rest : List ManifestEntry) :
    archiveLines (e :: rest) =
      e.lines.dropLast ++ (if rest = [] then "    \x7d" else "    \x7d,") :: archiveLines rest := by
  cases rest with
  | nil => rfl
  | cons e' rest => rw [archiveLines]; simp; simp

theorem archiveLines_injective (h : archiveLines es = archiveLines es') : es = es' := by
  induction es generalizing es' with
  | nil =>
    cases es' with
    | nil => rfl
    | cons e' rest' =>
      rw [archiveLines_cons] at h
      exact absurd h.symm (List.append_ne_nil_of_right_ne_nil _ (List.cons_ne_nil _ _))
  | cons e rest ih =>
    cases es' with
    | nil =>
      rw [archiveLines_cons] at h
      exact absurd h (List.append_ne_nil_of_right_ne_nil _ (List.cons_ne_nil _ _))
    | cons e' rest' =>
      rw [archiveLines_cons, archiveLines_cons] at h
      have hlength : e.lines.dropLast.length = e'.lines.dropLast.length := by simp [ManifestEntry.lines]
      obtain ⟨hfirst, hrest⟩ := List.append_inj h hlength
      rw [ManifestEntry.eq_of_dropLast_lines hfirst, ih (List.cons.inj hrest).2]

/-- The line that opens the list of archives tells whether there are any. -/
def openingLine (m : Manifest) : String :=
  "  " ++ ManifestEntry.field "archives" (if m.archives = [] then "[]" else "[")

/-- The lines of a manifest. -/
def lines (m : Manifest) : List String :=
  "\x7b" :: ("  " ++ ManifestEntry.field "created" (JsonString.quote m.created) ++ ",") :: m.openingLine ::
    (archiveLines m.archives ++ ((if m.archives = [] then [] else ["  ]"]) ++ ["\x7d"]))

theorem text_eq (m : Manifest) : m.text = String.intercalate "\n" m.lines := by
  rw [text, lines, openingLine]
  by_cases hnil : m.archives = []
  · simp [hnil, archiveLines]
  · simp [hnil]

theorem newline_not_mem_lines {l : String} (h : l ∈ m.lines) : '\n' ∉ l.toList := by
  have hcreated : '\n' ∉ (ManifestEntry.field "created" (JsonString.quote m.created)).toList :=
    ManifestEntry.newline_not_mem_field (JsonString.newline_not_mem_quote _)
  simp only [lines, List.mem_cons, List.mem_append, List.not_mem_nil, or_false] at h
  rcases h with rfl | rfl | rfl | h | h | rfl
  · decide
  · simp [String.toList_append, hcreated]
  · rw [openingLine]
    split <;> decide +kernel
  · exact newline_not_mem_archiveLines h
  · split at h
    · exact absurd h List.not_mem_nil
    · rw [List.mem_singleton.1 h]
      decide
  · decide

theorem lines_ne_nil (m : Manifest) : m.lines ≠ [] := List.cons_ne_nil _ _

/-- **Different manifests have different texts.** -/
theorem text_injective (h : m.text = m'.text) : m = m' := by
  rw [text_eq, text_eq] at h
  have hlines := lines_injective (fun _ => newline_not_mem_lines) (fun _ => newline_not_mem_lines)
    m.lines_ne_nil m'.lines_ne_nil h
  obtain ⟨hcreated, hrest⟩ := List.cons.inj (List.cons.inj hlines).2
  obtain ⟨hopening, hrest⟩ := List.cons.inj hrest
  have hsame := JsonString.quote_injective (ManifestEntry.value_eq hcreated)
  have harchives : m.archives = m'.archives := by
    rw [openingLine, openingLine] at hopening
    by_cases hnil : m.archives = [] <;> by_cases hnil' : m'.archives = []
    · rw [hnil, hnil']
    · rw [if_pos hnil, if_neg hnil'] at hopening
      exact absurd hopening (by decide +kernel)
    · rw [if_neg hnil, if_pos hnil'] at hopening
      exact absurd hopening (by decide +kernel)
    · rw [if_neg hnil, if_neg hnil'] at hrest
      exact archiveLines_injective (List.append_cancel_right hrest)
  obtain ⟨created, archives⟩ := m
  obtain ⟨created', archives'⟩ := m'
  obtain rfl := hsame
  obtain rfl := harchives
  rfl

end Manifest

end MailTemplate
