import MailTemplate.File.Path

/-!
# Directories of paths

The directory that a path is in has the segments of the path without the last one, and without those
before it that are no components.

## Main results

* `Path.segments_ofSegments` — a path that is made of segments has them.
* `Path.exists_parent?` — the segments of the directory that a path is in.
-/

namespace MailTemplate

namespace Path

variable {p q : Path} {segments front : List (List Char)} {name : List Char}

/-- A path that is made of segments has them. -/
theorem segments_ofSegments (hne : segments ≠ []) (h : ∀ s ∈ segments, '/' ∉ s) :
    (ofSegments segments).segments = segments := by
  rw [Path.segments, ofSegments, String.toList_ofList, Text.joinWith_eq_intercalate]
  exact List.splitOn_intercalate '/' h hne

theorem joinWith_segments (p : Path) : Text.joinWith ['/'] p.segments = p.text.toList := by
  rw [Text.joinWith_eq_intercalate, segments, List.intercalate_splitOn]

/-- A path is what its segments make up. -/
theorem ofSegments_segments (p : Path) : ofSegments p.segments = p := by
  rw [ofSegments, joinWith_segments, String.ofList_toList]

theorem eq_of_segments (h : p.segments = q.segments) : p = q := by
  rw [← ofSegments_segments p, h, ofSegments_segments]

theorem not_mem_of_mem_segments {s : List Char} (h : s ∈ p.segments) : '/' ∉ s :=
  Text.not_mem_of_mem_splitOn h

/-- The text of the first segments stands at the front of the text of all. -/
theorem joinWith_prefix {separator : List Char} {first : List (List Char)} (hfirst : first ≠ [])
    (more : List (List Char)) : Text.joinWith separator first <+: Text.joinWith separator (first ++ more) := by
  by_cases hmore : more = []
  · exact ⟨[], by rw [hmore, List.append_nil, List.append_nil]⟩
  · rw [Text.joinWith_append hfirst hmore]
    exact List.prefix_append _ _

/-- A path whose text stands at the front of another one begins where that one does. -/
theorem isAbsolute_eq_of_text (hne : q.text ≠ "") (h : q.text.toList <+: p.text.toList) :
    q.isAbsolute = p.isAbsolute := by
  obtain ⟨rest, hrest⟩ := h
  have hnil : q.text.toList ≠ [] := by
    intro hnil
    exact hne (String.toList_inj.1 hnil)
  obtain ⟨c, cs, hcs⟩ := List.exists_cons_of_ne_nil hnil
  rw [isAbsolute, isAbsolute, ← hrest, hcs]
  rfl

theorem exists_of_isAbsolute (h : p.isAbsolute = true) : ∃ cs, p.text.toList = '/' :: cs := by
  have hhead : p.text.toList.head? = some '/' := by simpa [isAbsolute] using h
  exact List.head?_eq_some_iff.1 hhead

/-- The text before the first separator of a path that begins at the root is empty. -/
theorem segments_eq_of_isAbsolute (h : p.isAbsolute = true) : p.segments = [] :: p.segments.drop 1 := by
  obtain ⟨cs, hcs⟩ := exists_of_isAbsolute h
  rw [Path.segments, hcs, List.splitOn_cons_eq_if_modifyHead]
  rfl

/-- What is dropped from the end of segments are segments that are no components. -/
theorem exists_trail (segments : List (List Char)) :
    ∃ kept trail, segments = kept ++ trail ∧ (∀ s ∈ trail, isTrivial s = true) ∧
      segments.reverse.dropWhile isTrivial = kept.reverse := by
  refine ⟨(segments.reverse.dropWhile isTrivial).reverse,
    (segments.reverse.takeWhile isTrivial).reverse, ?_, ?_, ?_⟩
  · rw [← List.reverse_append, List.takeWhile_append_dropWhile, List.reverse_reverse]
  · intro s hs
    exact List.all_eq_true.1 List.all_takeWhile s (List.mem_reverse.1 hs)
  · rw [List.reverse_reverse]

/-- A path with a leading empty segment before others begins at the root. -/
theorem isAbsolute_of_segments (h : p.segments = [] :: front) (hfront : front ≠ []) :
    p.isAbsolute = true := by
  obtain ⟨next, more, rfl⟩ := List.exists_cons_of_ne_nil hfront
  have htext := joinWith_segments p
  rw [h] at htext
  rw [isAbsolute, ← htext]
  rfl

/-- What the directory of a path is: its segments are those before the name, without some at the end
that are no components, or it is the root. -/
structure IsParent (p q : Path) (front : List (List Char)) : Prop where
  /-- The path gives it. -/
  parent : p.parent? = some q
  /-- Its text stands at the front of the path's. -/
  text : q.text.toList <+: p.text.toList
  /-- It has a text. -/
  text_ne : q.text ≠ ""
  /-- What is left of the segments, or the root. -/
  segments : ∃ kept trail, front = kept ++ trail ∧ (∀ s ∈ trail, isTrivial s = true) ∧
    (q.segments = kept ∨ kept = [[]] ∧ q.segments = [[], []])

/-- **The segments of the directory that a path is in.** -/
theorem exists_parent? (h : p.segments = front ++ [name]) (hfront : front ≠ [])
    (hname : isTrivial name = false) : ∃ q, p.IsParent q front := by
  obtain ⟨first, rest, rfl⟩ := List.exists_cons_of_ne_nil hfront
  have hslash : ∀ s ∈ first :: rest ++ [name], '/' ∉ s := by
    intro s hs
    exact not_mem_of_mem_segments (h ▸ hs)
  have hdrop : (rest ++ [name]).reverse.dropWhile isTrivial = name :: rest.reverse := by
    rw [List.reverse_append, List.reverse_singleton, List.singleton_append,
      List.dropWhile_cons_of_neg (by simp [hname])]
  obtain ⟨kept, trail, rfl, htrail, hkept⟩ := exists_trail rest
  have htext : Text.joinWith ['/'] (first :: kept) <+: p.text.toList := by
    rw [← joinWith_segments, h, show first :: (kept ++ trail) ++ [name] =
      first :: kept ++ (trail ++ [name]) by simp]
    exact joinWith_prefix (List.cons_ne_nil _ _) _
  have hnone : kept = [] → p.parent? =
      if p.isAbsolute then some ⟨"/"⟩ else some (ofSegments [first]) := by
    rintro rfl
    simp only [parent?, h, List.cons_append, hdrop, hkept, List.reverse_nil]
  have hsome : kept ≠ [] → p.parent? = some (ofSegments (first :: kept)) := by
    intro hne
    obtain ⟨last, more, hback⟩ := List.exists_cons_of_ne_nil (List.reverse_ne_nil_iff.2 hne)
    simp only [parent?, h, List.cons_append, hdrop, hkept, hback]
    rw [← hback, List.reverse_reverse]
  have hsegments : (ofSegments (first :: kept)).segments = first :: kept := by
    apply segments_ofSegments (List.cons_ne_nil _ _)
    intro s hs
    apply hslash s
    rcases List.mem_cons.1 hs with rfl | hs
    · exact List.mem_cons_self
    · simp [hs]
  by_cases hroot : kept = [] ∧ p.isAbsolute = true
  · obtain ⟨rfl, habsolute⟩ := hroot
    obtain ⟨cs, hcs⟩ := exists_of_isAbsolute habsolute
    have hfirst : first = [] :=
      (List.cons.inj (h.symm.trans (segments_eq_of_isAbsolute habsolute))).1
    refine ⟨⟨"/"⟩, by rw [hnone rfl, if_pos habsolute], ?_, by decide, [first], trail, rfl, htrail, ?_⟩
    · rw [hcs]
      exact List.prefix_append ['/'] cs
    · rw [hfirst]
      exact .inr ⟨rfl, by decide⟩
  · refine ⟨ofSegments (first :: kept), ?_, ?_, ?_, first :: kept, trail, rfl, htrail, .inl hsegments⟩
    · by_cases hnil : kept = []
      · have hrelative : ¬ p.isAbsolute = true := fun habsolute => hroot ⟨hnil, habsolute⟩
        rw [hnone hnil, if_neg hrelative, hnil]
      · exact hsome hnil
    · rw [ofSegments, String.toList_ofList]
      exact htext
    · -- Only a path that begins at the root has an empty segment at its front.
      intro hempty
      have hnil : first :: kept = [[]] := by
        rw [← hsegments, Path.segments, hempty]
        decide
      obtain ⟨rfl, rfl⟩ := List.cons.inj hnil
      exact hroot ⟨rfl, isAbsolute_of_segments h (by simp)⟩

end Path

end MailTemplate
