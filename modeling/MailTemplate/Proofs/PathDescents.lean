import MailTemplate.Proofs.PathComponents

/-!
# Descents

Going down from a path through entries of ordinary names adds these names to its components, however the
path is spelt, and seen from the path the place below it is the names with slashes between them.  Paths
are ordered by their components, so the places below a path are ordered as their names are.

## Main definitions

* `Path.Precedes` — the order of paths.
* `Path.ofNames` — the path that some names make up.

## Main results

* `Path.components_down` — the components of a path further down.
* `Path.relativeTo_down` — a path further down as seen from where the descent began.
* `Path.eq_of_relativeTo_down` — paths further down differ also as seen from elsewhere.
* `Path.exists_segments_down` — its segments.
* `Path.precedes_ofNames_iff` — paths of names are ordered as the lists of the names.
-/

namespace MailTemplate

namespace Path

variable {root : Path} {name : String} {names more : List String}

/-- The path that some names make up. -/
def ofNames (names : List String) : Path := ⟨String.intercalate "/" names⟩

/-! ## Going down -/

theorem down_cons (root : Path) (name : String) (names : List String) :
    root.down (name :: names) = (root.child name).down names := rfl

theorem down_concat (root : Path) (names : List String) (name : String) :
    root.down (names ++ [name]) = (root.down names).child name := List.foldl_append

theorem forall_isOrdinary_concat (hnames : ∀ n ∈ names, IsOrdinary n) (hname : IsOrdinary name) :
    ∀ n ∈ names ++ [name], IsOrdinary n :=
  List.forall_mem_append.2 ⟨hnames, List.forall_mem_singleton.2 hname⟩

theorem text_child (root : Path) (h : IsOrdinary name) :
    (root.child name).text =
      if root.text = "" ∨ root.text.toList.getLast? = some '/' then root.text ++ name
      else root.text ++ "/" ++ name := by
  rw [child, join, if_neg (by simp [h.isAbsolute_eq])]
  split <;> rfl

theorem IsOrdinary.ne_empty (h : IsOrdinary name) : name ≠ "" := by
  rintro rfl
  exact absurd h.component (by decide)

theorem IsOrdinary.ne_current (h : IsOrdinary name) : name ≠ "." := by
  rintro rfl
  exact absurd h.component (by decide)

theorem IsOrdinary.ne_parent (h : IsOrdinary name) : name ≠ ".." := by
  rintro rfl
  exact absurd h.component (by decide)

/-- The text of an entry ends with its name. -/
theorem exists_text_child (root : Path) (h : IsOrdinary name) :
    ∃ before, (root.child name).text.toList = before ++ name.toList := by
  rw [text_child root h]
  split
  · exact ⟨_, String.toList_append⟩
  · exact ⟨_, String.toList_append⟩

theorem text_child_ne (h : IsOrdinary name) : (root.child name).text ≠ "" := by
  intro htext
  obtain ⟨before, hbefore⟩ := exists_text_child root h
  rw [htext] at hbefore
  exact h.ne_empty (String.toList_inj.1 (List.append_eq_nil_iff.1 hbefore.symm).2)

theorem text_down_ne (hroot : root.text ≠ "") (hnames : ∀ n ∈ names, IsOrdinary n) :
    (root.down names).text ≠ "" := by
  induction names generalizing root with
  | nil => exact hroot
  | cons name names ih =>
    obtain ⟨hname, hnames⟩ := List.forall_mem_cons.1 hnames
    exact ih (text_child_ne hname) hnames

/-- **Going down** adds the names to the components. -/
theorem components_down (hroot : root.text ≠ "") (hnames : ∀ n ∈ names, IsOrdinary n) :
    (root.down names).components = root.components ++ names.map .name := by
  induction names generalizing root with
  | nil => exact (List.append_nil _).symm
  | cons name names ih =>
    obtain ⟨hname, hnames⟩ := List.forall_mem_cons.1 hnames
    rw [down_cons, ih (text_child_ne hname) hnames, components_child hroot hname, List.append_assoc,
      List.map_cons, List.singleton_append]

theorem isAbsolute_down (hroot : root.text ≠ "") (hnames : ∀ n ∈ names, IsOrdinary n) :
    (root.down names).isAbsolute = root.isAbsolute := by
  induction names generalizing root with
  | nil => rfl
  | cons name names ih =>
    obtain ⟨hname, hnames⟩ := List.forall_mem_cons.1 hnames
    rw [down_cons, ih (text_child_ne hname) hnames]
    exact isAbsolute_join_eq hroot hname.isAbsolute_eq

/-- A text that is one segment of a path, and one that counts. -/
structure IsStep (name : String) : Prop where
  /-- It has no separators. -/
  noSlash : '/' ∉ name.toList
  /-- It is not passed over. -/
  counts : isTrivial name.toList = false

namespace IsStep

theorem ne_empty (h : IsStep name) : name ≠ "" := by
  rintro rfl
  exact absurd h.counts (by decide)

theorem isAbsolute_eq (h : IsStep name) : (Path.mk name).isAbsolute = false := by
  refine Bool.eq_false_iff.2 fun habsolute => h.noSlash ?_
  obtain ⟨cs, hcs⟩ := exists_of_isAbsolute habsolute
  exact hcs ▸ List.mem_cons_self

theorem segments_eq (h : IsStep name) : (Path.mk name).segments = [name.toList] :=
  List.splitOn_eq_singleton h.noSlash

end IsStep

theorem isStep_parent : IsStep ".." := ⟨by decide, by decide⟩

theorem IsOrdinary.segments_eq (h : IsOrdinary name) : (Path.mk name).segments = [name.toList] :=
  List.splitOn_eq_singleton h.noSlash

/-- **The segments further down** are those of the path, without an empty one at its end, and the names. -/
theorem exists_segments_down (hroot : root.text ≠ "") (hnames : ∀ n ∈ names, IsOrdinary n)
    (hne : names ≠ []) :
    ∃ first, first ≠ [] ∧ (root.segments = first ∨ root.segments = first ++ [[]]) ∧
      (root.down names).segments = first ++ names.map String.toList := by
  induction names generalizing root with
  | nil => exact absurd rfl hne
  | cons name names ih =>
    obtain ⟨hname, hnames⟩ := List.forall_mem_cons.1 hnames
    obtain ⟨first, hfirst_ne, hfirst, hjoin⟩ := exists_segments_join hroot hname.isAbsolute_eq
    rw [hname.segments_eq] at hjoin
    refine ⟨first, hfirst_ne, hfirst, ?_⟩
    by_cases hnil : names = []
    · subst hnil
      exact hjoin
    · obtain ⟨next, -, hnext, hdown⟩ := @ih (root.child name) (text_child_ne hname) hnames hnil
      -- A name is no empty segment, so none is dropped from the end of what is joined.
      have hsame : next = first ++ [name.toList] := by
        rcases hnext with hnext | hnext
        · exact hnext.symm.trans hjoin
        · have hlast := List.append_inj_right' (hjoin.symm.trans hnext) rfl
          have hname' : name = "" := String.toList_inj.1 (List.cons.inj hlast).1
          exact absurd hname' hname.ne_empty
      rw [down_cons, hdown, hsame, List.append_assoc]
      rfl

theorem IsOrdinary.not_isTrivial (h : IsOrdinary name) : isTrivial name.toList = false := by
  cases htrivial : isTrivial name.toList with
  | false => rfl
  | true =>
    have hnone := component?_eq_none_iff.2 htrivial
    rw [h.component] at hnone
    exact absurd hnone (by simp)

theorem IsOrdinary.isStep (h : IsOrdinary name) : IsStep name := ⟨h.noSlash, h.not_isTrivial⟩

/-- **The directory of an entry** is spelled like the directory that it is in, without segments at the end
that are no components. -/
theorem exists_parent_child (hroot : root.text ≠ "") (h : IsStep name) :
    ∃ q kept trail, (root.child name).parent? = some q ∧ q.text ≠ "" ∧ q.text.toList <+: root.text.toList ∧
      root.segments = kept ++ trail ∧ (∀ s ∈ trail, isTrivial s = true) ∧
        (q.segments = kept ∨ kept = [[]] ∧ q.segments = [[], []]) := by
  obtain ⟨first, hfirst_ne, hfirst, hsegments⟩ := exists_segments_join hroot h.isAbsolute_eq
  rw [h.segments_eq] at hsegments
  obtain ⟨q, hparent⟩ := exists_parent? hsegments hfirst_ne h.counts
  obtain ⟨kept, trail, rfl, htrail, hq⟩ := hparent.segments
  -- An empty segment at the end of the path is no component either.
  obtain ⟨trail', hroot_eq, htrail'⟩ : ∃ trail', root.segments = kept ++ trail' ∧
      ∀ s ∈ trail', isTrivial s = true := by
    rcases hfirst with hfirst | hfirst
    · exact ⟨trail, hfirst, htrail⟩
    · refine ⟨trail ++ [[]], hfirst.trans (List.append_assoc ..), fun s hs => ?_⟩
      rcases List.mem_append.1 hs with hs | hs
      · exact htrail s hs
      · exact List.mem_singleton.1 hs ▸ rfl
  refine ⟨q, kept, trail', hparent.parent, hparent.text_ne, ?_, hroot_eq, htrail', hq⟩
  rw [← joinWith_segments q, ← joinWith_segments root, hroot_eq]
  rcases hq with hq | ⟨rfl, hq⟩
  · rw [hq]
    exact joinWith_prefix (hq ▸ List.splitOn_ne_nil _ _) trail'
  · rw [hq]
    cases trail' with
    | nil =>
      have htext := joinWith_segments root
      rw [hroot_eq] at htext
      exact absurd (String.toList_inj.1 htext.symm) hroot
    | cons s rest => exact List.prefix_append ['/'] _

/-! ## Seen from above -/

/-- The path of names ends with the last of them. -/
theorem suffix_ofNames (front : List String) (name : String) :
    name.toList <:+ (ofNames (front ++ [name])).text.toList := by
  induction front with
  | nil =>
    have htext : (ofNames ([] ++ [name])).text = name := by
      rw [List.nil_append, ofNames, String.intercalate_singleton]
    exact htext ▸ List.suffix_rfl
  | cons first front ih =>
    obtain ⟨next, rest, hrest⟩ := List.exists_cons_of_ne_nil (show front ++ [name] ≠ [] by simp)
    rw [List.cons_append, ofNames, hrest, String.intercalate_cons_cons, ← hrest, String.toList_append]
    exact ih.trans (List.suffix_append _ _)

theorem ofNames_eq (names : List String) :
    ofNames names = ofSegments (names.map String.toList) := by
  have htext : (String.intercalate "/" names).toList =
      Text.joinWith ['/'] (names.map String.toList) := by
    rw [String.toList_intercalate, Text.joinWith_eq_intercalate]
    rfl
  rw [ofNames, ofSegments, ← htext, String.ofList_toList]

/-- **A path of names** has them for its components. -/
theorem components_ofNames (hnames : ∀ n ∈ names, IsOrdinary n) (hne : names ≠ []) :
    (ofNames names).components = names.map .name := by
  have hsegments : names.map String.toList ≠ [] := by simpa using hne
  have hslash : ∀ s ∈ names.map String.toList, '/' ∉ s :=
    List.forall_mem_map.2 fun n hn => (hnames n hn).noSlash
  have htrivial : ∀ s ∈ names.map String.toList, isTrivial s = false :=
    List.forall_mem_map.2 fun n hn => (hnames n hn).not_isTrivial
  rw [ofNames_eq, (trim_ofSegments hsegments hslash
    (fun s hs => htrivial s (List.mem_of_mem_head? hs))
    (fun s hs => htrivial s (List.mem_of_mem_getLast? hs))).2]
  clear hsegments hslash htrivial hne
  induction names with
  | nil => rfl
  | cons name names ih =>
    obtain ⟨hname, hnames⟩ := List.forall_mem_cons.1 hnames
    rw [List.map_cons, List.filterMap_cons_some hname.component, ih hnames, List.map_cons]

theorem isPlace_ofNames (hnames : ∀ n ∈ names, IsOrdinary n) (hne : names ≠ []) :
    (ofNames names).IsPlace := by
  have hcomponents := components_ofNames hnames hne
  refine ⟨by simpa [hcomponents] using hne, ?_⟩
  rw [hcomponents]
  exact List.forall_mem_map.2 fun n _ => ⟨n, rfl⟩

/-- Going down is joining the path of the names. -/
theorem down_eq_join (hroot : root.text ≠ "") (hnames : ∀ n ∈ names, IsOrdinary n) (hne : names ≠ []) :
    root.down names = root.join (ofNames names) := by
  induction names generalizing root with
  | nil => exact absurd rfl hne
  | cons name names ih =>
    obtain ⟨hname, hnames'⟩ := List.forall_mem_cons.1 hnames
    cases names with
    | nil => exact congrArg root.join (congrArg Path.mk String.intercalate_singleton.symm)
    | cons next names =>
      have hlast : (root.child name).text.toList.getLast? ≠ some '/' := by
        intro hlast
        obtain ⟨before, hbefore⟩ := exists_text_child root hname
        cases hc : name.toList.getLast? with
        | none => exact hname.ne_empty (String.toList_inj.1 (List.getLast?_eq_none_iff.1 hc))
        | some c =>
          rw [hbefore, List.getLast?_append, hc, Option.some_or] at hlast
          exact hname.noSlash (List.mem_of_getLast? (hc.trans hlast))
      rw [down_cons, ih (text_child_ne hname) hnames' (List.cons_ne_nil _ _), join,
        if_neg (by simp [(isPlace_ofNames hnames' (List.cons_ne_nil _ _)).isAbsolute_eq]),
        if_neg (not_or.2 ⟨text_child_ne hname, hlast⟩), join,
        if_neg (by simp [(isPlace_ofNames hnames (List.cons_ne_nil _ _)).isAbsolute_eq]),
        text_child root hname, ofNames, ofNames, String.intercalate_cons_cons]
      split
      · simp only [String.append_assoc]
      · simp only [String.append_assoc]

/-- Names with slashes between them tell the names. -/
theorem segments_ofNames (hslash : ∀ n ∈ names, '/' ∉ n.toList) (hne : names ≠ []) :
    (ofNames names).segments = names.map String.toList := by
  rw [ofNames_eq, segments_ofSegments (by simpa using hne) (List.forall_mem_map.2 hslash)]

theorem segments_ofNames_concat (hnames : ∀ n ∈ names, IsOrdinary n) (h : IsStep name) :
    (ofNames (names ++ [name])).segments = names.map String.toList ++ [name.toList] := by
  have hslash : ∀ n ∈ names ++ [name], '/' ∉ n.toList :=
    List.forall_mem_append.2 ⟨fun n hn => (hnames n hn).noSlash, List.forall_mem_singleton.2 h.noSlash⟩
  rw [segments_ofNames hslash (by simp), List.map_append, List.map_singleton]

theorem isAbsolute_ofNames_concat (hnames : ∀ n ∈ names, IsOrdinary n) (h : IsStep name) :
    (ofNames (names ++ [name])).isAbsolute = false := by
  refine Bool.eq_false_iff.2 fun habsolute => ?_
  -- An absolute path has an empty first segment.
  have hfirst := segments_eq_of_isAbsolute habsolute
  rw [segments_ofNames_concat hnames h] at hfirst
  cases names with
  | nil => exact h.ne_empty (String.toList_inj.1 (List.cons.inj hfirst).1)
  | cons first names =>
    exact (hnames first List.mem_cons_self).ne_empty (String.toList_inj.1 (List.cons.inj hfirst).1)

/-- **Seen from where the descent began** a path further down is its names. -/
theorem relativeTo_down (hroot : root.text ≠ "") (hnames : ∀ n ∈ names, IsOrdinary n)
    (hne : names ≠ []) : (root.down names).relativeTo root = String.intercalate "/" names := by
  have hcomponents := components_ofNames hnames hne
  have hplace := isPlace_ofNames hnames hne
  have hinner : (ofNames names).inner = names.map .name := hplace.inner_eq.trans hcomponents
  have hstrip := trim_strip_join hroot hplace.isAbsolute_eq (by simpa [hinner] using hne)
  rw [down_eq_join hroot hnames hne, relativeTo, hstrip.2, hinner, List.map_map]
  exact congrArg (String.intercalate "/") (List.map_id _)

/-! ## Steps below a directory -/

/-- A step adds its segment to those of a path that does not end with a separator. -/
theorem segments_child (hroot : root.text ≠ "") (hlast : root.segments.getLast? ≠ some []) (h : IsStep name) :
    (root.child name).segments = root.segments ++ [name.toList] := by
  obtain ⟨first, -, hfirst, hjoin⟩ := exists_segments_join hroot h.isAbsolute_eq
  rw [child, hjoin, h.segments_eq]
  rcases hfirst with hfirst | hfirst
  · rw [hfirst]
  · rw [hfirst, List.getLast?_concat] at hlast
    exact absurd rfl hlast

/-- Names and a step that are joined to a path are the step from where the names lead. -/
theorem join_ofNames_concat (hroot : root.text ≠ "") (hnames : ∀ n ∈ names, IsOrdinary n) (h : IsStep name) :
    root.join (ofNames (names ++ [name])) = (root.down names).child name := by
  by_cases hne : names = []
  · subst hne
    rw [List.nil_append, ofNames, String.intercalate_singleton]
    rfl
  have hsegments : (ofNames names).segments = names.map String.toList :=
    segments_ofNames (fun n hn => (hnames n hn).noSlash) hne
  have hlast : (ofNames names).segments.getLast? ≠ some [] := by
    rw [hsegments, List.getLast?_map]
    intro hempty
    obtain ⟨last, hmem, hnil⟩ := Option.map_eq_some_iff.1 hempty
    exact (hnames last (List.mem_of_getLast? hmem)).ne_empty (String.toList_inj.1 hnil)
  have hstep : (ofNames names).child name = ofNames (names ++ [name]) := by
    apply eq_of_segments
    rw [segments_child (isPlace_ofNames hnames hne).text_ne hlast h, hsegments,
      segments_ofNames_concat hnames h]
  rw [← hstep, child, ← join_assoc, ← down_eq_join hroot hnames hne]
  rfl

/-- **The directory of a step** behind names is where the names lead, letter by letter. -/
theorem parent?_child_down (hroot : root.text ≠ "") (hnames : ∀ n ∈ names, IsOrdinary n) (hne : names ≠ [])
    (h : IsStep name) : ((root.down names).child name).parent? = some (root.down names) := by
  obtain ⟨front, last, rfl⟩ : ∃ front last, names = front ++ [last] :=
    ⟨_, _, (List.dropLast_concat_getLast hne).symm⟩
  have hlast : isTrivial last.toList = false := (hnames last (by simp)).not_isTrivial
  obtain ⟨first, hfirst_ne, -, hsegments⟩ := exists_segments_down hroot hnames hne
  obtain ⟨s, rest, rfl⟩ := List.exists_cons_of_ne_nil hfirst_ne
  have hsegments : (root.down (front ++ [last])).segments =
      s :: (rest ++ front.map String.toList ++ [last.toList]) := by
    rw [hsegments, List.map_append]
    simp
  have hend : (root.down (front ++ [last])).segments.getLast? ≠ some [] := by
    rw [hsegments, ← List.cons_append, List.getLast?_concat]
    intro hnil
    rw [Option.some.inj hnil] at hlast
    exact absurd hlast (by decide)
  -- Neither the step nor the last name is dropped from the end.
  rw [parent?, segments_child (text_down_ne hroot hnames) hend h, hsegments]
  have hback : (rest ++ front.map String.toList ++ [last.toList] ++ [name.toList]).reverse.dropWhile isTrivial =
      name.toList :: last.toList :: (rest ++ front.map String.toList).reverse := by
    rw [List.reverse_append, List.reverse_singleton, List.singleton_append,
      List.dropWhile_cons_of_neg (by simp [h.counts]), List.reverse_append]
    rfl
  simp only [List.cons_append, hback, List.dropWhile_cons_of_neg, hlast, Bool.false_eq_true, not_false_eq_true]
  rw [List.reverse_cons, List.reverse_reverse, ← hsegments, ofSegments_segments]

/-! ## Told apart from above -/

section Apart

variable {p q : Path} {xs ys : List String}

/-- A text that can be told when it is written among others with slashes between them. -/
def IsWritable (s : String) : Prop := s ≠ "" ∧ '/' ∉ s.toList

/-- Texts without slashes can be told from what is written with slashes between them. -/
theorem eq_of_intercalate (hxs : ∀ x ∈ xs, IsWritable x) (hys : ∀ y ∈ ys, IsWritable y)
    (h : String.intercalate "/" xs = String.intercalate "/" ys) : xs = ys := by
  have hnil : ∀ zs : List String, (∀ z ∈ zs, IsWritable z) → String.intercalate "/" zs = "" → zs = [] := by
    intro zs hzs hempty
    cases zs with
    | nil => rfl
    | cons z rest =>
      have hsegments := segments_ofNames (fun z hz => (hzs z hz).2) (List.cons_ne_nil z rest)
      rw [ofNames, hempty] at hsegments
      have hz := (List.cons.inj hsegments).1
      exact absurd (String.toList_inj.1 hz.symm) (hzs z List.mem_cons_self).1
  by_cases hne : xs = []
  · subst hne
    exact (hnil ys hys h.symm).symm
  by_cases hne' : ys = []
  · subst hne'
    exact hnil xs hxs h
  have hsegments := segments_ofNames (fun x hx => (hxs x hx).2) hne
  have hsegments' := segments_ofNames (fun y hy => (hys y hy).2) hne'
  have hsame : ofNames xs = ofNames ys := congrArg Path.mk h
  rw [hsame, hsegments'] at hsegments
  exact ((List.map_inj_right fun _ _ => String.toList_inj.1).1 hsegments).symm

theorem intercalate_of_cons {a : String}
    (h : String.intercalate "/" (a :: xs) = String.intercalate "/" (a :: ys)) :
    String.intercalate "/" xs = String.intercalate "/" ys := by
  have hlonger : ∀ rest, a ≠ a ++ "/" ++ rest := by
    intro rest heq
    have hsize := congrArg String.utf8ByteSize heq
    rw [String.utf8ByteSize_append, String.utf8ByteSize_append] at hsize
    have hslash : "/".utf8ByteSize = 1 := by decide
    omega
  cases xs with
  | nil =>
    cases ys with
    | nil => rfl
    | cons y ys =>
      rw [String.intercalate_singleton, String.intercalate_cons_cons] at h
      exact absurd h (hlonger _)
  | cons x xs =>
    cases ys with
    | nil =>
      rw [String.intercalate_singleton, String.intercalate_cons_cons] at h
      exact absurd h.symm (hlonger _)
    | cons y ys =>
      rw [String.intercalate_cons_cons, String.intercalate_cons_cons] at h
      exact (String.append_right_inj (a ++ "/")).1 h

theorem head?_intercalate_ne (hxs : ∀ x ∈ xs, IsWritable x) :
    (String.intercalate "/" xs).toList.head? ≠ some '/' := by
  intro hhead
  cases xs with
  | nil => exact absurd hhead (by decide)
  | cons x xs =>
    obtain ⟨hne, hslash⟩ := hxs x List.mem_cons_self
    obtain ⟨c, cs, hcs⟩ := List.exists_cons_of_ne_nil
      (show x.toList ≠ [] from fun hnil => hne (String.toList_inj.1 hnil))
    have hc : c = '/' := by
      cases xs with
      | nil => simpa [hcs] using hhead
      | cons y ys => simpa [String.intercalate_cons_cons, String.toList_append, hcs] using hhead
    exact hslash (hcs ▸ hc ▸ List.mem_cons_self)

/-- The components behind the first are written without slashes. -/
theorem isWritable_of_mem_tail (hp : p.text ≠ "") :
    ∀ s ∈ p.components.tail.map Component.text, IsWritable s := by
  obtain ⟨c, hc⟩ := exists_components_cons hp
  rw [hc, List.tail_cons]
  refine List.forall_mem_map.2 fun d hd => ?_
  obtain ⟨segment, hsegment, hcomponent⟩ := List.mem_filterMap.1 hd
  have hslash := not_mem_of_mem_segments (List.mem_of_mem_drop hsegment)
  unfold component? at hcomponent
  split at hcomponent
  · exact absurd hcomponent (by simp)
  next htrivial =>
  split at hcomponent
  · obtain rfl := Option.some.inj hcomponent
    exact ⟨by decide, by decide⟩
  · obtain rfl := Option.some.inj hcomponent
    refine ⟨fun hempty => htrivial ?_, ?_⟩
    · have hnil : segment = [] := by
        rw [← String.toList_ofList (l := segment)]
        exact congrArg String.toList hempty
      rw [hnil]
      rfl
    · rw [Component.text, String.toList_ofList]
      exact hslash

/-- What a path that starts with another one is as seen from it. -/
theorem relativeTo_of_startsWith (hroot : root.text ≠ "") (hp : p.text ≠ "")
    (hstarts : p.startsWith root = true) : ∃ rest, p.components.map Component.text =
      root.components.map Component.text ++ rest ∧ p.relativeTo root = String.intercalate "/" rest ∧
        ∀ s ∈ rest, IsWritable s := by
  obtain ⟨rest, hrest⟩ := startsWith_iff.1 hstarts
  obtain ⟨r, hr⟩ := exists_components_cons hroot
  refine ⟨rest.map Component.text, by rw [← hrest, List.map_append], ?_, ?_⟩
  · rw [relativeTo, components_strip hroot hp hstarts, ← hrest, List.drop_left]
  · have htail := isWritable_of_mem_tail hp
    rw [← hrest, hr, List.cons_append, List.tail_cons, List.map_append] at htail
    exact fun s hs => htail s (List.mem_append_right _ hs)

/-- Any other path is seen whole. -/
theorem relativeTo_of_not_startsWith (hnot : ¬ p.startsWith root = true) :
    p.relativeTo root = String.intercalate "/" (p.components.map Component.text) := by
  rw [relativeTo, strip, strip?, if_neg hnot, Option.getD_none]

/-- **Two paths that begin alike** are told apart as seen from a third one, if either both start with it or
none does. -/
theorem map_text_eq_of_relativeTo (hroot : root.text ≠ "") (hp : p.text ≠ "") (hq : q.text ≠ "")
    (hhead : p.components.head? = q.components.head?) (hstarts : p.startsWith root = q.startsWith root)
    (h : p.relativeTo root = q.relativeTo root) :
    p.components.map Component.text = q.components.map Component.text := by
  by_cases hp_starts : p.startsWith root = true
  · obtain ⟨rest, hrest, hseen, hwritable⟩ := relativeTo_of_startsWith hroot hp hp_starts
    obtain ⟨rest', hrest', hseen', hwritable'⟩ := relativeTo_of_startsWith hroot hq (hstarts ▸ hp_starts)
    rw [hseen, hseen'] at h
    rw [hrest, hrest', eq_of_intercalate hwritable hwritable' h]
  · rw [relativeTo_of_not_startsWith hp_starts, relativeTo_of_not_startsWith (hstarts ▸ hp_starts)] at h
    have htail := isWritable_of_mem_tail hp
    have htail' := isWritable_of_mem_tail hq
    obtain ⟨c, hc⟩ := exists_components_cons hp
    obtain ⟨c', hc'⟩ := exists_components_cons hq
    rw [hc, hc'] at hhead h ⊢
    rw [hc, List.tail_cons] at htail
    rw [hc', List.tail_cons] at htail'
    obtain rfl : c = c' := Option.some.inj hhead
    rw [List.map_cons, List.map_cons] at h ⊢
    refine congrArg _ (eq_of_intercalate htail htail' ?_)
    exact intercalate_of_cons h

/-- **Paths below one that is joined to another one** differ as seen from that one. -/
theorem eq_of_relativeTo_down {o : Path} (hroot : root.text ≠ "") (hnames : ∀ n ∈ names, IsOrdinary n)
    (hmore : ∀ n ∈ more, IsOrdinary n)
    (h : ((root.join o).down names).relativeTo root = ((root.join o).down more).relativeTo root) :
    names = more := by
  have htext := text_ne_of_join hroot o
  have hp := text_down_ne htext hnames
  have hq := text_down_ne htext hmore
  have hdown := components_down htext hnames
  have hdown' := components_down htext hmore
  obtain ⟨c, hc⟩ := exists_components_cons htext
  have hhead : ((root.join o).down names).components.head? = ((root.join o).down more).components.head? := by
    rw [hdown, hdown', hc]
    rfl
  -- Only an absolute path can be below the root in one case and elsewhere in the other one, and then it is
  -- seen from the root of the file system.
  have hmixed : ∀ ns ms : List String, (∀ n ∈ ns, IsOrdinary n) → (∀ m ∈ ms, IsOrdinary m) →
      ((root.join o).down ns).startsWith root = true → ¬ ((root.join o).down ms).startsWith root = true →
        ((root.join o).down ns).relativeTo root ≠ ((root.join o).down ms).relativeTo root := by
    intro ns ms hns hms hstarts hnot hsame
    have ho : o.isAbsolute = true := by
      cases ho : o.isAbsolute with
      | true => rfl
      | false =>
        refine absurd (startsWith_iff.2 ?_) hnot
        rw [components_down htext hms, components_join hroot ho, List.append_assoc]
        exact List.prefix_append _ _
    obtain ⟨rest, -, hseen, hwritable⟩ :=
      relativeTo_of_startsWith hroot (text_down_ne htext hns) hstarts
    have habsolute : ((root.join o).down ms).isAbsolute = true := by
      rw [isAbsolute_down htext hms, join_of_isAbsolute root ho, ho]
    rw [hseen, relativeTo_of_not_startsWith hnot, components_eq, lead_of_isAbsolute habsolute] at hsame
    refine head?_intercalate_ne hwritable ?_
    rw [hsame]
    cases ((root.join o).down ms).inner with
    | nil => rfl
    | cons d rest =>
      rw [List.singleton_append, List.map_cons, List.map_cons, String.intercalate_cons_cons, Component.text]
      simp [String.toList_append]
  have htexts := map_text_eq_of_relativeTo hroot hp hq hhead ?_ h
  · rw [hdown, hdown', List.map_append, List.map_append, List.map_map, List.map_map] at htexts
    exact ((List.map_id _).symm.trans (List.append_cancel_left htexts)).trans (List.map_id _)
  · rw [Bool.eq_iff_iff]
    constructor
    · intro hstarts
      exact Decidable.byContradiction fun hnot => hmixed _ _ hnames hmore hstarts hnot h
    · intro hstarts
      exact Decidable.byContradiction fun hnot => hmixed _ _ hmore hnames hstarts hnot h.symm

end Apart

/-! ## The order of paths -/

/-- Where a kind of component stands in the order: the root first, and names behind all others. -/
def Component.rank : Component → Nat
  | .root => 0
  | .current => 1
  | .parent => 2
  | .name _ => 3

/-- The order of components: names are ordered by their texts. -/
def Component.Precedes (c d : Component) : Prop :=
  c.rank < d.rank ∨ c.rank = d.rank ∧ c.text < d.text

/-- The order of paths: by their components, the first ones first. -/
def Precedes (p q : Path) : Prop := List.Lex Component.Precedes p.components q.components

theorem Component.not_precedes_self (c : Component) : ¬ c.Precedes c := by
  rintro (h | ⟨-, h⟩)
  · exact Nat.lt_irrefl _ h
  · exact String.lt_irrefl _ h

theorem not_precedes_self (p : Path) : ¬ p.Precedes p := by
  have hlist : ∀ cs : List Component, ¬ List.Lex Component.Precedes cs cs := by
    intro cs
    induction cs with
    | nil => exact List.not_lex_nil
    | cons c cs ih =>
      intro h
      rcases List.cons_lex_cons_iff.1 h with h | ⟨-, h⟩
      · exact c.not_precedes_self h
      · exact ih h
  exact hlist _

/-- **Paths of names are ordered as the lists of the names.** -/
theorem precedes_ofNames_iff (hnames : ∀ n ∈ names, IsOrdinary n) (hne : names ≠ [])
    (hmore : ∀ n ∈ more, IsOrdinary n) (hmore_ne : more ≠ []) :
    (ofNames names).Precedes (ofNames more) ↔ names < more := by
  have hlist : ∀ ns ms : List String,
      List.Lex Component.Precedes (ns.map .name) (ms.map .name) ↔ ns < ms := by
    intro ns ms
    induction ns generalizing ms with
    | nil =>
      cases ms with
      | nil => simp
      | cons m ms => simp [List.nil_lt_cons]
    | cons n ns ih =>
      cases ms with
      | nil => simp
      | cons m ms =>
        rw [List.map_cons, List.map_cons, List.cons_lex_cons_iff, List.cons_lt_cons_iff, ih]
        simp [Component.Precedes, Component.rank, Component.text]
  rw [Precedes, components_ofNames hnames hne, components_ofNames hmore hmore_ne, hlist]

end Path

end MailTemplate
