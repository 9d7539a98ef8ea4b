import MailTemplate.Proofs.PathParents

/-!
# Components of paths

Joining a relative path to another one puts its components behind that one's, less a leading dot, which
is no component there.  Stripping the other one takes them away again, whatever separators and dots stand
between them, and the directory of a path has its components but the last.

## Main definitions

* `Path.lead`, `Path.inner` — the component that only a leading segment can be, and all others.
* `Path.IsPlace` — a path that consists of ordinary names.

## Main results

* `Path.components_join` — the components of a joined path.
* `Path.join_assoc` — joining paths is associative.
* `Path.components_strip`, `Path.trim_strip_join` — a path as seen from one that it starts with.
* `Path.Trim.components_parent?` — the components of the directory that a path is in.
* `Path.components_child` — the components of an entry of a directory.
-/

namespace MailTemplate

namespace Path

/-- The component that a path begins with besides those of its segments. -/
def lead (p : Path) : List Component :=
  if p.isAbsolute then [.root] else if p.segments.head? = some ['.'] then [.current] else []

/-- The components of the segments of a path. -/
def inner (p : Path) : List Component := p.segments.filterMap component?

variable {p q root rel : Path} {segments : List (List Char)}

theorem components_eq (p : Path) : p.components = p.lead ++ p.inner := by
  unfold components lead inner
  dsimp only
  split
  · rfl
  · split
    · rfl
    · rfl

theorem lead_of_isAbsolute (h : p.isAbsolute = true) : p.lead = [.root] := if_pos h

theorem component?_eq_none_iff {segment : List Char} :
    component? segment = none ↔ isTrivial segment = true := by
  unfold component?
  split
  · next h => exact iff_of_true rfl h
  · next h =>
    refine iff_of_false ?_ h
    split <;> simp

theorem filterMap_component?_of_trivial (h : ∀ s ∈ segments, isTrivial s = true) :
    segments.filterMap component? = [] :=
  List.filterMap_eq_nil_iff.2 fun s hs => component?_eq_none_iff.2 (h s hs)

/-! ## Going down -/

theorem inner_append_separator (front back : List Char) :
    inner ⟨String.ofList (front ++ '/' :: back)⟩ =
      inner ⟨String.ofList front⟩ ++ inner ⟨String.ofList back⟩ := by
  simp only [inner, Path.segments, String.toList_ofList]
  rw [List.splitOn_append_cons_self, List.filterMap_append]

theorem inner_nil : inner ⟨""⟩ = [] := by decide

/-- The segments of a joined path are those of its parts. -/
theorem inner_join (p : Path) (hq : q.isAbsolute = false) : (p.join q).inner = p.inner ++ q.inner := by
  have hmk : ∀ r : Path, (⟨String.ofList r.text.toList⟩ : Path) = r := fun r => by
    rw [String.ofList_toList]
  rw [join, if_neg (by simp [hq])]
  split
  · next hend =>
    rcases hend with hempty | hlast
    · rw [hempty, String.empty_append]
      rw [show p = ⟨""⟩ from congrArg Path.mk hempty, inner_nil, List.nil_append]
    · -- The separator that ends the first text makes one empty segment.
      obtain ⟨front, hfront⟩ := List.getLast?_eq_some_iff.1 hlast
      have hp : p = ⟨String.ofList (front ++ '/' :: [])⟩ := by rw [← hfront, hmk]
      have hpq : (⟨p.text ++ q.text⟩ : Path) = ⟨String.ofList (front ++ '/' :: q.text.toList)⟩ := by
        rw [← hmk ⟨p.text ++ q.text⟩]
        simp only [String.toList_append, hfront, List.append_assoc, List.singleton_append]
      rw [hpq, inner_append_separator, hp, inner_append_separator, hmk, String.ofList_nil, inner_nil,
        List.append_nil]
  · have hpq : (⟨p.text ++ "/" ++ q.text⟩ : Path) =
        ⟨String.ofList (p.text.toList ++ '/' :: q.text.toList)⟩ := by
      rw [← hmk ⟨p.text ++ "/" ++ q.text⟩]
      simp [String.toList_append]
    rw [hpq, inner_append_separator, hmk, hmk]

theorem isAbsolute_join (hp : p.isAbsolute = true) (q : Path) : (p.join q).isAbsolute = true := by
  have hhead : p.text.toList.head? = some '/' := by simpa [isAbsolute] using hp
  obtain ⟨cs, hcs⟩ := List.head?_eq_some_iff.1 hhead
  unfold join
  split
  · assumption
  · split
    · simp [isAbsolute, String.toList_append, hcs]
    · simp [isAbsolute, String.toList_append, hcs]

theorem text_ne_of_isAbsolute (h : p.isAbsolute = true) : p.text ≠ "" := by
  intro htext
  rw [isAbsolute, htext] at h
  exact absurd h (by decide)

/-- The segments of a joined path are those of its parts, without the empty one behind a separator that
ends the first part. -/
theorem exists_segments_join (hp : p.text ≠ "") (hq : q.isAbsolute = false) :
    ∃ first, first ≠ [] ∧ (p.segments = first ∨ p.segments = first ++ [[]]) ∧
      (p.join q).segments = first ++ q.segments := by
  have hne : ∀ cs : List Char, cs.splitOn '/' ≠ [] := fun cs => List.splitOn_ne_nil _ _
  rw [join, if_neg (by simp [hq])]
  by_cases hlast : p.text.toList.getLast? = some '/'
  · obtain ⟨front, hfront⟩ := List.getLast?_eq_some_iff.1 hlast
    refine ⟨front.splitOn '/', hne front, .inr ?_, ?_⟩
    · rw [Path.segments, hfront, List.splitOn_append_cons_self]
      rfl
    · rw [if_pos (.inr hlast), Path.segments]
      simp only [String.toList_append, hfront, List.append_assoc, List.singleton_append]
      exact List.splitOn_append_cons_self ..
  · refine ⟨p.segments, hne _, .inl rfl, ?_⟩
    rw [if_neg (not_or.2 ⟨hp, hlast⟩), Path.segments]
    simp only [String.toList_append, List.append_assoc]
    exact List.splitOn_append_cons_self ..

theorem isAbsolute_join_eq (hp : p.text ≠ "") (hq : q.isAbsolute = false) :
    (p.join q).isAbsolute = p.isAbsolute := by
  obtain ⟨c, cs, hcs⟩ := List.exists_cons_of_ne_nil
    (show p.text.toList ≠ [] from fun hnil => hp (String.toList_inj.1 hnil))
  rw [join, if_neg (by simp [hq])]
  split
  · simp [isAbsolute, String.toList_append, hcs]
  · simp [isAbsolute, String.toList_append, hcs]

/-- What is written between a path and what is below it. -/
def separator (p : Path) : String :=
  if p.text = "" ∨ p.text.toList.getLast? = some '/' then "" else "/"

theorem eq_of_text (h : p.text = q.text) : p = q := congrArg Path.mk h

theorem text_join (p : Path) (hq : q.isAbsolute = false) :
    (p.join q).text = p.text ++ (p.separator ++ q.text) := by
  rw [join, if_neg (by simp [hq]), separator]
  split
  · rw [String.empty_append]
  · exact String.append_assoc

/-- To a path without a text nothing is added. -/
theorem empty_join (q : Path) : (⟨""⟩ : Path).join q = q := by
  unfold join
  split
  · rfl
  · rw [if_pos (.inl rfl), String.empty_append]

/-- The text of a path decides what is written behind it. -/
theorem separator_append {before : String} (hq : q.text ≠ "") :
    separator ⟨before ++ q.text⟩ = q.separator := by
  have hne : before ++ q.text ≠ "" := by
    intro hempty
    have hnil := congrArg String.toList hempty
    rw [String.toList_append] at hnil
    exact hq (String.toList_inj.1 (List.append_eq_nil_iff.1 hnil).2)
  simp [separator, hne, hq]

/-- Nothing is written behind a separator. -/
theorem separator_separated (p : Path) : separator ⟨p.text ++ p.separator⟩ = "" := by
  by_cases hp : p.text = "" ∨ p.text.toList.getLast? = some '/'
  · simp [separator, hp]
  · simp [separator, hp, String.toList_append]

/-- **Joining is associative,** also when paths are absolute or empty. -/
theorem join_assoc (p q r : Path) : (p.join q).join r = p.join (q.join r) := by
  by_cases hr : r.isAbsolute = true
  · rw [join_of_isAbsolute _ hr, join_of_isAbsolute _ hr, join_of_isAbsolute _ hr]
  have hr' : r.isAbsolute = false := Bool.eq_false_iff.2 hr
  by_cases hq : q.isAbsolute = true
  · rw [join_of_isAbsolute p hq, join_of_isAbsolute p (isAbsolute_join hq r)]
  have hq' : q.isAbsolute = false := Bool.eq_false_iff.2 hq
  have hpq : p.join q = ⟨p.text ++ p.separator ++ q.text⟩ := by
    rw [String.append_assoc, ← text_join p hq']
  by_cases hempty : q.text = ""
  · -- An empty path adds a separator, and nothing is added behind one.
    obtain rfl : q = ⟨""⟩ := congrArg Path.mk hempty
    have hright : join ⟨""⟩ r = r := by simp [join]
    rw [hright, hpq]
    apply eq_of_text
    rw [text_join _ hr', text_join _ hr', String.append_empty, separator_separated, String.empty_append,
      String.append_assoc]
  · have hqr : (q.join r).isAbsolute = false := (isAbsolute_join_eq hempty hr').trans hq'
    rw [hpq]
    apply eq_of_text
    rw [text_join _ hr', text_join _ hqr, text_join _ hr', separator_append hempty]
    simp only [String.append_assoc]

theorem text_join_ne (hp : p.text ≠ "") (hq : q.isAbsolute = false) : (p.join q).text ≠ "" := by
  rw [text_join p hq]
  intro hempty
  have hnil := congrArg String.toList hempty
  rw [String.toList_append] at hnil
  exact hp (String.toList_inj.1 (List.append_eq_nil_iff.1 hnil).1)

/-- Whatever is joined to a path, there is a path. -/
theorem text_ne_of_join (hp : p.text ≠ "") (q : Path) : (p.join q).text ≠ "" := by
  by_cases hq : q.isAbsolute = true
  · rw [join_of_isAbsolute p hq]
    exact text_ne_of_isAbsolute hq
  · exact text_join_ne hp (Bool.eq_false_iff.2 hq)

/-- A joined path begins as its first part does. -/
theorem lead_join (hp : p.text ≠ "") (hq : q.isAbsolute = false) : (p.join q).lead = p.lead := by
  obtain ⟨first, hne, hfirst, hjoin⟩ := exists_segments_join hp hq
  obtain ⟨s, more, rfl⟩ := List.exists_cons_of_ne_nil hne
  have hhead : (p.join q).segments.head? = p.segments.head? := by
    rcases hfirst with hfirst | hfirst
    · rw [hjoin, hfirst]
      rfl
    · rw [hjoin, hfirst]
      rfl
  rw [lead, lead, isAbsolute_join_eq hp hq, hhead]

/-- **The components of a joined path.** -/
theorem components_join (hp : p.text ≠ "") (hq : q.isAbsolute = false) :
    (p.join q).components = p.components ++ q.inner := by
  rw [components_eq, components_eq, lead_join hp hq, inner_join p hq, List.append_assoc]

/-- The first segment of a path is a component, and the others that are have components of their own. -/
theorem exists_components_cons (hp : p.text ≠ "") :
    ∃ c, p.components = c :: (p.segments.drop 1).filterMap component? := by
  obtain ⟨s, more, hsegments⟩ := List.exists_cons_of_ne_nil
    (show p.segments ≠ [] from List.splitOn_ne_nil _ _)
  by_cases habsolute : p.isAbsolute = true
  · refine ⟨.root, ?_⟩
    have hinner : p.inner = (p.segments.drop 1).filterMap component? := by
      rw [inner, segments_eq_of_isAbsolute habsolute]
      rfl
    rw [components_eq, lead_of_isAbsolute habsolute, hinner]
    rfl
  · have hs : s ≠ [] := by
      rintro rfl
      cases more with
      | nil =>
        apply hp
        rw [← String.toList_inj, ← joinWith_segments, hsegments]
        rfl
      | cons next more => exact habsolute (isAbsolute_of_segments hsegments (List.cons_ne_nil _ _))
    rw [components_eq, lead, if_neg habsolute, inner, hsegments]
    by_cases hdot : s = ['.']
    · exact ⟨.current, by simp [hdot, component?, isTrivial]⟩
    · cases hc : component? s with
      | none =>
        have htrivial := component?_eq_none_iff.1 hc
        simp [isTrivial, hs, hdot] at htrivial
      | some c => exact ⟨c, by simp [hdot, hc]⟩

/-! ## What is seen from above -/

theorem filterMap_dropWhile_isTrivial (segments : List (List Char)) :
    (segments.dropWhile isTrivial).filterMap component? = segments.filterMap component? := by
  have htrivial : (segments.takeWhile isTrivial).filterMap component? = [] :=
    filterMap_component?_of_trivial fun s hs => List.all_eq_true.1 List.all_takeWhile s hs
  calc (segments.dropWhile isTrivial).filterMap component?
      = (segments.takeWhile isTrivial ++ segments.dropWhile isTrivial).filterMap component? := by
        rw [List.filterMap_append, htrivial, List.nil_append]
    _ = segments.filterMap component? := by rw [List.takeWhile_append_dropWhile]

/-- What remains of segments has what remains of their components. -/
theorem filterMap_dropComponents (n : Nat) (segments : List (List Char)) :
    (dropComponents n segments).filterMap component? = (segments.filterMap component?).drop n := by
  induction n generalizing segments with
  | zero => exact filterMap_dropWhile_isTrivial segments
  | succ n ih =>
    rw [dropComponents, ih, ← filterMap_dropWhile_isTrivial segments]
    cases hrest : segments.dropWhile isTrivial with
    | nil => simp
    | cons s rest =>
      -- The first segment that is left is a component.
      have hs : isTrivial s = false := by
        have hhead := List.head?_dropWhile_not isTrivial segments
        rw [hrest] at hhead
        simpa using hhead
      cases hc : component? s with
      | none => exact absurd (component?_eq_none_iff.1 hc) (by simp [hs])
      | some c => rw [List.filterMap_cons_some hc, List.drop_succ_cons, List.drop_succ_cons, List.drop_zero]

theorem head?_dropComponents (n : Nat) (segments : List (List Char)) :
    ∀ s ∈ (dropComponents n segments).head?, isTrivial s = false := by
  induction n generalizing segments with
  | zero =>
    intro s hs
    have hhead := List.head?_dropWhile_not isTrivial segments
    rw [dropComponents, Option.mem_def] at hs
    rw [hs] at hhead
    exact hhead
  | succ n ih => exact ih _

theorem mem_of_mem_dropComponents {n : Nat} {s : List Char} (h : s ∈ dropComponents n segments) :
    s ∈ segments := by
  induction n generalizing segments with
  | zero => exact (List.dropWhile_sublist _).subset h
  | succ n ih => exact (List.dropWhile_sublist _).subset (List.mem_of_mem_drop (ih h))

/-- A path of segments that begin and end with components. -/
structure Trim (p : Path) : Prop where
  /-- The first segment is a component. -/
  first : ∀ s ∈ p.segments.head?, isTrivial s = false
  /-- So is the last one. -/
  last : ∀ s ∈ p.segments.getLast?, isTrivial s = false

theorem Trim.lead_eq (h : p.Trim) : p.lead = [] := by
  have habsolute : p.isAbsolute = false := by
    refine Bool.eq_false_iff.2 fun habsolute => ?_
    have hempty := h.first [] (by rw [segments_eq_of_isAbsolute habsolute]; rfl)
    exact absurd hempty (by decide)
  have hdot : p.segments.head? ≠ some ['.'] := fun hdot => absurd (h.first _ hdot) (by decide)
  rw [lead, if_neg (by simp [habsolute]), if_neg hdot]

/-- Segments that begin and end with components make up a path of them. -/
theorem trim_ofSegments (hne : segments ≠ []) (hslash : ∀ s ∈ segments, '/' ∉ s)
    (hfirst : ∀ s ∈ segments.head?, isTrivial s = false)
    (hlast : ∀ s ∈ segments.getLast?, isTrivial s = false) :
    (ofSegments segments).Trim ∧ (ofSegments segments).components = segments.filterMap component? := by
  have hsegments := segments_ofSegments hne hslash
  have htrim : (ofSegments segments).Trim := ⟨by rwa [hsegments], by rwa [hsegments]⟩
  refine ⟨htrim, ?_⟩
  rw [components_eq, htrim.lead_eq, List.nil_append, inner, hsegments]

/-- What a path is as seen from another one: segments that begin and end with components, which are those
of the path behind those of the other one. -/
theorem exists_strip (hroot : root.text ≠ "") (hp : p.text ≠ "") (hstarts : p.startsWith root = true) :
    ∃ kept, p.strip root = ofSegments kept ∧
      kept.filterMap component? = p.components.drop root.components.length ∧ (∀ s ∈ kept, '/' ∉ s) ∧
        (∀ s ∈ kept.head?, isTrivial s = false) ∧ ∀ s ∈ kept.getLast?, isTrivial s = false := by
  obtain ⟨c, hc⟩ := exists_components_cons hroot
  obtain ⟨c', hc'⟩ := exists_components_cons hp
  have hlength : root.components.length = ((root.segments.drop 1).filterMap component?).length + 1 := by
    rw [hc]
    rfl
  -- The segments are those of the path behind the components of the other one.
  let n := ((root.segments.drop 1).filterMap component?).length
  let rest := dropComponents n (p.segments.drop 1)
  obtain ⟨kept, trail, htrail, htrivial, hback⟩ := exists_trail rest
  refine ⟨kept, ?_, ?_, ?_, ?_, ?_⟩
  · rw [strip, strip?, if_pos hstarts, hlength]
    show ofSegments (rest.reverse.dropWhile isTrivial).reverse = _
    rw [hback, List.reverse_reverse]
  · have hrest : rest.filterMap component? = p.components.drop root.components.length := by
      rw [filterMap_dropComponents, hlength, hc', List.drop_succ_cons]
    rw [← hrest, htrail, List.filterMap_append, filterMap_component?_of_trivial htrivial,
      List.append_nil]
  · intro s hs
    have hmem : s ∈ rest := htrail ▸ List.mem_append_left trail hs
    exact not_mem_of_mem_segments (List.mem_of_mem_drop (mem_of_mem_dropComponents hmem))
  · intro s hs
    refine head?_dropComponents n (p.segments.drop 1) s ?_
    show s ∈ rest.head?
    rw [htrail, List.head?_append, Option.mem_def.1 hs]
    rfl
  · intro s hs
    have hhead := List.head?_dropWhile_not isTrivial rest.reverse
    rw [hback, List.head?_reverse, Option.mem_def.1 hs] at hhead
    exact hhead

/-- **A path as seen from another one** has the components behind those of the other one. -/
theorem components_strip (hroot : root.text ≠ "") (hp : p.text ≠ "") (hstarts : p.startsWith root = true) :
    (p.strip root).components = p.components.drop root.components.length := by
  obtain ⟨kept, hstrip, hkept, hslash, hfirst, hlast⟩ := exists_strip hroot hp hstarts
  rw [hstrip, ← hkept]
  by_cases hne : kept = []
  · subst hne
    decide
  · exact (trim_ofSegments hne hslash hfirst hlast).2

/-- **A path below another one, as seen from it,** has the components of the way from there to it, and
nothing else at its ends. -/
theorem trim_strip_join (hroot : root.text ≠ "") (hrel : rel.isAbsolute = false)
    (hne : rel.inner ≠ []) :
    ((root.join rel).strip root).Trim ∧ ((root.join rel).strip root).components = rel.inner := by
  have hcomponents := components_join hroot hrel
  have hstarts : (root.join rel).startsWith root = true :=
    startsWith_iff.2 (hcomponents ▸ List.prefix_append _ _)
  obtain ⟨kept, hstrip, hkept, hslash, hfirst, hlast⟩ :=
    exists_strip hroot (text_join_ne hroot hrel) hstarts
  have hrest : kept.filterMap component? = rel.inner := by
    rw [hkept, hcomponents, List.drop_left]
  rw [hstrip, ← hrest]
  refine trim_ofSegments ?_ hslash hfirst hlast
  rintro rfl
  exact hne hrest.symm

/-! ## Going up -/

/-- **The directory of a path has its components but the last.** -/
theorem Trim.components_parent? (h : p.Trim) :
    (p.parent?.map components).getD [] = p.components.dropLast := by
  have hne : p.segments ≠ [] := List.splitOn_ne_nil _ _
  obtain ⟨front, name, hsegments⟩ : ∃ front name, p.segments = front ++ [name] :=
    ⟨_, _, (List.dropLast_concat_getLast hne).symm⟩
  have hname : isTrivial name = false := h.last name (by simp [hsegments])
  have hcomponents : p.components.dropLast = front.filterMap component? := by
    cases hc : component? name with
    | none => exact absurd (component?_eq_none_iff.1 hc) (by simp [hname])
    | some c =>
      rw [components_eq, h.lead_eq, List.nil_append, inner, hsegments, List.filterMap_append,
        List.filterMap_cons_some hc, List.filterMap_nil, List.dropLast_concat]
  rw [hcomponents]
  by_cases hfront : front = []
  · -- A single segment stands in the directory without components.
    subst hfront
    have hparent : p.parent? = none ∨ p.parent? = some ⟨""⟩ := by
      rw [parent?, hsegments]
      simp only [List.nil_append, List.reverse_nil, List.dropWhile_nil]
      split
      · exact .inl rfl
      · exact .inr rfl
    rcases hparent with hparent | hparent
    · rw [hparent]
      rfl
    · rw [hparent]
      decide
  · obtain ⟨q, hq⟩ := exists_parent? hsegments hfront hname
    obtain ⟨kept, trail, rfl, htrail, hkept⟩ := hq.segments
    rw [hq.parent, Option.map_some, Option.getD_some]
    have hfirst : ∀ s ∈ kept.head?, isTrivial s = false := by
      intro s hs
      apply h.first s
      rw [hsegments, List.append_assoc, List.head?_append, Option.mem_def.1 hs]
      rfl
    rcases hkept with hkept | ⟨rfl, -⟩
    · have hlead : q.lead = [] := by
        have habsolute : q.isAbsolute = p.isAbsolute := isAbsolute_eq_of_text hq.text_ne hq.text
        have hp := h.lead_eq
        unfold lead at hp ⊢
        rw [habsolute]
        split
        · next hroot => rw [if_pos hroot] at hp; exact hp
        · have hdot : kept.head? ≠ some ['.'] := fun hdot => absurd (hfirst _ hdot) (by decide)
          rw [hkept, if_neg hdot]
      rw [components_eq, hlead, List.nil_append, inner, hkept, List.filterMap_append,
        filterMap_component?_of_trivial htrail, List.append_nil]
    · exact absurd (hfirst [] rfl) (by decide)

/-! ## Paths of ordinary names -/

/-- A path that consists of ordinary names. -/
structure IsPlace (rel : Path) : Prop where
  /-- There is at least one. -/
  ne_nil : rel.components ≠ []
  /-- Each component is a name. -/
  names : ∀ c ∈ rel.components, ∃ name, c = .name name

instance (rel : Path) : Decidable rel.IsPlace :=
  decidable_of_iff (rel.components ≠ [] ∧ ∀ c ∈ rel.components, c = .name c.text)
    ⟨fun h => ⟨h.1, fun c hc => ⟨_, h.2 c hc⟩⟩, fun h => ⟨h.ne_nil, fun c hc => by
      obtain ⟨name, rfl⟩ := h.names c hc
      rfl⟩⟩

theorem IsPlace.text_ne {rel : Path} (h : rel.IsPlace) : rel.text ≠ "" := by
  rcases rel with ⟨text⟩
  rintro rfl
  exact h.ne_nil (by decide)

/-- The names of the directories on the way to a place. -/
def directoryNames (rel : Path) : List String := rel.components.dropLast.map Component.text

/-- A text that is one name when it is read as a path. -/
structure IsOrdinary (name : String) : Prop where
  /-- It is a component. -/
  component : component? name.toList = some (.name name)
  /-- It has no separators. -/
  noSlash : '/' ∉ name.toList

instance (name : String) : Decidable (IsOrdinary name) :=
  decidable_of_iff (component? name.toList = some (.name name) ∧ '/' ∉ name.toList)
    ⟨fun h => ⟨h.1, h.2⟩, fun h => ⟨h.component, h.noSlash⟩⟩

/-- A name whose last character is no dot and no separator is ordinary, if it holds no separators. -/
theorem isOrdinary_of_getLast? {name : String} {c : Char} (hlast : name.toList.getLast? = some c)
    (hdot : c ≠ '.') (hslash : '/' ∉ name.toList) : IsOrdinary name := by
  refine ⟨?_, hslash⟩
  have hne : ∀ cs : List Char, cs.getLast? ≠ some c → name.toList ≠ cs := by
    rintro _ hcs rfl
    exact hcs hlast
  have hempty := hne [] (by simp)
  have hcurrent := hne ['.'] (by simpa using Ne.symm hdot)
  have hparent := hne ['.', '.'] (by simpa using Ne.symm hdot)
  simp [component?, isTrivial, hempty, hcurrent, hparent]

theorem eq_of_component? {segment : List Char} {name : String}
    (h : component? segment = some (.name name)) : segment = name.toList := by
  unfold component? at h
  split at h
  · exact absurd h (by simp)
  · split at h
    · exact absurd h (by simp)
    · obtain rfl := Component.name.inj (Option.some.inj h)
      exact String.toList_ofList.symm

theorem IsPlace.lead_eq (h : rel.IsPlace) : rel.lead = [] := by
  have hnames : ∀ c ∈ rel.lead, ∃ name, c = Component.name name := by
    intro c hc
    apply h.names c
    rw [components_eq]
    exact List.mem_append_left _ hc
  unfold lead at hnames ⊢
  split
  · next hroot =>
    rw [if_pos hroot] at hnames
    exact absurd (hnames .root List.mem_cons_self) (by simp)
  · next hroot =>
    rw [if_neg hroot] at hnames
    split
    · next hdot =>
      rw [if_pos hdot] at hnames
      exact absurd (hnames .current List.mem_cons_self) (by simp)
    · rfl

theorem IsPlace.inner_eq (h : rel.IsPlace) : rel.inner = rel.components := by
  rw [components_eq, h.lead_eq, List.nil_append]

theorem IsPlace.isAbsolute_eq (h : rel.IsPlace) : rel.isAbsolute = false := by
  refine Bool.eq_false_iff.2 fun habsolute => ?_
  have hlead := h.lead_eq
  rw [lead_of_isAbsolute habsolute] at hlead
  exact List.cons_ne_nil _ _ hlead

theorem IsPlace.map_directoryNames (h : rel.IsPlace) :
    rel.directoryNames.map Component.name = rel.components.dropLast := by
  rw [directoryNames, List.map_map]
  refine (List.map_congr_left fun c hc => ?_).trans (List.map_id _)
  obtain ⟨name, rfl⟩ := h.names c ((List.dropLast_sublist _).subset hc)
  rfl

theorem IsPlace.isOrdinary (h : rel.IsPlace) : ∀ name ∈ rel.directoryNames, IsOrdinary name := by
  intro name hname
  obtain ⟨c, hc, rfl⟩ := List.mem_map.1 hname
  have hmem : c ∈ rel.components := (List.dropLast_sublist _).subset hc
  obtain ⟨name, rfl⟩ := h.names c hmem
  rw [← h.inner_eq] at hmem
  obtain ⟨segment, hsegment, hcomponent⟩ := List.mem_filterMap.1 hmem
  obtain rfl := eq_of_component? hcomponent
  exact ⟨hcomponent, not_mem_of_mem_segments hsegment⟩

theorem IsOrdinary.isAbsolute_eq {name : String} (h : IsOrdinary name) :
    (Path.mk name).isAbsolute = false := by
  refine Bool.eq_false_iff.2 fun habsolute => h.noSlash ?_
  exact List.mem_of_head? (by simpa [isAbsolute] using habsolute)

theorem IsOrdinary.inner_eq {name : String} (h : IsOrdinary name) :
    (Path.mk name).inner = [.name name] := by
  rw [inner, Path.segments, List.splitOn_eq_singleton h.noSlash,
    List.filterMap_cons_some h.component, List.filterMap_nil]

/-- An entry of a directory has one component more. -/
theorem components_child {name : String} (hroot : root.text ≠ "") (h : IsOrdinary name) :
    (root.child name).components = root.components ++ [.name name] := by
  rw [child, components_join hroot h.isAbsolute_eq, h.inner_eq]

/-! ## Stems -/

theorem noSlash_of_mem_components {name : String} (h : .name name ∈ p.components) : '/' ∉ name.toList := by
  rw [components_eq] at h
  have hlead : Component.name name ∉ p.lead := by
    unfold lead
    split
    · simp
    · split <;> simp
  obtain ⟨segment, hsegment, hcomponent⟩ := List.mem_filterMap.1 ((List.mem_append.1 h).resolve_left hlead)
  exact eq_of_component? hcomponent ▸ not_mem_of_mem_segments hsegment

theorem mem_of_mem_splitName {name : List Char} {c : Char} (h : c ∈ (splitName name).1) : c ∈ name := by
  unfold splitName at h
  dsimp only at h
  split at h
  · exact h
  · have hfront := (List.drop_sublist 1 _).subset (List.mem_reverse.1 h)
    exact List.mem_reverse.1 ((List.dropWhile_sublist _).subset hfront)

/-- The stem of a path has no separators. -/
theorem noSlash_stem (p : Path) : '/' ∉ p.stem.toList := by
  rw [stem, stem?, name?]
  split
  · next name hname =>
    have hslash := noSlash_of_mem_components (List.mem_of_getLast? hname)
    rw [Option.map_some, Option.getD_some, String.toList_ofList]
    exact fun hmem => hslash (mem_of_mem_splitName hmem)
  · decide

end Path

end MailTemplate
