import MailTemplate.Proofs.StylePairs

/-!
# Declarations that are appended

A style with one more declaration declares what it declared and then the new pair, whatever its end looks
like: it may be empty or blank, end with a semicolon or with a declaration that has none, or with a piece that
is no declaration.  The separator is chosen by the last character alone, so nothing may be open there, in
which case a semicolon is one that cuts.

The appended declaration leaves nothing open in its turn.  So more of them can be appended, and the style
declares them in their order.

## Main definitions

* `Css.IsProperty` — a property as a style can name it.
* `Css.appendAll` — a style with more declarations.

## Main results

* `Css.pairs_written` — what one written declaration declares.
* `Css.run_append` — nothing is open behind an appended declaration.
* `Css.append_declares_one_more` — an appended declaration is declared last, and it wins.
* `Css.pairs_appendAll` — appended declarations are declared in their order.
-/

namespace MailTemplate

namespace Css

variable {style property value : String}

/-! ## Written declarations -/

/-- A property that is read as it is written. -/
structure IsProperty (property : String) : Prop where
  /-- There is a property. -/
  ne_empty : property ≠ ""
  /-- No blanks are around it. -/
  trimmed : Text.trimString property = property
  /-- It is in lower case. -/
  lowered : Text.lowerString property = property
  /-- It has no colon, and nothing that a scan reacts to. -/
  plain : ∀ c ∈ property.toList, c ≠ ':' ∧ isPlain c = true

theorem IsProperty.propertyOf_toList (h : IsProperty property) : propertyOf property.toList = property.toList := by
  have htrim : Text.trim property.toList = property.toList := by
    rw [← String.toList_ofList (l := Text.trim property.toList), ← Text.trimString, h.trimmed]
  rw [propertyOf, htrim, ← String.toList_ofList (l := Text.lower property.toList), ← Text.lowerString, h.lowered]

/-- A written declaration without its semicolon can stand anywhere. -/
theorem IsProperty.isClosed_written (h : IsProperty property) {value : List Char} (hvalue : IsClosed value) :
    IsClosed (property.toList ++ ':' :: value) := by
  have hcolon : IsClosed [':'] := by decide
  exact (isClosed_of_isPlain fun c hc => (h.plain c hc).2).append (hcolon.append hvalue)

/-- **A written declaration** declares its property and its value. -/
theorem pairs_written (hproperty : IsProperty property) (htrim : Text.trimString value = value)
    (hclosed : IsClosed value.toList) :
    pairs (property.toList ++ ':' :: (value.toList ++ [';'])) = [(property, value)] := by
  obtain ⟨hpasses, hrun⟩ := hproperty.isClosed_written hclosed
  have hpiece : pieces (property.toList ++ ':' :: (value.toList ++ [';'])) =
      [property.toList ++ ':' :: value.toList, []] := by
    have hcut := piecesFrom_append_cut hpasses hrun []
    rw [List.append_assoc, List.cons_append] at hcut
    exact hcut
  have hcolon : ':' ∉ property.toList := fun hmem => (hproperty.plain _ hmem).1 rfl
  have hne : propertyOf property.toList ≠ [] := by
    rw [hproperty.propertyOf_toList]
    simpa using hproperty.ne_empty
  have hread := Declaration.map_pair_ofPiece?_colon hcolon value.toList
  rw [if_neg hne, hproperty.propertyOf_toList, String.ofList_toList, ← Text.trimString, htrim] at hread
  rw [pairs, hpiece, pairsOf, List.filterMap_cons, hread]
  rfl

/-! ## One more declaration -/

/-- **Nothing is open behind an appended declaration** if nothing was open before it. -/
theorem run_append (h : Scan.neutral.run style.toList = .neutral) (hproperty : IsProperty property)
    (hclosed : IsClosed value.toList) :
    Scan.neutral.run (append style property value).toList = .neutral := by
  have hseparator : ∀ kept : List Char, Scan.neutral.run
      (if kept = [] ∨ kept.getLast? = some ';' then [] else [';']) = .neutral := by
    intro kept
    split
    · rfl
    · rfl
  have hwritten : Scan.neutral.run (property.toList ++ ':' :: (value.toList ++ [';'])) = .neutral := by
    have hrun := (hproperty.isClosed_written hclosed).2
    rw [← List.cons_append, ← List.append_assoc, Scan.run_append, hrun]
    rfl
  rw [toList_append, Scan.run_append, run_trimEnd h, Scan.run_append, hseparator, hwritten]

theorem pairs_append_of_isProperty (h : Scan.neutral.run style.toList = .neutral) (hproperty : IsProperty property)
    (htrim : Text.trimString value = value) (hclosed : IsClosed value.toList) :
    pairs (append style property value).toList = pairs style.toList ++ [(property, value)] := by
  rw [pairs_append h, pairs_written hproperty htrim hclosed]

/-- **Appending a declaration adds exactly it.**  If nothing is open at the end of a style, it declares with
one more declaration what it declared and then the new pair, and the new value wins for the property. -/
theorem append_declares_one_more (hstyle : Scan.neutral.run style.toList = .neutral)
    (hproperty : IsProperty property) (htrim : Text.trimString value = value) (hclosed : IsClosed value.toList) :
    (declarations (append style property value)).map Declaration.pair =
      (declarations style).map Declaration.pair ++ [(property, value)] ∧
    (lastOf? (declarations (append style property value)) property).map Declaration.value = some value := by
  have hpairs : (declarations (append style property value)).map Declaration.pair =
      (declarations style).map Declaration.pair ++ [(property, value)] := by
    rw [map_pair_declarations, map_pair_declarations]
    exact pairs_append_of_isProperty hstyle hproperty htrim hclosed
  refine ⟨hpairs, ?_⟩
  rw [map_value_lastOf?, hpairs]
  exact winner?_append_cons (List.forall_mem_nil _)

/-- A line height goes behind a piece without a colon and the blanks at the end, and it wins over the one
before.  The semicolon in parentheses cuts nothing. -/
theorem line_height_appended : Scan.neutral.run "line-height:2;src:url(a;b) ; note ".toList = .neutral ∧
    IsProperty "line-height" ∧ IsClosed "0 !important".toList ∧
    (declarations (append "line-height:2;src:url(a;b) ; note " "line-height" "0 !important")).map
        Declaration.pair =
      [("line-height", "2"), ("src", "url(a;b)"), ("line-height", "0 !important")] ∧
    (lastOf? (declarations (append "line-height:2;src:url(a;b) ; note " "line-height" "0 !important"))
      "line-height").map Declaration.value = some "0 !important" := by
  have hstyle : Scan.neutral.run "line-height:2;src:url(a;b) ; note ".toList = .neutral := by decide
  have hproperty : IsProperty "line-height" :=
    ⟨by decide, by decide, by decide, by simp [isPlain]⟩
  have hclosed : IsClosed "0 !important".toList := by decide
  have hread : (declarations "line-height:2;src:url(a;b) ; note ").map Declaration.pair =
      [("line-height", "2"), ("src", "url(a;b)")] := by decide +kernel
  obtain ⟨hpairs, hwins⟩ := append_declares_one_more hstyle hproperty (by decide) hclosed
  rw [hread] at hpairs
  exact ⟨hstyle, hproperty, hclosed, hpairs, hwins⟩

/-! ## More declarations -/

/-- A style with more declarations, appended one after the other. -/
def appendAll (style : String) (ds : List (String × String)) : String :=
  ds.foldl (fun style d => append style d.1 d.2) style

/-- **Appended declarations are declared in their order,** and nothing is open behind them. -/
theorem pairs_appendAll {ds : List (String × String)} (h : Scan.neutral.run style.toList = .neutral)
    (hds : ∀ d ∈ ds, IsProperty d.1 ∧ Text.trimString d.2 = d.2 ∧ IsClosed d.2.toList) :
    pairs (appendAll style ds).toList = pairs style.toList ++ ds ∧
      Scan.neutral.run (appendAll style ds).toList = .neutral := by
  induction ds generalizing style with
  | nil => exact ⟨(List.append_nil _).symm, h⟩
  | cons d ds ih =>
    obtain ⟨⟨hproperty, htrim, hclosed⟩, hrest⟩ := List.forall_mem_cons.1 hds
    obtain ⟨hpairs, hrun⟩ := ih (run_append h hproperty hclosed) hrest
    refine ⟨?_, hrun⟩
    rw [appendAll, List.foldl_cons, ← appendAll, hpairs, pairs_append_of_isProperty h hproperty htrim hclosed,
      List.append_assoc, List.singleton_append]

end Css

end MailTemplate
