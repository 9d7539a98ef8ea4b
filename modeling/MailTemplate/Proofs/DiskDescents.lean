import MailTemplate.Proofs.DiskPlaces

/-!
# Below a directory without links

Where no links stand, names below a directory lead to the place that they spell and to no other one.  A path
that can be reached shows that every shorter one can be, and directories that are made there are made at the
places of their names, with everything off the way to them as it was.

## Main results

* `Disk.LeadsTo.down`, `Disk.LeadsTo.place_down` — the place of a directory further down.
* `Disk.downFault_eq_none_of_le` — shorter names can be reached where longer ones can.
* `Disk.LeadsTo.madeDown` — what making directories comes to.
-/

namespace MailTemplate

namespace Disk

/-! ## Walks along names -/

section Walk

variable {root : Node} {links links' : Nat} {names here place : List String}

theorem IsName.component?_eq {segment : String} (h : IsName segment) :
    Path.component? segment.toList = some (.name segment) := by
  have hcurrent : segment.toList ≠ ['.'] := fun heq =>
    h.ne_current (String.toList_inj.1 (heq.trans (by decide)))
  have hparent : segment.toList ≠ ['.', '.'] := fun heq =>
    h.ne_parent (String.toList_inj.1 (heq.trans (by decide)))
  simp [Path.component?, Path.isTrivial, h.ne_nil, hcurrent, hparent]

/-- Where no links stand, segments lead to the place that their names spell. -/
theorem passes_eq_of_noLink {segments : List String} (h : Passes root links segments here links' place)
    (hnames : (segments.map String.toList).filterMap Path.component? = names.map .name)
    (hlink : ∀ below, below <+: names → ∀ target, root.at? (here ++ below) ≠ some (.link target)) :
    place = here ++ names := by
  induction h generalizing names with
  | done =>
    obtain rfl : names = [] := List.map_eq_nil_iff.1 hnames.symm
    exact (List.append_nil _).symm
  | skip h hrest ih =>
    refine ih ?_ hlink
    rw [← hnames, List.map_cons, List.filterMap_cons_none]
    rcases h with rfl | rfl <;> decide
  | up =>
    have hup : Path.component? "..".toList = some .parent := by decide
    rw [List.map_cons, List.filterMap_cons_some hup] at hnames
    obtain ⟨_, _, rfl, hname, -⟩ := List.map_eq_cons_iff.1 hnames.symm
    exact absurd hname (by simp)
  | @down links links' segment segments here place es h hdirectory hrest ih =>
    rw [List.map_cons, List.filterMap_cons_some h.component?_eq] at hnames
    obtain ⟨_, names, rfl, hname, hmore⟩ := List.map_eq_cons_iff.1 hnames.symm
    obtain rfl := Path.Component.name.inj hname
    rw [ih hmore.symm fun below hbelow target hat => ?_, List.append_assoc]
    · rfl
    · rw [List.append_assoc] at hat
      exact hlink _ (List.cons_prefix_cons.2 ⟨rfl, hbelow⟩) target hat
  | @follow links links' segment segments here place target h hat =>
    rw [List.map_cons, List.filterMap_cons_some h.component?_eq] at hnames
    obtain ⟨_, names, rfl, hname, -⟩ := List.map_eq_cons_iff.1 hnames.symm
    obtain rfl := Path.Component.name.inj hname
    exact absurd hat (hlink _ (List.cons_prefix_cons.2 ⟨rfl, List.nil_prefix⟩) target)

end Walk

/-! ## Reaching names -/

section Reach

variable {disk made : Disk} {path : Path} {links links' : Nat} {names more here place : List String}
  {es : List (String × Node)}

/-- The text of a path further down. -/
theorem text_down_eq (hpath : path.text ≠ "") (hnames : ∀ n ∈ names, Path.IsOrdinary n) (hne : names ≠ []) :
    (path.down names).text = path.text ++
      (if path.text.toList.getLast? = some '/' then "" else "/") ++ String.intercalate "/" names := by
  rw [Path.down_eq_join hpath hnames hne, Path.join,
    if_neg (by simp [(Path.isPlace_ofNames hnames hne).isAbsolute_eq]), Path.ofNames]
  by_cases hlast : path.text.toList.getLast? = some '/'
  · simp [hlast]
  · simp [hlast, hpath]

/-- **Shorter names can be reached** where longer ones can. -/
theorem downFault_eq_none_of_le (hpath : path.text ≠ "") (hnames : ∀ n ∈ names, Path.IsOrdinary n)
    (hne : names ≠ []) (hmore : ∀ n ∈ more, Path.IsOrdinary n) (hmore_ne : more ≠ [])
    (h : downFault path more = none)
    (hsize : (String.intercalate "/" names).utf8ByteSize ≤ (String.intercalate "/" more).utf8ByteSize)
    (hnul : ((String.intercalate "/" names).toList.any fun c => c.toNat == 0) = false)
    (hlength : ∀ n ∈ names, n.utf8ByteSize ≤ maxName) : downFault path names = none := by
  rw [downFault_eq_none_iff, text_down_eq hpath hmore hmore_ne] at h
  rw [downFault_eq_none_iff, text_down_eq hpath hnames hne]
  obtain ⟨hfree, hfits, -⟩ := h
  refine ⟨?_, ?_, hlength⟩
  · rw [String.toList_append, List.any_append, Bool.or_eq_false_iff] at hfree ⊢
    exact ⟨hfree.1, hnul⟩
  · rw [String.utf8ByteSize_append] at hfits ⊢
    omega

/-- **Directories on a way** are all made, or a file on it stops them and none is. -/
theorem WayBy.makeDirectories_cases {front : List String} (h : disk.WayBy path front names links here) :
    (∃ root', (makeDirectories path).run disk = (.ok (), { disk with root := root' }) ∧
      Node.MadeDown (here ++ names) disk.root root') ∨
    ∃ init m rest es bytes executable, names = init ++ m :: rest ∧
      disk.root.at? (here ++ init) = some (.directory es) ∧
      disk.root.at? (here ++ init ++ [m]) = some (.file bytes executable) ∧
      (makeDirectories path).run disk = (.error (if rest = [] then .exists else .notDirectory), disk) := by
  by_cases hfile : ∃ below, below <+: names ∧
      ∃ bytes executable, disk.root.at? (here ++ below) = some (.file bytes executable)
  · right
    obtain ⟨below, ⟨rest, rfl⟩, bytes, executable, hat⟩ := hfile
    obtain ⟨es, hes⟩ := h.directory
    rcases List.eq_nil_or_concat below with rfl | ⟨init, m, rfl⟩
    · rw [List.append_nil] at hat
      exact absurd (hes.symm.trans hat) (by simp)
    rw [List.concat_eq_append, ← List.append_assoc] at hat
    obtain ⟨es', hes'⟩ := Node.exists_directory_of_concat hat
    rw [List.concat_eq_append, List.append_assoc, List.singleton_append] at h ⊢
    exact ⟨init, m, rest, es', bytes, executable, rfl, hes', hat, h.makeFirst_run_of_file hes' hat⟩
  · left
    have hfuel : names.length < path.segments.length + 1 := by
      have hsize := congrArg List.length h.segments
      rw [List.length_map, List.length_append] at hsize
      omega
    exact h.makeFirst_run hfuel fun below hbelow bytes executable hat =>
      hfile ⟨below, hbelow, bytes, executable, hat⟩

namespace LeadsTo

/-- **A directory further down** is at the place of its names. -/
theorem down (h : disk.LeadsTo path links here) (hnames : ∀ n ∈ names, Path.IsOrdinary n) (hne : names ≠ [])
    (hfault : downFault path names = none) (hat : disk.root.at? (here ++ names) = some (.directory es)) :
    disk.LeadsTo (path.down names) links (here ++ names) := by
  obtain ⟨hnul, hfits, hlength⟩ := downFault_eq_none_iff.1 hfault
  refine ⟨Path.text_down_ne h.text_ne hnames, hnul, hfits, ?_, es, hat⟩
  obtain ⟨front, -, hsegments, hpasses⟩ := h.exists_front hnames hne
  rw [hsegments]
  exact hpasses.append (.of_directory (fun n hn => isName_of_isOrdinary (hnames n hn) (hlength n hn)) hat)

/-- **What is joined to a path** leads on from the place of the path. -/
theorem resolve_join {rel : Path} (h : disk.LeadsTo path links here) (hrel : rel.isAbsolute = false)
    (follow : Bool) : disk.resolve follow (path.join rel) =
      if (path.join rel).text.toList.any fun c => c.toNat == 0 then .error .nul
      else if maxPath < (path.join rel).text.utf8ByteSize then .error .nameTooLong
      else walkFrom disk.root follow links (rel.segments.map String.ofList) here := by
  obtain ⟨first, -, hfirst, hjoin⟩ := Path.exists_segments_join h.text_ne hrel
  have hrest : rel.segments.map String.ofList ≠ [] := by
    rw [Ne, List.map_eq_nil_iff]
    exact List.splitOn_ne_nil _ _
  have hpasses : Passes disk.root maxLinks (first.map String.ofList)
      (if (path.join rel).isAbsolute then [] else disk.current) links here := by
    rw [Path.isAbsolute_join_eq h.text_ne hrel]
    have hpasses := h.passes
    rcases hfirst with hfirst | hfirst
    · rwa [hfirst] at hpasses
    · -- The separator at the end of the path leads nowhere.
      rw [hfirst, List.map_append] at hpasses
      obtain ⟨_, _, hfront, hend⟩ := hpasses.exists_of_append rfl
      obtain ⟨rfl, rfl⟩ := hend.eq_of_trivial (by simp)
      exact hfront
  rw [resolve, if_neg (Path.text_join_ne h.text_ne hrel), hjoin, List.map_append,
    hpasses.walkFrom_append (.inl hrest)]

/-- **A relative path leads on** to the place of its names and to no other one, where no links stand. -/
theorem place_join {rel : Path} (h : disk.LeadsTo path links here)
    (hjoin : disk.LeadsTo (path.join rel) links' place) (hrel : rel.isAbsolute = false)
    (hnames : rel.inner = names.map .name)
    (hlink : ∀ below, below <+: names → ∀ target, disk.root.at? (here ++ below) ≠ some (.link target)) :
    place = here ++ names := by
  obtain ⟨es, hes⟩ := hjoin.directory
  have hresolve := hjoin.resolve_eq hes
  rw [h.resolve_join hrel, if_neg (by simp [hjoin.noNul]), if_neg (Nat.not_lt.2 hjoin.length)] at hresolve
  -- Resolving the path walks along its segments, and without links there is one way to do that.
  obtain ⟨-, _, hpasses⟩ := passes_of_walkFrom h.directory hresolve
  refine passes_eq_of_noLink hpasses ?_ hlink
  have hback : String.toList ∘ String.ofList = id := funext fun _ => String.toList_ofList
  rw [List.map_map, hback, List.map_id, ← hnames, Path.inner]

/-- **It is at no other place** where no links stand. -/
theorem place_down (h : disk.LeadsTo path links here) (hdown : disk.LeadsTo (path.down names) links' place)
    (hnames : ∀ n ∈ names, Path.IsOrdinary n) (hne : names ≠ [])
    (hlink : ∀ below, below <+: names → ∀ target, disk.root.at? (here ++ below) ≠ some (.link target)) :
    place = here ++ names := by
  have hplace := Path.isPlace_ofNames hnames hne
  rw [Path.down_eq_join h.text_ne hnames hne] at hdown
  refine h.place_join hdown hplace.isAbsolute_eq ?_ hlink
  rw [hplace.inner_eq, Path.components_ofNames hnames hne]

/-- **Directories that are made** below a directory without links are made at the place of their names. -/
theorem madeDown (h : disk.LeadsTo path links here) (hcurrent : disk.HasCurrent)
    (hnames : ∀ n ∈ names, Path.IsOrdinary n) (hne : names ≠ [])
    (hlength : ∀ n ∈ names, n.utf8ByteSize ≤ maxName)
    (hlink : ∀ below, below <+: names → ∀ target, disk.root.at? (here ++ below) ≠ some (.link target))
    (hrun : (makeDirectories (path.down names)).run disk = (.ok (), made)) :
    Node.MadeDown (here ++ names) disk.root made.root ∧
      made.LeadsTo (path.down names) links (here ++ names) := by
  have htext := Path.text_down_ne h.text_ne hnames
  have hgrows := grows_makeDirectories hcurrent hrun
  obtain ⟨_, _, hleads⟩ := (isDirectory_iff (hcurrent.grows hgrows)).1
    (isDirectory_of_makeDirectories hcurrent htext hrun)
  have hfault := downFault_eq_none_iff.2 ⟨hleads.noNul, hleads.length, hlength⟩
  obtain ⟨front, hway⟩ := h.wayBy_down hnames hne hfault hlink
  have hmade : Node.MadeDown (here ++ names) disk.root made.root := by
    rcases hway.makeDirectories_cases with ⟨root', hrun', hmade⟩ | ⟨_, _, _, _, _, _, -, -, -, hstop⟩
    · rw [hrun'] at hrun
      obtain ⟨-, rfl⟩ := Prod.mk.inj hrun
      exact hmade
    · -- A file on the way would have stopped the run.
      rw [hstop] at hrun
      exact absurd (Prod.mk.inj hrun).1 (by simp)
  refine ⟨hmade, ?_⟩
  obtain ⟨es, hes⟩ := hmade.directory
  exact (h.of_grows hgrows).down hnames hne hfault hes

end LeadsTo

end Reach

end Disk

end MailTemplate
