import SchemaLoom.Proofs.Discoveries

namespace SchemaLoom

/-! Addresses that paths lead to.  Their names are proper, so the text of an address can
be read back, and the paths that are discovered are in the order of their names. -/

namespace Address

variable {address : Address} {name : String}

theorem Proper.concat (h : address.Proper) (hne : name ≠ "") (hname : '/' ∉ name.toList) :
    Address.Proper (address ++ [name]) :=
  List.forall_mem_append.mpr ⟨h, List.forall_mem_singleton.mpr ⟨hne, hname⟩⟩

theorem Proper.dropLast (h : address.Proper) : Address.Proper address.dropLast :=
  fun name hname => h name (List.dropLast_subset address hname)

theorem splitText_text_cons (h : Address.Proper (name :: address)) :
    splitText '/' (text (name :: address)) = "" :: name :: address := by
  have hjoined : (text (name :: address)).toList =
      ['/'].intercalate (("" :: name :: address).map String.toList) := by
    simp [text, String.toList_intercalate]
  have hparts : ∀ part ∈ ("" :: name :: address).map String.toList, '/' ∉ part := by
    rw [List.forall_mem_map]
    exact List.forall_mem_cons.mpr ⟨by decide, fun part hpart => (h part hpart).2⟩
  rw [splitText, hjoined, splitAtChar_eq_splitOn,
    List.splitOn_intercalate '/' hparts (by simp)]
  simp [Function.comp_def]

theorem ofText_text (h : address.Proper) : ofText (text address) = address := by
  cases address with
  | nil => decide
  | cons name rest =>
      rw [ofText, splitText_text_cons h, List.filter_cons_of_neg (by decide),
        List.filter_eq_self]
      intro name hname
      exact decide_eq_true (h name hname).1

end Address

namespace FileSystem

variable {files : FileSystem} {path : String} {address : Address}

theorem startOf_proper {folder : Address} (h : folder.Proper) :
    (startOf path folder).Proper := by
  unfold startOf
  split
  · exact Address.proper_nil
  · exact h

/-- Every name that is added is a part of a text, of the path or of a link. -/
theorem follow_proper {links : Nat} {here : Address} {parts : List String}
    (hhere : here.Proper) (hparts : ∀ part ∈ parts, '/' ∉ part.toList)
    (h : files.follow links here parts = .ok address) : address.Proper := by
  fun_induction follow files links here parts with
  | case1 links here =>
      cases h
      exact hhere
  | case2 links here part rest entries _ _ ih =>
      exact ih hhere (List.forall_mem_cons.mp hparts).2 h
  | case3 links here rest entries _ _ ih =>
      exact ih hhere.dropLast (List.forall_mem_cons.mp hparts).2 h
  | case4 | case5 | case6 => cases h
  | case7 here part rest entries _ _ _ _ target _ links ih =>
      refine ih (startOf_proper hhere) (List.forall_mem_append.mpr ⟨?_, ?_⟩) h
      · exact fun part hpart => not_mem_of_mem_splitText hpart
      · exact (List.forall_mem_cons.mp hparts).2
  | case8 links here part rest entries _ hdots _ _ node _ _ ih =>
      obtain ⟨hpart, hrest⟩ := List.forall_mem_cons.mp hparts
      exact ih (hhere.concat (not_or.mp hdots).1 hpart) hrest h
  | case9 => cases h

theorem resolve_proper (h : files.resolve path = .ok address) : address.Proper :=
  follow_proper (startOf_proper files.home_proper)
    (fun _ hpart => not_mem_of_mem_splitText hpart) h

theorem locate_proper (h : files.locate path = .ok address) : address.Proper := by
  unfold locate at h
  split at h
  · cases h
  · split at h
    · cases h
    · exact resolve_proper h

end FileSystem

/-- If this is a file that has an address, then a proper one. -/
def Visit.Proper : Visit → Prop
  | .file _ (.ok address) => address.Proper
  | _ => True

namespace FileSystem

variable {files : FileSystem}

theorem file_resolve_proper (shown : String) :
    (Visit.file shown (files.resolve shown)).Proper := by
  cases hresolve : files.resolve shown with
  | error fault => trivial
  | ok address => exact resolve_proper hresolve

theorem walkOpen_proper (depth : Nat) (folder : OpenFolder) (above : List OpenFolder) :
    ∀ visit ∈ files.walkOpen depth folder above, visit.Proper := by
  induction depth generalizing folder above with
  | zero => exact List.forall_mem_nil _
  | succ depth ih =>
      rw [walkOpen]
      refine List.forall_mem_flatMap.mpr ?_
      rintro ⟨name, node⟩ _
      dsimp only
      split
      · exact List.forall_mem_singleton.mpr (file_resolve_proper _)
      · exact List.forall_mem_singleton.mpr (file_resolve_proper _)
      · exact List.forall_mem_cons.mpr ⟨trivial, ih _ _⟩
      · rename_i hlocate _
        split
        · split
          · exact List.forall_mem_singleton.mpr trivial
          · exact List.forall_mem_cons.mpr ⟨trivial, ih _ _⟩
        · exact List.forall_mem_singleton.mpr (locate_proper hlocate)
      · exact List.forall_mem_singleton.mpr trivial

theorem walk_proper (path : String) : ∀ visit ∈ files.walk path, visit.Proper := by
  unfold walk
  split
  · exact List.forall_mem_singleton.mpr trivial
  · rename_i address hlocate
    split
    · exact List.forall_mem_cons.mpr ⟨trivial, walkOpen_proper _ _ _⟩
    · exact List.forall_mem_singleton.mpr (locate_proper hlocate)

end FileSystem

/-! The order of paths. -/

/-- Paths in increasing order, name by name; none comes twice. -/
def FileSet.InOrder (found : FileSet) : Prop :=
  (found.paths.map Address.ofText).Pairwise (· < ·)

instance (found : FileSet) : Decidable found.InOrder :=
  inferInstanceAs (Decidable ((found.paths.map Address.ofText).Pairwise (· < ·)))

theorem FileSet.inOrder_map_text {addresses : List Address} {skipped : Nat}
    (hsorted : addresses.Pairwise (· < ·)) (hproper : ∀ address ∈ addresses, address.Proper) :
    FileSet.InOrder ⟨addresses.map Address.text, skipped⟩ := by
  have hnames : (addresses.map Address.text).map Address.ofText = addresses := by
    rw [List.map_map, List.map_congr_left, List.map_id]
    exact fun address haddress => Address.ofText_text (hproper address haddress)
  rw [InOrder, hnames]
  exact hsorted

example : FileSet.InOrder ⟨["/a/b", "/a-b"], 0⟩ ∧ ¬FileSet.InOrder ⟨["/b", "/a"], 0⟩ ∧
    ¬FileSet.InOrder ⟨["/a", "/a"], 0⟩ := by
  decide

namespace FileSystem

variable {files : FileSystem} {extensions arguments : List String}

theorem discover_inOrder {found : FileSet}
    (h : files.discover extensions arguments = .ok found) : found.InOrder := by
  by_cases hfallback : ∃ path, files.walks.IsFallback extensions arguments path
  · obtain ⟨path, hpath⟩ := hfallback
    rw [discover, Walks.discover_of_isFallback hpath] at h
    cases h
    exact List.pairwise_singleton _ _
  · cases hvisits : SchemaLoom.discover extensions (arguments.flatMap files.walks.visits) with
    | error errors =>
        rw [discover, Walks.discover_of_errors hvisits] at h
        cases h
    | ok discovered =>
        rw [discover, Walks.discover_of_not_isFallback (not_exists.mp hfallback) hvisits] at h
        cases h
        have hlists := discover_lists hvisits
        refine FileSet.inOrder_map_text hlists.sorted ?_
        intro address haddress
        obtain ⟨shown, hvisit, _⟩ := (hlists.mem_iff address).mp haddress
        obtain ⟨path, _, hvisit⟩ := List.mem_flatMap.mp hvisit
        exact walk_proper path _ hvisit

end FileSystem

end SchemaLoom
