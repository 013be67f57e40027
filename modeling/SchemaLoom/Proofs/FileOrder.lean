import SchemaLoom.Files.Discovery
import Mathlib.Data.List.Lex
import Mathlib.Data.String.Basic

namespace SchemaLoom

/-! The order of discovered files.  Addresses are put in increasing order, name by
name, and each is listed once. -/

theorem mem_insertAddress {address other : Address} {found : List Address} :
    other ∈ insertAddress address found ↔ other = address ∨ other ∈ found := by
  induction found with
  | nil => simp [insertAddress]
  | cons first rest ih =>
      rw [insertAddress]
      split
      · simp
      · split
        · rename_i heq
          simp [heq]
        · simp only [List.mem_cons, ih]
          exact or_left_comm

theorem mem_foldl_insertAddress {other : Address} {addresses found : List Address} :
    other ∈ addresses.foldl (fun found address => insertAddress address found) found ↔
      other ∈ addresses ∨ other ∈ found := by
  induction addresses generalizing found with
  | nil => simp
  | cons first rest ih =>
      rw [List.foldl_cons, ih, mem_insertAddress, List.mem_cons]
      exact or_left_comm.trans or_assoc.symm

theorem insertAddress_sorted (address : Address) {found : List Address}
    (hsorted : found.Pairwise (· < ·)) :
    (insertAddress address found).Pairwise (· < ·) := by
  induction found with
  | nil => exact List.pairwise_singleton _ address
  | cons first rest ih =>
      obtain ⟨hfirst, hrest⟩ := List.pairwise_cons.mp hsorted
      rw [insertAddress]
      split
      · rename_i hlt
        refine List.pairwise_cons.mpr ⟨?_, hsorted⟩
        intro later hlater
        rcases List.mem_cons.mp hlater with rfl | hlater
        · exact hlt
        · exact lt_trans hlt (hfirst later hlater)
      · split
        · exact hsorted
        · rename_i hlt hne
          refine List.pairwise_cons.mpr ⟨?_, ih hrest⟩
          intro later hlater
          rcases mem_insertAddress.mp hlater with rfl | hlater
          · exact lt_of_le_of_ne (not_lt.mp hlt) (Ne.symm hne)
          · exact hfirst later hlater

theorem foldl_insertAddress_sorted (addresses : List Address) {found : List Address}
    (hsorted : found.Pairwise (· < ·)) :
    (addresses.foldl (fun found address => insertAddress address found) found).Pairwise
      (· < ·) := by
  induction addresses generalizing found with
  | nil => exact hsorted
  | cons first rest ih => exact ih (insertAddress_sorted first hsorted)

theorem discover_sorted {extensions : List String} {visits : List Visit}
    {found : Discovered} (h : discover extensions visits = .ok found) :
    found.addresses.Pairwise (· < ·) := by
  unfold discover at h
  split at h
  · cases h
    exact foldl_insertAddress_sorted _ List.Pairwise.nil
  · cases h

/-- Failure has a reason. -/
theorem discover_errors_ne_nil {extensions : List String} {visits : List Visit}
    {errors : List DiscoveryError} (h : discover extensions visits = .error errors) :
    errors ≠ [] := by
  unfold discover at h
  split at h
  · cases h
  · rename_i herrors
    cases h
    exact herrors

namespace Walks

variable {walks : Walks} {extensions arguments : List String}

theorem discover_of_errors {errors : List DiscoveryError}
    (h : SchemaLoom.discover extensions (arguments.flatMap walks.visits) = .error errors) :
    walks.discover extensions arguments = .error errors := by
  rw [discover, h]
  rfl

theorem exists_discover {discovered : Discovered}
    (h : SchemaLoom.discover extensions (arguments.flatMap walks.visits) = .ok discovered) :
    ∃ found, walks.discover extensions arguments = .ok found ∧
      (found.paths = discovered.addresses.map Address.text ∨
        ∃ path, found.paths = [path]) := by
  simp only [discover, h, bind, Except.bind]
  split
  · rename_i path hnone
    split
    · exact ⟨_, rfl, .inr ⟨path, rfl⟩⟩
    · refine ⟨_, rfl, .inl ?_⟩
      rw [hnone]
      rfl
  · exact ⟨_, rfl, .inl rfl⟩

end Walks

namespace FileSystem

variable {files : FileSystem} {extensions arguments : List String}

theorem discover_error_ne_nil {errors : List DiscoveryError}
    (h : files.discover extensions arguments = .error errors) : errors ≠ [] := by
  rw [discover] at h
  cases hvisits : SchemaLoom.discover extensions (arguments.flatMap files.walks.visits) with
  | error found =>
      rw [Walks.discover_of_errors hvisits] at h
      cases h
      exact discover_errors_ne_nil hvisits
  | ok discovered =>
      obtain ⟨found, hfound, _⟩ := Walks.exists_discover hvisits
      rw [hfound] at h
      cases h

/-! Paths from the root: the root itself, and what stands right below it. -/

variable {path name : String} {entries : List (String × FileNode)} {node : FileNode}

theorem locate_root (hroot : files.root = .folder entries) : files.locate "/" = .ok [] := by
  have hat : files.root.at? [] = some (.folder entries) := by
    rw [hroot]
    rfl
  have hsplit : splitText '/' "/" = ["", ""] := by decide
  rw [locate, if_neg (by decide), if_neg (by decide), resolve, hsplit, startOf,
    if_pos (by decide)]
  simp [follow, hat]

theorem resolve_below_root (hroot : files.root = .folder entries)
    (hentry : entries.lookup name = some node) (hnode : ∀ target, node ≠ .link target)
    (hpath : path.toList.head? = some '/' ∧ splitText '/' path = ["", name])
    (hname : name ∉ ["", ".", ".."] ∧ name.utf8ByteSize ≤ nameLimit) :
    files.resolve path = .ok [name] := by
  obtain ⟨hstart, hsplit⟩ := hpath
  have hat : files.root.at? [] = some (.folder entries) := by
    rw [hroot]
    rfl
  simp only [List.mem_cons, List.not_mem_nil, or_false, not_or] at hname
  rw [resolve, hsplit, startOf, if_pos hstart]
  cases node with
  | link target => exact absurd rfl (hnode target)
  | _ => simp [follow, hat, hentry, hname, Nat.not_lt.mpr hname.2]

theorem locate_below_root (hroot : files.root = .folder entries)
    (hentry : entries.lookup name = some node) (hnode : ∀ target, node ≠ .link target)
    (hpath : ('\x00' ∉ path.toList ∧ path.utf8ByteSize ≤ pathLimit) ∧
      path.toList.head? = some '/' ∧ splitText '/' path = ["", name])
    (hname : name ∉ ["", ".", ".."] ∧ name.utf8ByteSize ≤ nameLimit) :
    files.locate path = .ok [name] := by
  obtain ⟨⟨hnul, hlength⟩, hpath⟩ := hpath
  rw [locate, if_neg hnul, if_neg (Nat.not_lt.mpr hlength),
    resolve_below_root hroot hentry hnode hpath hname]

end FileSystem

end SchemaLoom
