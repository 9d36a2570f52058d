import Mathlib.Data.List.Basic

/-! The bytes that `cli_mod_compute_dependency_checksum` feeds to its hash. -/

namespace Tablo.DependencyChecksum

open List

abbrev Bytes := List UInt8

/-- A C string without its final NUL. -/
abbrev CString := {s : Bytes // 0 ∉ s}

def ascii (s : String) : Bytes := s.toList.map fun c => c.toNat.toUInt8

def cliModSourceSignatureFile : Bytes := ascii ".tablo.sig"

/-- The entries of a directory are in the order of `cli_mod_list_dir_sorted`. -/
inductive Tree where
  | file (content : Bytes)
  | dir (entries : List (CString × Tree))

theorem childRel_plain (rel name : CString) : (0 : UInt8) ∉ if rel.1 = [] then name.1 else rel.1 ++ 47 :: name.1 := by
  split
  · exact name.2
  · simp [rel.2, name.2]

def childRel (rel name : CString) : CString := ⟨_, childRel_plain rel name⟩

mutual

/-- The files `cli_mod_hash_tree_recursive` reads, with their relative paths. -/
def hashedFiles (rel : CString) : Tree → List (CString × Bytes)
  | .file content => [(rel, content)]
  | .dir entries => hashedEntries rel entries

def hashedEntries (rel : CString) : List (CString × Tree) → List (CString × Bytes)
  | [] => []
  | (name, child) :: entries =>
    (if name.1 = cliModSourceSignatureFile then [] else hashedFiles (childRel rel name) child) ++
      hashedEntries rel entries

end

def empty : CString := ⟨[], not_mem_nil⟩

structure CliModDependency where
  name : CString
  version : CString
  source : CString
  /-- The directory of a path or registry source; a registry source may have none. -/
  root : Option (List (CString × Tree))

def CliModDependency.files (dep : CliModDependency) : Option (List (CString × Bytes)) :=
  dep.root.map (hashedEntries empty)

def hashedFile (file : CString × Bytes) : Bytes := file.1.1 ++ 0 :: (file.2 ++ [0])

/-- An `int` in memory. -/
def intBytes (n : Nat) : Bytes := [n, n / 256, n / 65536, n / 16777216].map Nat.toUInt8

def hashedTree : Option (List (CString × Bytes)) → Bytes
  | none => []
  | some files => files.flatMap hashedFile ++ (ascii "files" ++ intBytes files.length)

def cliModComputeDependencyChecksum (dep : CliModDependency) : Bytes :=
  dep.name.1 ++ 0 :: (dep.version.1 ++ 0 :: (dep.source.1 ++ 0 :: hashedTree dep.files))

def Same (d d' : CliModDependency) : Prop :=
  d.name = d'.name ∧ d.version = d'.version ∧ d.source = d'.source ∧ d.files = d'.files

/-- No file holds a NUL. -/
def Plain (d : CliModDependency) : Prop := ∀ files ∈ d.files, ∀ file ∈ files, 0 ∉ file.2

/-- A string and its final NUL can be told from what follows. -/
theorem cut {p q : CString} {x y : Bytes} (h : p.1 ++ 0 :: x = q.1 ++ 0 :: y) : p = q ∧ x = y := by
  have htake (p : CString) (x : Bytes) : (p.1 ++ 0 :: x).takeWhile (· != 0) = p.1 := by
    rw [takeWhile_append_of_pos fun c hc => bne_iff_ne.mpr (ne_of_mem_of_not_mem hc p.2)]
    simp
  obtain rfl : p = q := Subtype.ext (by rw [← htake p x, h, htake])
  exact ⟨rfl, by simpa using h⟩

theorem files_inj {fs gs : List (CString × Bytes)} (hf : ∀ f ∈ fs, 0 ∉ f.2) (hg : ∀ g ∈ gs, 0 ∉ g.2) {x y : Bytes}
    (hlen : x.length = y.length) (h : fs.flatMap hashedFile ++ x = gs.flatMap hashedFile ++ y) : fs = gs := by
  induction fs generalizing gs with
  | nil =>
    cases gs with
    | nil => rfl
    | cons g gs =>
      have := congrArg length h
      simp [hashedFile] at this
      omega
  | cons f fs ih =>
    cases gs with
    | nil =>
      have := congrArg length h
      simp [hashedFile] at this
      omega
    | cons g gs =>
      obtain ⟨hf₁, hf⟩ := forall_mem_cons.mp hf
      obtain ⟨hg₁, hg⟩ := forall_mem_cons.mp hg
      simp only [flatMap_cons, hashedFile, append_assoc, cons_append, nil_append] at h
      obtain ⟨hpath, h⟩ := cut h
      obtain ⟨hcontent, h⟩ := @cut ⟨f.2, hf₁⟩ ⟨g.2, hg₁⟩ _ _ h
      rw [ih hf hg h, Prod.ext hpath (congrArg Subtype.val hcontent)]

end Tablo.DependencyChecksum
