import Onyx.Block.Ata

-- What the file systems share (kernel/src/vfs.rs): errors, metadata and absolute paths.

-- Strings are sequences of characters; lengths the source takes in bytes are those of the UTF-8 form.
abbrev Text := List Char

def Text.len (s : Text) : Nat := (s.map Char.utf8Size).sum

inductive FsError
  | notFound
  | alreadyExists
  | notSupported
  | noSpace
  | badFs
  | io (e : AtaError)
  | isDir
  deriving DecidableEq, Repr

structure FileStat where
  size : Nat
  isDir : Bool
  atime : Nat
  mtime : Nat
  ctime : Nat
  deriving DecidableEq

structure DirEntry where
  name : Text
  size : Nat
  isDir : Bool
  deriving DecidableEq

namespace Vfs

def dot : Text := ['.']
def dotdot : Text := ['.', '.']

def splitPath (path : Text) : Option (List Text) :=
  if path.head? ≠ some '/' ∨ path.len > 512 then none
  else
    let comps := ((path.drop 1).splitOn '/').filter (· ≠ [])
    if comps.any fun c => c = dot ∨ c = dotdot ∨ Text.len c > 255 then none else some comps

theorem comp_of_splitPath (h : splitPath path = some comps) (hc : c ∈ comps) :
    c ≠ dot ∧ c ≠ dotdot ∧ c.len ≤ 255 := by
  simp only [splitPath] at h
  split_ifs at h with _ h2
  cases h
  simp only [List.any_eq_true, not_exists, decide_eq_true_eq, not_and, not_or, Nat.not_lt] at h2
  exact h2 c hc

theorem ne_dot_of_splitPath (h : splitPath path = some comps) (hc : c ∈ comps) : c ≠ dot ∧ c ≠ dotdot :=
  have ⟨h1, h2, _⟩ := comp_of_splitPath h hc
  ⟨h1, h2⟩

end Vfs
