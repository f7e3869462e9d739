import Onyx.Userspace.Space

-- The ELF64 image as the loader reads it, and `elf_region`, the check made before anything is mapped.

open Lib

namespace Userspace

-- The bytes of an image. A slice is never longer than `isize::MAX`.
structure Image where
  bytes : Bytes
  small : bytes.length < 2 ^ 63

def etExec : Nat := 2

def etDyn : Nat := 3

def ptLoad : Nat := 1

def lnxPieLoadBase : Nat := 0x2000000

variable {ε : Type}

namespace Image

variable (elf : Image)

def len : Nat := elf.bytes.length

-- The little-endian number of `width` bytes at an offset.
def value (width off : Nat) : Nat := Bytes.ofLe (elf.bytes.slice off width)

def rd (e : ε) (width off : Nat) : Result ε Nat := do
  let stop ← checked 64 (off + width)
  if stop ≤ elf.len then .ok (elf.value width off) else fail e

def field (e : ε) (width base off : Nat) : Result ε Nat := do
  let pos ← checked 64 (base + off)
  elf.rd e width pos

def magic : Bytes := [0x7F, 0x45, 0x4C, 0x46]

-- A 64-bit little-endian ELF file with room for its header.
def Elf64 : Prop :=
  64 ≤ elf.len ∧ elf.bytes.take 4 = magic ∧ elf.bytes[4]? = some 2 ∧ elf.bytes[5]? = some 1

instance : Decidable elf.Elf64 := inferInstanceAs (Decidable (_ ∧ _ ∧ _ ∧ _))

def eType : Nat := elf.value 2 16

def statedEntry : Nat := elf.value 8 24

def phoff : Nat := elf.value 8 32

def shoff : Nat := elf.value 8 40

def phentsize : Nat := elf.value 2 54

def phnum : Nat := elf.value 2 56

def shentsize : Nat := elf.value 2 58

def shnum : Nat := elf.value 2 60

end Image

section readers

variable {elf : Image} {e : ε}

theorem Image.len_lt : elf.len < 2 ^ 63 := elf.small

theorem Image.value_lt (elf : Image) (width off : Nat) : elf.value width off < 256 ^ width :=
  Bytes.ofLe_slice_lt elf.bytes off width

theorem Image.exact_rd : Exact (elf.rd e width off) (2 ^ 64 ≤ off + width) (off + width ≤ elf.len) (elf.value width off) := by
  have := elf.len_lt
  exact .congr (.bind .checked fun _ => .ite (fun _ => .ok) fun _ => .fail) (by grind) (by grind)

theorem Image.exact_field : Exact (elf.field e width base off) (2 ^ 64 ≤ base + off + width) (base + off + width ≤ elf.len)
    (elf.value width (base + off)) := by
  have := elf.len_lt
  exact .congr (.bind .checked fun _ => exact_rd) (by omega) (by omega)

end readers

-- `checked_add` and `checked_mul` with `?` or `ok_or`.
def fits (e : ε) (n : Nat) : Result ε Nat := if n < 2 ^ 64 then .ok n else fail e

-- The offset of an entry of the program or section header table.
def tableEntry (eMul eAdd : ε) (off i size : Nat) : Result ε Nat := do
  let skip ← fits eMul (i * size)
  fits eAdd (off + skip)

theorem exact_fits : Exact (fits e n) False (n < 2 ^ 64) n :=
  .congr (.ite (fun _ => .ok) fun _ => .fail) (by simp) (by simp)

theorem exact_tableEntry :
    Exact (tableEntry eMul eAdd off i size) False (off + i * size < 2 ^ 64) (off + i * size) :=
  .congr (.bind exact_fits fun _ => exact_fits) (by simp) (by omega)

def regionStep (elf : Image) (phoff phentsize : Nat) (extent : Nat × Nat) (i : Nat) : Result Unit (Nat × Nat) := do
  let ph ← tableEntry () () phoff i phentsize
  let type ← elf.rd () 4 ph
  if type = ptLoad then do
    let vaddr ← elf.field () 8 ph 16
    let memsz ← elf.field () 8 ph 40
    let sum ← fits () (vaddr + memsz)
    let up ← fits () (sum + pageMask)
    .ok (min extent.1 (pageDown vaddr), max extent.2 (pageDown up))
  else .ok extent

-- Where the extent is mapped: a position-independent image goes to the fixed load region.
def mapExtent (eType lo hi : Nat) : Result Unit (Nat × Nat) :=
  if eType = etDyn then do
    let stop ← checked 64 (lnxPieLoadBase + (hi - lo))
    .ok (lnxPieLoadBase, stop)
  else .ok (lo, hi)

-- What is left of `elf_region` once the extent of the segments is known.
def placeExtent (eType lo hi : Nat) : Result Unit (Nat × Nat) :=
  if lo = 2 ^ 64 - 1 ∨ hi ≤ lo then
    fail ()
  else do
    let mapped ← mapExtent eType lo hi
    if mapped.1 < userTextBase ∨ userMaxAddr < mapped.2 then fail () else .ok mapped

def elfRegion (elf : Image) : Result Unit (Nat × Nat) :=
  if ¬elf.Elf64 then
    fail ()
  else do
    let eType ← elf.rd () 2 16
    let phoff ← elf.rd () 8 32
    let phentsize ← elf.rd () 2 54
    let phnum ← elf.rd () 2 56
    if phentsize < 56 then
      fail ()
    else do
      let extent ← (List.range phnum).foldlM (regionStep elf phoff phentsize) (2 ^ 64 - 1, 0)
      placeExtent eType extent.1 extent.2

end Userspace
