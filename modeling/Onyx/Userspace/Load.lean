import Onyx.Userspace.Elf

-- `load_elf`: the PT_LOAD segments are mapped and filled, then the relocations are applied.

open Lib List

namespace Userspace

abbrev LoadM := UserM String

structure ElfLoadInfo where
  entry : Nat
  phnum : Nat
  phdrVaddr : Option Nat
  atBase : Nat
  deriving DecidableEq, Repr

def phdrRange : String := "phdr/header out of range"

-- The offset of program header `i`, and that all 56 bytes of it are in the file.
def programHeader (elf : Image) (phoff phentsize i : Nat) : Result String Nat := do
  let ph ← tableEntry "phdr overflow" "phdr offset overflow" phoff i phentsize
  let stop ← checked 64 (ph + 56)
  if elf.len < stop then fail "phdr out of range" else .ok ph

-- One round of the search for the lowest preferred address.
def prefStep (elf : Image) (phoff phentsize pref i : Nat) : Result String Nat := do
  let ph ← programHeader elf phoff phentsize i
  let type ← elf.rd phdrRange 4 ph
  if type = ptLoad then do
    let vaddr ← elf.field phdrRange 8 ph 16
    .ok (min pref (pageDown vaddr))
  else .ok pref

-- What is added to the addresses of the file.
def loadBase (elf : Image) (eType phoff phentsize phnum : Nat) : Result String Nat :=
  if eType = etDyn then do
    let pref ← (range phnum).foldlM (prefStep elf phoff phentsize) (2 ^ 64 - 1)
    if pref = 2 ^ 64 - 1 then fail "no PT_LOAD segments" else checkedSub lnxPieLoadBase pref
  else .ok 0

structure Segment where
  flags : Nat
  offset : Nat
  filesz : Nat
  memsz : Nat
  mapVa : Nat
  start : Nat
  stop : Nat
  deriving DecidableEq, Repr

namespace Segment

variable (seg : Segment)

def executable : Bool := seg.flags.testBit 0

def writable : Bool := seg.flags.testBit 1

-- Writable at first, so that the contents can be copied in.
def mapFlags : PageFlags := { writable := true, user := true, noExecute := !seg.executable }

def finalFlags : PageFlags := { writable := seg.writable, user := true, noExecute := !seg.executable }

def pageCount : Nat := (seg.stop - seg.start) / pageSize

end Segment

-- The mutable locals of the segment loop.
structure Loading where
  loaded : Nat
  phdrVaddr : Option Nat
  extents : List (Nat × Nat)
  deriving DecidableEq, Repr

-- The address of the program header table, if it lies in the file bytes of this segment.
def phdrVaddr (known : Option Nat) (base phoff offset vaddr filesz : Nat) : Result String (Option Nat) :=
  if known = none ∧ offset ≤ phoff ∧ phoff - offset < filesz then do
    let mapped ← checked 64 (base + vaddr)
    let found ← checked 64 (mapped + (phoff - offset))
    .ok (some found)
  else .ok known

-- Where a segment goes: its bounds and the checks on them.
def placeSegment (elf : Image) (base flags offset vaddr filesz memsz : Nat) : Result String Segment := do
  let dataEnd ← fits "size overflow" (offset + filesz)
  if elf.len < dataEnd then
    fail "segment data out of range"
  else if memsz < filesz then
    fail "memsz < filesz"
  else do
    let mapVa ← fits "segment vaddr overflow" (base + vaddr)
    let room ← fits "segment size overflow" (memsz + pageMask)
    let top ← fits "segment size overflow" (mapVa + room)
    let start := pageDown mapVa
    let stop := pageDown top
    if stop ≤ start ∨ start < userTextBase ∨ userMaxAddr < stop then
      fail "segment outside reserved region"
    else
      .ok { flags, offset, filesz, memsz, mapVa, start, stop }

def readSegment (elf : Image) (phoff phentsize base : Nat) (known : Option Nat) (i : Nat) :
    Result String (Option (Option Nat × Segment)) := do
  let ph ← programHeader elf phoff phentsize i
  let type ← elf.rd phdrRange 4 ph
  if type = ptLoad then do
    let flags ← elf.field phdrRange 4 ph 4
    let offset ← elf.field phdrRange 8 ph 8
    let vaddr ← elf.field phdrRange 8 ph 16
    let filesz ← elf.field phdrRange 8 ph 32
    let memsz ← elf.field phdrRange 8 ph 40
    let known ← phdrVaddr known base phoff offset vaddr filesz
    let seg ← placeSegment elf base flags offset vaddr filesz memsz
    .ok (some (known, seg))
  else .ok none

-- Maps a segment, copies it in, clears the rest of it and sets its final protection.
def mapSegment (elf : Image) (seg : Segment) : LoadM Unit := do
  eachPage (mapPage · seg.mapFlags) seg.start seg.pageCount
  store seg.mapVa (elf.bytes.slice seg.offset seg.filesz)
  store (seg.mapVa + seg.filesz) (replicate (seg.memsz - seg.filesz) 0)
  if seg.finalFlags ≠ seg.mapFlags then
    eachPage (updateFlags · seg.finalFlags) seg.start seg.pageCount
  else pure ()

def loadSegment (elf : Image) (phoff phentsize base : Nat) (l : Loading) (i : Nat) : LoadM Loading := do
  let found ← Prog.lift (readSegment elf phoff phentsize base l.phdrVaddr i)
  match found with
  | none => pure l
  | some (known, seg) => do
    mapSegment elf seg
    pure { loaded := l.loaded + 1, phdrVaddr := known, extents := l.extents ++ [(seg.start, seg.stop)] }

def shtRela : Nat := 4

def shtDynsym : Nat := 11

def relaRange : String := "rela section out of range"

-- The offset of section header `i`, and that all 64 bytes of it are in the file.
def sectionHeader (elf : Image) (shoff shentsize i : Nat) : Result String Nat := do
  let sh ← tableEntry "shdr overflow" "shdr offset overflow" shoff i shentsize
  let stop ← checked 64 (sh + 64)
  if elf.len < stop then fail "shdr out of range" else .ok sh

-- Offset and size of .dynsym and of .dynstr.
structure Symbols where
  dynsym : Option (Nat × Nat)
  dynstr : Option (Nat × Nat)
  deriving DecidableEq, Repr

-- The tables that the SHT_DYNSYM header at `sh` names.
def readSymbols (elf : Image) (shoff shentsize sh : Nat) : Result String Symbols := do
  let off ← elf.field relaRange 8 sh 24
  let size ← elf.field relaRange 8 sh 32
  let link ← elf.field relaRange 4 sh 40
  let strh ← tableEntry "shdr overflow" "shdr offset overflow" shoff link shentsize
  let stop ← checked 64 (strh + 64)
  if stop ≤ elf.len then do
    let strOff ← elf.field relaRange 8 strh 24
    let strSize ← elf.field relaRange 8 strh 32
    .ok ⟨some (off, size), some (strOff, strSize)⟩
  else .ok ⟨some (off, size), none⟩

-- The first SHT_DYNSYM section ends the search.
def findSymbols (elf : Image) (shoff shentsize : Nat) : List Nat → Result String Symbols
  | [] => .ok ⟨none, none⟩
  | i :: is => do
    let sh ← sectionHeader elf shoff shentsize i
    let type ← elf.field relaRange 4 sh 4
    if type = shtDynsym then readSymbols elf shoff shentsize sh else findSymbols elf shoff shentsize is

namespace Symbols

variable (tab : Symbols) (elf : Image)

-- The offset of a symbol, with which sym_name and sym_addr both begin.
def entry (idx : Nat) : Result String Nat :=
  match tab.dynsym with
  | none             => fail "symbol reloc without .dynsym"
  | some (off, size) => do
    let skip ← fits "sym index overflow" (idx * 24)
    let s ← fits "sym out of range" (off + skip)
    let stop ← checked 64 (s + 24)
    let limit ← checked 64 (off + size)
    if limit < stop ∨ elf.len < stop then fail "sym out of range" else .ok s

-- The name of a symbol, cut after 32 bytes. It is only written to the log.
def symName (idx : Nat) : Result String Bytes := do
  let s ← tab.entry elf idx
  let stName ← elf.rd relaRange 4 s
  match tab.dynstr with
  | none             => fail "symbol reloc without .dynstr"
  | some (off, size) => do
    let base ← fits "sym name out of range" (off + stName)
    let limit ← checked 64 (off + size)
    if limit ≤ base ∨ elf.len ≤ base then
      fail "sym name out of range"
    else match (elf.bytes.slice base (min limit elf.len - base)).findIdx? (· = 0) with
      | none   => fail "unterminated sym name"
      | some p => .ok (elf.bytes.slice base (min p 32))

def symAddr (idx : Nat) : Result String Nat := do
  let s ← tab.entry elf idx
  let shndx ← elf.field "sym out of range" 2 s 6
  if shndx = 0 then
    match tab.symName elf idx with
    | .error .panic => abort
    | _             => fail "symbol reloc for undefined symbol"
  else elf.field relaRange 8 s 8

end Symbols

-- Whether the eight bytes at `target` lie in one of the extents.
def inExtents (target : Nat) : List (Nat × Nat) → Result String Bool
  | [] => .ok false
  | (s, e) :: es =>
    if s ≤ target then do
      let stop ← checked 64 (target + 8)
      if stop ≤ e then .ok true else inExtents target es
    else inExtents target es

def rRelative : Nat := 8

def rGlobDat : Nat := 6

def rJumpSlot : Nat := 7

-- The value an entry asks to be written; `none` for the types that are passed over.
def relocationValue (elf : Image) (tab : Symbols) (base info addend : Nat) : Result String (Option Nat) :=
  if info % 2 ^ 32 = rRelative then
    .ok (some ((base + addend) % 2 ^ 64))
  else if info % 2 ^ 32 = rGlobDat ∨ info % 2 ^ 32 = rJumpSlot then do
    let addr ← tab.symAddr elf (info / 2 ^ 32)
    .ok (some ((base + addr + addend) % 2 ^ 64))
  else .ok none

def relocationTarget (target : Nat) (extents : List (Nat × Nat)) :
    Option Nat → Result String (Option (Nat × Nat))
  | none => .ok none
  | some value => do
    let target ← fits "relocation target overflow" target
    let inside ← inExtents target extents
    if inside then .ok (some (target, value)) else fail "relocation target outside loaded segments"

-- The write an Elf64_Rela entry asks for.
def relocation (elf : Image) (tab : Symbols) (base : Nat) (extents : List (Nat × Nat)) (off : Nat) :
    Result String (Option (Nat × Nat)) := do
  let rOffset ← elf.rd relaRange 8 off
  let info ← elf.field relaRange 8 off 8
  let addend ← elf.field "rela entry out of range" 8 off 16
  let value ← relocationValue elf tab base info addend
  relocationTarget (base + rOffset) extents value

-- The relocations are counted in 32 bits, for the log.
def applyRelocation (elf : Image) (tab : Symbols) (base : Nat) (extents : List (Nat × Nat)) (applied off : Nat) :
    LoadM Nat := do
  let write ← Prog.lift (relocation elf tab base extents off)
  match write with
  | none => pure applied
  | some (target, value) => do
    writeVolatile target value
    Prog.lift (checked 32 (applied + 1))

-- Where the entries of a SHT_RELA section begin and how many fit into it.
def relaSection (elf : Image) (shoff shentsize i : Nat) : Result String (Option (Nat × Nat)) := do
  let sh ← sectionHeader elf shoff shentsize i
  let type ← elf.field relaRange 4 sh 4
  if type = shtRela then do
    let off ← elf.field relaRange 8 sh 24
    let size ← elf.field relaRange 8 sh 32
    if off + size < 2 ^ 64 ∧ off + size ≤ elf.len then .ok (some (off, size / 24)) else fail relaRange
  else .ok none

def applySection (elf : Image) (tab : Symbols) (base : Nat) (extents : List (Nat × Nat))
    (shoff shentsize applied i : Nat) : LoadM Nat := do
  let found ← Prog.lift (relaSection elf shoff shentsize i)
  match found with
  | none => pure applied
  | some (off, count) =>
    (range count).foldlM (fun applied k => applyRelocation elf tab base extents applied (off + k * 24)) applied

-- The two passes over the section headers.
def applySections (elf : Image) (base : Nat) (extents : List (Nat × Nat)) (shoff shentsize shnum : Nat) :
    LoadM Unit := do
  let tab ← Prog.lift (findSymbols elf shoff shentsize (range shnum))
  let _applied ← (range shnum).foldlM (applySection elf tab base extents shoff shentsize) 0
  pure ()

def applyRelativeRelocations (elf : Image) (base : Nat) (extents : List (Nat × Nat)) : LoadM Unit := do
  let shoff ← Prog.lift (elf.rd relaRange 8 40)
  let shentsize ← Prog.lift (elf.rd "section header out of range" 2 58)
  let shnum ← Prog.lift (elf.rd "section header out of range" 2 60)
  if shoff = 0 ∨ shentsize < 64 then pure () else applySections elf base extents shoff shentsize shnum

-- The header as `load_elf_inner` checks it: entry, phoff, phentsize, phnum and type.
structure Header where
  statedEntry : Nat
  phoff : Nat
  phentsize : Nat
  phnum : Nat
  eType : Nat
  deriving DecidableEq, Repr

def readHeader (elf : Image) : Result String Header :=
  if elf.len < 64 then
    fail "truncated (no ELF header)"
  else if elf.bytes.take 4 ≠ Image.magic then
    fail "bad magic"
  else if elf.bytes[4]? ≠ some 2 then
    fail "not 64-bit"
  else if elf.bytes[5]? ≠ some 1 then
    fail "not little-endian"
  else do
    let statedEntry ← elf.rd phdrRange 8 24
    let phoff ← elf.rd phdrRange 8 32
    let phentsize ← elf.rd phdrRange 2 54
    let phnum ← elf.rd phdrRange 2 56
    let eType ← elf.rd phdrRange 2 16
    if eType ≠ etExec ∧ eType ≠ etDyn then
      fail "not ET_EXEC/ET_DYN"
    else if phentsize < 56 then
      fail "bad phentsize"
    else
      .ok { statedEntry, phoff, phentsize, phnum, eType }

def entryPoint (base statedEntry : Nat) : Result String Nat := do
  let entry ← checked 64 (base + statedEntry)
  if userTextBase ≤ entry ∧ entry < userMaxAddr then .ok entry else fail "entry point out of range"

-- A fixed-base image needs no relocations.
def relocate (elf : Image) (eType base : Nat) (extents : List (Nat × Nat)) : LoadM Unit :=
  if eType = etDyn then applyRelativeRelocations elf base extents else pure ()

-- What is left to do once it is known where the image goes.
def mapImage (elf : Image) (h : Header) (base entry : Nat) : LoadM ElfLoadInfo := do
  let l ← (range h.phnum).foldlM (loadSegment elf h.phoff h.phentsize base) ⟨0, none, []⟩
  if l.loaded = 0 then
    Prog.lift (fail "no PT_LOAD segments")
  else do
    relocate elf h.eType base l.extents
    pure {
      entry
      phnum := h.phnum
      phdrVaddr := l.phdrVaddr
      atBase := if h.eType = etDyn then lnxPieLoadBase else 0 }

def loadElf (elf : Image) : LoadM ElfLoadInfo := do
  let h ← Prog.lift (readHeader elf)
  let base ← Prog.lift (loadBase elf h.eType h.phoff h.phentsize h.phnum)
  let entry ← Prog.lift (entryPoint base h.statedEntry)
  mapImage elf h base entry

end Userspace
