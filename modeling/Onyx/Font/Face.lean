import Onyx.Lib.Bytes

-- The font file of `font.rs`: big-endian readers and the table directory of a face.

namespace Font

open Lib

def be16 (b : Bytes) (o : Nat) : Option Nat := do
  return (← b[o]?).toNat * 256 + (← b[o + 1]?).toNat

-- `as i16`
def toI16 (n : Nat) : Int := if n < 0x8000 then n else n - 0x10000

def bei16 (b : Bytes) (o : Nat) : Option Int :=
  (be16 b o).map toI16

def be32 (b : Bytes) (o : Nat) : Option Nat := do
  return (← be16 b o) * 65536 + (← be16 b (o + 2))

structure Table where
  off : Nat
  len : Nat
deriving DecidableEq, Repr

-- The offsets into a slice stay below `2 ^ 63`: no sum of an offset and a field overflows.
structure Face where
  data       : Bytes
  loca       : Table
  glyf       : Table
  cmap       : Table
  numGlyphs  : Nat
  indexToLoc : Int
deriving DecidableEq, Repr

def need (e : String) : Option α → Except String α
  | some a => .ok a
  | none => .error e

def record (data : Bytes) (i : Nat) : Except String (Bytes × Table) := do
  let at_ := 12 + i * 16
  let tag ← need "font: truncated table dir" (if at_ + 4 ≤ data.length then some (data.slice at_ 4) else none)
  let off ← need "font: truncated table off" (be32 data (at_ + 8))
  let len ← need "font: truncated table len" (be32 data (at_ + 12))
  if off > data.length ∨ len > data.length ∨ off + len > data.length then
    throw "font: table out of range"
  return (tag, { off, len })

def Face.parse (data : Bytes) : Except String Face := do
  let ver ← need "font: truncated header" (be32 data 0)
  if ver = 0x4F54544F then throw "font: CFF outlines unsupported (need glyf)"
  if ver ≠ 0x00010000 ∧ ver ≠ 0x74727565 then throw "font: not a TrueType sfnt"
  let numTables ← need "font: truncated numTables" (be16 data 4)
  let dir ← (List.range numTables).mapM (record data)
  -- A later record replaces an earlier one of the same tag.
  let table tag := need "font: missing a required table" <| (dir.reverse.find? (·.1 = tag)).map (·.2)
  let head ← table [0x68, 0x65, 0x61, 0x64]
  let hhea ← table [0x68, 0x68, 0x65, 0x61]
  let maxp ← table [0x6D, 0x61, 0x78, 0x70]
  let _hmtx ← table [0x68, 0x6D, 0x74, 0x78]
  let loca ← table [0x6C, 0x6F, 0x63, 0x61]
  let glyf ← table [0x67, 0x6C, 0x79, 0x66]
  let cmap ← table [0x63, 0x6D, 0x61, 0x70]
  let unitsPerEm ← need "font: bad head" (be16 data (head.off + 18))
  if unitsPerEm = 0 then throw "font: unitsPerEm is zero"
  let indexToLoc ← need "font: bad head" (bei16 data (head.off + 50))
  let _ascender ← need "font: bad hhea" (bei16 data (hhea.off + 4))
  let _descender ← need "font: bad hhea" (bei16 data (hhea.off + 6))
  let _numHMetrics ← need "font: bad hhea" (be16 data (hhea.off + 34))
  let numGlyphs ← need "font: bad maxp" (be16 data (maxp.off + 4))
  return { data, loca, glyf, cmap, numGlyphs, indexToLoc }

-- A directory of seven tables, the fields of four of them read from the directory itself.
def header (loca glyf cmap : Nat × Nat) : Bytes :=
  let entry (tag : Bytes) (t : Nat × Nat) : Bytes :=
    tag ++ [0, 0, 0, 0, 0, 0, .ofNat (t.1 / 256), .ofNat t.1, 0, 0, .ofNat (t.2 / 256), .ofNat t.2]
  [0, 1, 0, 0, 0, 7, 0, 0, 0, 0, 0, 0] ++
    entry [0x68, 0x65, 0x61, 0x64] (10, 0) ++ entry [0x68, 0x68, 0x65, 0x61] (0, 0) ++
    entry [0x6D, 0x61, 0x78, 0x70] (0, 0) ++ entry [0x68, 0x6D, 0x74, 0x78] (0, 0) ++
    entry [0x6C, 0x6F, 0x63, 0x61] loca ++ entry [0x67, 0x6C, 0x79, 0x66] glyf ++
    entry [0x63, 0x6D, 0x61, 0x70] cmap

-- The number the two bytes at `o` hold, in a file that reaches as far.
def word (b : Bytes) (o : Nat) : Nat := (be16 b o).getD 0

def long (b : Bytes) (o : Nat) : Nat := (be32 b o).getD 0

theorem be16_eq (h : o + 2 ≤ b.length) : be16 b o = some (word b o) := by
  have h1 : o < b.length := by omega
  have h2 : o + 1 < b.length := by omega
  simp [word, be16, h1, h2]

theorem be32_eq (h : o + 4 ≤ b.length) : be32 b o = some (long b o) := by
  have h1 : be16 b o = some _ := be16_eq (by omega)
  have h2 : be16 b (o + 2) = some _ := be16_eq (by omega)
  simp [long, be32, h1, h2]

theorem word_lt : word b o < 65536 := by
  unfold word be16
  cases h1 : b[o]? with
  | none => simp
  | some x =>
    cases h2 : b[o + 1]? with
    | none => simp
    | some y =>
      have := x.toNat_lt
      have := y.toNat_lt
      simp
      omega

end Font
