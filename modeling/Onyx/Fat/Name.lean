import Onyx.Vfs.Path

-- File names on a FAT volume: short names, long-name slots and the checksum between them (kernel/src/fat.rs).

open Lib List

namespace Fat

def attrLfn : UInt8 := 0x0F
def lfnLast : UInt8 := 0x40
def attrDir : UInt8 := 0x10
def attrVolume : UInt8 := 0x08
def attrArchive : UInt8 := 0x20

-- The first byte of a slot that ends the directory, and of one that has been deleted.
def slotEnd : UInt8 := 0x00
def slotDeleted : UInt8 := 0xE5

def asciiLower (c : Char) : Char :=
  if 'A' ≤ c ∧ c ≤ 'Z' then .ofNat (c.toNat + 32) else c

def eqIgnoreAsciiCase (s t : Text) : Bool := s.map asciiLower = t.map asciiLower

def isAsciiDigit (b : UInt8) : Bool := 48 ≤ b ∧ b ≤ 57
def isAsciiUpper (b : UInt8) : Bool := 65 ≤ b ∧ b ≤ 90
def isAsciiLower (b : UInt8) : Bool := 97 ≤ b ∧ b ≤ 122
def isAsciiAlphanumeric (b : UInt8) : Bool := isAsciiDigit b || isAsciiUpper b || isAsciiLower b

def toAsciiLowercase (b : UInt8) : UInt8 := if isAsciiUpper b then b + 32 else b
def toAsciiUppercase (b : UInt8) : UInt8 := if isAsciiLower b then b - 32 else b

def utf8 (s : Text) : Bytes := s.flatMap String.utf8EncodeChar

def encodeUtf16 (s : Text) : List Nat :=
  s.flatMap fun c =>
    if c.toNat < 0x10000 then [c.toNat]
    else [0xD800 + (c.toNat - 0x10000) / 0x400, 0xDC00 + (c.toNat - 0x10000) % 0x400]

-- `rsplit_once('.')`, with the part in front of the dot not empty; otherwise no extension.
def splitExt (name : Text) : Text × Text :=
  let ext := (name.reverse.takeWhile (· ≠ '.')).reverse
  let base := name.take (name.length - ext.length - 1)
  if name.contains '.' ∧ base ≠ [] then (base, ext) else (name, [])

def isNameByte (b : UInt8) : Bool :=
  isAsciiAlphanumeric b || b == 95 || b == 45 || b == 126

def needsLfn (name : Text) : Bool :=
  let (base, ext) := splitExt name
  base.len > 8 || ext.len > 3 || base.isEmpty || name.len > 12 ||
    !(utf8 name).all fun b => isNameByte b || b == 46

def makeShortName (name : Text) : Result FsError Bytes :=
  let (base, ext) := splitExt name
  if name.contains '/' ∨ name.contains '\\' then fail .notSupported
  else if base = [] ∨ base.len > 8 ∨ ext.len > 3 ∨ name.len > 12 then fail .notSupported
  else if !(utf8 base).all isNameByte then fail .notSupported
  else if !(utf8 ext).all isAsciiAlphanumeric then fail .notSupported
  else
    let field (s : Text) (n : Nat) : Bytes :=
      (utf8 s).map toAsciiUppercase ++ replicate (n - (utf8 s).length) 32
    .ok (field base 8 ++ field ext 3)

def isNameChar (c : Char) : Bool := c.isAlphanum || c == '_' || c == '-' || c == '~'

-- The candidates `STEM~1.EXT`, `STEM~2.EXT`, … up to 99 are tried in turn.
def makeUniqueShort (name : Text) (taken : Text → Bool) : Result FsError Bytes :=
  let (base, ext) := splitExt name
  let stem := (base.filter isNameChar).take 6
  let stem := if stem = [] then ['F', 'I', 'L', 'E'] else stem
  let ext := (ext.filter Char.isAlphanum).take 3
  let cand (n : Nat) : Text :=
    stem ++ '~' :: Nat.toDigits 10 n ++ if ext = [] then [] else '.' :: ext
  match ((range' 1 99).map cand).find? (fun c => !taken c) with
  | some c => makeShortName c
  | none => fail .noSpace

def rotateAdd (sum b : UInt8) : UInt8 :=
  (if sum &&& 1 ≠ 0 then (0x80 : UInt8) else 0) + (sum >>> 1) + b

def lfnChecksum (short : Bytes) : UInt8 := short.foldl rotateAdd 0

-- One long-name slot: `start` is the index of its first character among the UTF-16 units.
def lfnSlot (units : List Nat) (sum : UInt8) (order start : Nat) : Bytes :=
  let unit (i : Nat) : Bytes := Bytes.toLe 2 ((units[start + i]?).getD 0)
  [.ofNat order ||| (if order = 1 then lfnLast else 0)] ++ (range' 0 5).flatMap unit ++
    [attrLfn, 0, sum] ++ (range' 5 6).flatMap unit ++ [0, 0] ++ (range' 11 2).flatMap unit

-- In physical order: the highest order number comes first and holds the first characters.
def lfnSlots (name : Text) (short : Bytes) : List Bytes :=
  let trimmed := name.rdropWhile fun c => c = ' ' ∨ c = '.'
  let units := encodeUtf16 trimmed
  let count := max ((units.length + 12) / 13) 1
  (range' 1 count).reverse.map fun order =>
    lfnSlot units (lfnChecksum short) order ((count - order) * 13)

def shortName (slot : Bytes) : Text :=
  let lower := slot.getD 12 0
  let base := match slot.slice 0 8 with
    | [] => []
    | x :: b => (if x = 0x05 then 0xE5 else x) :: b
  let decode (flag : UInt8) (b : Bytes) : Text :=
    (b.takeWhile (· ≠ 32)).map fun x =>
      .ofNat (if lower &&& flag ≠ 0 then toAsciiLowercase x else x).toNat
  let ext := slot.slice 8 3
  decode 0x08 base ++ if ext.any (· ≠ 32) then '.' :: decode 0x10 ext else []

-- The 13 characters of a long-name slot: five, six and two units at offsets 1, 14 and 28.
def lfnPart (slot : Bytes) : Bytes := slot.slice 1 10 ++ slot.slice 14 12 ++ slot.slice 28 4

def lfnUnits (part : Bytes) : List Nat := (range 13).map fun i => part.u16At (2 * i)

def charFromU16 (u : Nat) : Char := if 0xD800 ≤ u ∧ u ≤ 0xDFFF then '?' else .ofNat u

-- Sorting is by descending order number and stable; the first padding unit ends the name.
def lfnName (parts : List (UInt8 × Bytes)) : Text :=
  let sorted := parts.insertionSort fun a b => b.1 ≤ a.1
  let units := sorted.flatMap fun p => lfnUnits p.2
  (units.takeWhile fun u => u ≠ 0x0000 ∧ u ≠ 0xFFFF).map charFromU16

end Fat
