import Onyx.Lib.Bitmap
import Onyx.Rtc
import Onyx.Vfs.Path

-- The ext2 driver (kernel/src/ext2.rs): mounting, blocks, inodes, block mapping and allocation.

open Lib Prog Bytes

-- The inode size is left out: `mount` accepts only 128.
structure Ext2 where
  partStart : Nat
  blocksCount : Nat
  inodesCount : Nat
  blocksPerGroup : Nat
  inodesPerGroup : Nat
  blockBitmap : Nat
  inodeBitmap : Nat
  inodeTable : Nat
  freeBlocks : Nat
  freeInodes : Nat
  deriving DecidableEq

-- A mounted instance and the drive it works on.
structure Ext2.Disk extends Ext2 where
  dev : AtaDrive

abbrev Ext2M (α : Type) := Prog Ext2.Disk FsError α

namespace Ext2

def superMagic : Nat := 0xEF53
def blockSize : Nat := 1024
def rootIno : Nat := 2
def direct : Nat := 12
def ptrs : Nat := blockSize / 4
def inodeSize : Nat := 128
def modeDir : Nat := 0x4000
def modeReg : Nat := 0x8000

-- The wall clock as Unix seconds, clamped to 32 bits.
def ext2Now (now : DateTime) : Nat := (max 0 (min (now.toUnix.getD 0) (2 ^ 32 - 1))).toNat

def zeroBlock : Bytes := List.replicate blockSize 0

def readPartBlock (d : AtaDrive) (partStart block : Nat) : Result FsError Bytes := do
  let lba ← checked 64 (partStart + block * 2)
  match d.readSectors lba 2 with
  | .ok b => .ok b
  | .error e => fail (.io e)

def mount (d : AtaDrive) (partStart : Nat) : Result FsError Ext2 := do
  let sb ← readPartBlock d partStart 1
  if sb.u16At 56 ≠ superMagic then fail .badFs
  else if sb.u32At 24 ≠ 0 then fail .notSupported
  else if sb.u32At 20 ≠ 1 then fail .badFs
  else if (if sb.u32At 76 = 0 then inodeSize else sb.u16At 88) ≠ inodeSize then fail .notSupported
  else if sb.u32At 4 = 0 ∨ sb.u32At 0 = 0 ∨ sb.u32At 32 = 0 ∨ sb.u32At 40 = 0 ∨
      sb.u32At 32 > 8 * blockSize then fail .badFs
  -- The number of groups, rounded up.
  else if (sb.u32At 4 - 1 + sb.u32At 32 - 1) / sb.u32At 32 ≠ 1 then fail .notSupported
  else do
    let gd ← readPartBlock d partStart 2
    if gd.u32At 0 = 0 ∨ gd.u32At 4 = 0 ∨ gd.u32At 8 = 0 then fail .badFs
    else if gd.u32At 0 ≥ sb.u32At 4 ∨ gd.u32At 4 ≥ sb.u32At 4 ∨ gd.u32At 8 ≥ sb.u32At 4 then fail .badFs
    else return {
      partStart
      blocksCount := sb.u32At 4
      inodesCount := sb.u32At 0
      blocksPerGroup := sb.u32At 32
      inodesPerGroup := sb.u32At 40
      blockBitmap := gd.u32At 0
      inodeBitmap := gd.u32At 4
      inodeTable := gd.u32At 8
      freeBlocks := sb.u32At 12
      freeInodes := sb.u32At 16 }

structure Inode where
  ino : Nat
  mode : Nat
  size : Nat
  -- 512-byte sectors, those of indirect blocks included.
  sectors : Nat
  atime : Nat
  ctime : Nat
  mtime : Nat
  blocks : Vector Nat 15
  deriving DecidableEq

namespace Inode

def isDir (i : Inode) : Bool := i.mode &&& 0xF000 = modeDir

-- The fields of the inode numbered `ino` whose record in the inode table is `p`.
def decode (ino : Nat) (p : Bytes) : Inode where
  ino
  mode := p.u16At 0
  size := p.u32At 4
  sectors := p.u32At 28
  atime := p.u32At 8
  ctime := p.u32At 12
  mtime := p.u32At 16
  blocks := .ofFn fun k => p.u32At (40 + k.val * 4)

-- What is written to the record, by offset.
def fields (i : Inode) : List (Nat × Bytes) :=
  [(0, toLe 2 i.mode), (4, toLe 4 i.size), (28, toLe 4 i.sectors), (8, toLe 4 i.atime),
    (12, toLe 4 i.ctime), (16, toLe 4 i.mtime)] ++
    (List.finRange 15).map fun k => (40 + k.val * 4, toLe 4 i.blocks[k])

end Inode

def inodeBlock (v : Ext2) (ino : Nat) : Result FsError Nat := do
  let idx ← checkedSub ino 1
  checked 32 (v.inodeTable + idx * inodeSize / blockSize)

def inodeOff (ino : Nat) : Nat := (ino - 1) * inodeSize % blockSize

namespace Disk

variable (s : Disk)

def readBlock (b : Nat) : Result FsError Bytes := readPartBlock s.dev s.partStart b

def readInode (ino : Nat) : Result FsError Inode := do
  if ino = 0 ∨ ino > s.inodesCount then fail .badFs
  else do
    let block ← s.inodeBlock ino
    let b ← s.readBlock block
    return .decode ino (b.slice (inodeOff ino) inodeSize)

-- Table 0 stands for a hole.
def indirectLookup (tbl idx : Nat) : Result FsError Nat := do
  if tbl = 0 then return 0
  else
    let b ← s.readBlock tbl
    return b.u32At (idx * 4)

def mapBlock (i : Inode) (idx : Nat) : Result FsError Nat :=
  if h : idx < direct then .ok (i.blocks.get ⟨idx, Nat.lt_trans h (by decide)⟩)
  else if idx - direct < ptrs then s.indirectLookup i.blocks[12] (idx - direct)
  else if idx - direct - ptrs < ptrs * ptrs then do
    let mid ← s.indirectLookup i.blocks[13] ((idx - direct - ptrs) / ptrs)
    s.indirectLookup mid ((idx - direct - ptrs) % ptrs)
  else fail .notSupported

end Disk

def writeBlock (b : Nat) (data : Bytes) : Ext2M Unit :=
  ⟨fun s => match checked 64 (s.partStart + b * 2) with
    | .error f => (.error f, s)
    | .ok lba =>
      match s.dev.writeSectors lba 2 data with
      | .ok d => (.ok (), { s with dev := d })
      | .error e => (fail (.io e), s)⟩

def writeInode (i : Inode) : Ext2M Unit := do
  let block ← read (·.inodeBlock i.ino)
  let b ← read (·.readBlock block)
  writeBlock block (b.patch (inodeOff i.ino) ((b.slice (inodeOff i.ino) inodeSize).patches i.fields))

-- The cached counts go to the superblock and to bytes 8 to 11 of the group descriptor.
def syncFreeCounts : Ext2M Unit := do
  let s ← read .ok
  let sb ← read (·.readBlock 1)
  writeBlock 1 (sb.patches [(12, toLe 4 s.freeBlocks), (16, toLe 4 s.freeInodes)])
  let gd ← read (·.readBlock 2)
  writeBlock 2 (gd.patches [(8, toLe 2 (s.freeBlocks % 2 ^ 16)), (10, toLe 2 (s.freeInodes % 2 ^ 16))])

def takeBit (bitmap : Nat) : Ext2M Nat := do
  let bits ← read (·.readBlock bitmap)
  match bits.firstClear with
  | none => lift (fail .noSpace)
  | some i => do
    writeBlock bitmap (bits.setBit i)
    return i

def allocBlock : Ext2M Nat := do
  let s ← read .ok
  if s.freeBlocks = 0 then lift (fail .noSpace)
  else do
    let i ← takeBit s.blockBitmap
    modify fun s => { s with freeBlocks := s.freeBlocks - 1 }
    syncFreeCounts
    writeBlock (i + 1) zeroBlock
    return i + 1

def allocInode : Ext2M Nat := do
  let s ← read .ok
  if s.freeInodes = 0 then lift (fail .noSpace)
  else do
    let i ← takeBit s.inodeBitmap
    modify fun s => { s with freeInodes := s.freeInodes - 1 }
    syncFreeCounts
    return i + 1

def ensureField (i : Inode) (k : Fin 15) : Ext2M (Nat × Inode) := do
  if i.blocks[k] ≠ 0 then return (i.blocks[k], i)
  else do
    let nb ← allocBlock
    let sectors ← lift (checked 32 (i.sectors + blockSize / AtaDrive.sectorSize))
    return (nb, { i with blocks := i.blocks.set k nb, sectors })

def ensureSlot (tbl idx : Nat) : Ext2M Nat := do
  let t ← read (·.readBlock tbl)
  if t.u32At (idx * 4) ≠ 0 then return t.u32At (idx * 4)
  else do
    let nb ← allocBlock
    writeBlock tbl (t.patch (idx * 4) (toLe 4 nb))
    return nb

def ensureBlock (i : Inode) (idx : Nat) : Ext2M (Nat × Inode) :=
  if h : idx < direct then ensureField i ⟨idx, Nat.lt_trans h (by decide)⟩
  else if idx - direct < ptrs then do
    let (tbl, i) ← ensureField i 12
    let b ← ensureSlot tbl (idx - direct)
    return (b, i)
  else if idx - direct - ptrs < ptrs * ptrs then do
    let (l1, i) ← ensureField i 13
    let mid ← ensureSlot l1 ((idx - direct - ptrs) / ptrs)
    let b ← ensureSlot mid ((idx - direct - ptrs) % ptrs)
    return (b, i)
  else lift (fail .notSupported)

end Ext2
