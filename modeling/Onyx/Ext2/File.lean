import Onyx.Ext2.Dir

-- The operations of the ext2 driver on paths: reading and writing files, `mkdir`, `unlink`, `rename`.

open Lib

namespace Ext2

namespace Disk

variable (s : Disk)

-- Holes read as zeros.
def readPart (phys inOff take : Nat) : Result FsError Bytes :=
  if phys = 0 then .ok (List.replicate take 0)
  else do
    let b ← s.readBlock phys
    return b.slice inOff take

def readLoop (i : Inode) (pos want : Nat) : Result FsError Bytes :=
  if h : want = 0 then .ok []
  else do
    let take := min (blockSize - pos % blockSize) want
    let phys ← s.mapBlock i (pos / blockSize % 2 ^ 32)
    let out ← s.readPart phys (pos % blockSize) take
    return out ++ (← readLoop i (pos + take) (want - take))
termination_by want
decreasing_by
  have := Nat.mod_lt pos (show 0 < blockSize by decide)
  omega

-- The bytes a buffer of length `len` receives; their number is what `read_at` returns.
def readInodeAt (i : Inode) (off len : Nat) : Result FsError Bytes :=
  if off ≥ i.size ∨ len = 0 then .ok []
  else do
    let stop ← checked 64 (off + len)
    s.readLoop i off (min stop i.size - off)

def readAt (path : Text) (off len : Nat) : Result FsError Bytes := do
  match ← s.resolve path with
  | some i => if i.isDir then fail .notSupported else s.readInodeAt i off len
  | none => fail .notFound

end Disk

def Inode.new (ino mode now : Nat) : Inode where
  ino
  mode
  size := 0
  sectors := 0
  atime := now
  ctime := now
  mtime := now
  blocks := .replicate 15 0

def createIn (now : DateTime) (parent : Inode) (name : Text) : Ext2M Inode := do
  if name.len > 255 then Prog.lift (fail .notSupported)
  else do
    let num ← allocInode
    let i := Inode.new num modeReg (ext2Now now)
    writeInode i
    addDirEntry parent name num
    return i

def mkdirIn (now : DateTime) (parent : Inode) (name : Text) : Ext2M Inode := do
  if name.len > 255 then Prog.lift (fail .notSupported)
  else do
    let num ← allocInode
    let (phys, i) ← ensureBlock (Inode.new num modeDir (ext2Now now)) 0
    let i := { i with size := blockSize }
    writeBlock phys (writeEntry (writeEntry zeroBlock 0 num Vfs.dot 12) 12 parent.ino Vfs.dotdot (blockSize - 12))
    writeInode i
    addDirEntry parent name num
    return i

def mkdir (now : DateTime) (path : Text) : Ext2M Unit := do
  match ← Prog.read (·.resolve path) with
  | some _ => Prog.lift (fail .alreadyExists)
  | none => do
    let (parent, name) ← Prog.read (·.resolveParent path)
    if parent.isDir then do
      let _ ← mkdirIn now parent name
    else Prog.lift (fail .badFs)

-- Only a part of a block makes it necessary to read the block first.
def writePart (phys inOff : Nat) (part : Bytes) : Ext2M Unit :=
  if part.length < blockSize then do
    let b ← Prog.read (·.readBlock phys)
    writeBlock phys (b.patch inOff part)
  else writeBlock phys (zeroBlock.patch inOff part)

def writeLoop (i : Inode) (pos : Nat) (buf : Bytes) : Ext2M Inode :=
  if buf = [] then pure i
  else do
    let _ ← Prog.lift (checked 64 pos)
    let take := min (blockSize - pos % blockSize) buf.length
    let (phys, i) ← ensureBlock i (pos / blockSize % 2 ^ 32)
    writePart phys (pos % blockSize) (buf.take take)
    writeLoop i (pos + take) (buf.drop take)
termination_by buf.length
decreasing_by
  have := Nat.mod_lt pos (show 0 < blockSize by decide)
  have := List.length_pos_of_ne_nil ‹buf ≠ []›
  simp only [List.length_drop]
  omega

-- The clock is not recorded where it shows no time.
def Inode.touch (i : Inode) (now : Nat) : Inode :=
  if now ≠ 0 then { i with mtime := now, ctime := now, atime := now } else i

theorem Inode.ino_touch (i : Inode) (now : Nat) : (i.touch now).ino = i.ino := by
  unfold Inode.touch
  split_ifs <;> rfl

-- The part of `write_at` behind the lookup.
def storeAt (now : DateTime) (i : Inode) (off : Nat) (buf : Bytes) : Ext2M Nat := do
  let i ← writeLoop i off buf
  let newEnd ← Prog.lift (checked 64 (off + buf.length))
  let size := if newEnd > i.size then newEnd % 2 ^ 32 else i.size
  writeInode (Inode.touch { i with size } (ext2Now now))
  return buf.length

def createAt (now : DateTime) (path : Text) : Ext2M Inode := do
  let (parent, name) ← Prog.read (·.resolveParent path)
  createIn now parent name

-- The inode `write_at` works on; a missing file is created empty.
def openForWrite (now : DateTime) (path : Text) : Ext2M Inode := do
  match ← Prog.read (·.resolve path) with
  | some i => if i.isDir then Prog.lift (fail .notSupported) else return i
  | none => createAt now path

-- A write of nothing only creates a missing file.
def createMissing (now : DateTime) (path : Text) : Ext2M Nat := do
  match ← Prog.read (·.resolve path) with
  | some _ => return 0
  | none => do
    let _ ← createAt now path
    return 0

def writeAt (now : DateTime) (path : Text) (off : Nat) (buf : Bytes) : Ext2M Nat :=
  if buf = [] then createMissing now path
  else do
    let i ← openForWrite now path
    storeAt now i off buf

-- The block cache is write-through, so flushing it changes nothing here.
def fsync (path : Text) : Ext2M Unit := do
  match ← Prog.read (·.resolve path) with
  | some i => writeInode i
  | none => Prog.lift (fail .notFound)

def tableEntries (t : Bytes) : List Nat := ((List.range ptrs).map fun k => t.u32At (k * 4)).filter (· ≠ 0)

namespace Disk

variable (s : Disk)

-- A list of tables with the blocks they point to.
def collectTables : List Nat → Result FsError (List Nat)
  | [] => .ok []
  | b :: bs => do
    let t ← s.readBlock b
    return tableEntries t ++ [b] ++ (← collectTables bs)

def collectDouble (b : Nat) : Result FsError (List Nat) :=
  if b = 0 then .ok []
  else do
    let t ← s.readBlock b
    return (← s.collectTables (tableEntries t)) ++ [b]

def collectBlocks (i : Inode) : Result FsError (List Nat) := do
  let single ← s.collectTables ([i.blocks[12]].filter (· ≠ 0))
  let double ← s.collectDouble i.blocks[13]
  return (i.blocks.toList.take direct).filter (· ≠ 0) ++ single ++ double

end Disk

def clearBits (bits : Bytes) : List Nat → Result FsError (Bytes × Nat)
  | [] => .ok (bits, 0)
  | b :: bs =>
    if (b - 1) / 8 ≥ blockSize then abort
    else if bits.bit (b - 1) then do
      let (bits, n) ← clearBits (bits.clearBit (b - 1)) bs
      return (bits, n + 1)
    else clearBits bits bs

def freeInodeBlocks (i : Inode) : Ext2M Unit := do
  let list ← Prog.read (·.collectBlocks i)
  if list = [] then pure ()
  else do
    let s ← Prog.read .ok
    let bits ← Prog.read (·.readBlock s.blockBitmap)
    let (bits, n) ← Prog.lift (clearBits bits list)
    let freeBlocks ← Prog.lift (checked 32 (s.freeBlocks + n))
    Prog.modify fun s => { s with freeBlocks }
    writeBlock s.blockBitmap bits

def freeInode (ino : Nat) : Ext2M Unit := do
  let s ← Prog.read .ok
  let bits ← Prog.read (·.readBlock s.inodeBitmap)
  let (bits, n) ← Prog.lift (clearBits bits [ino])
  let freeInodes ← Prog.lift (checked 32 (s.freeInodes + n))
  Prog.modify fun s => { s with freeInodes }
  writeBlock s.inodeBitmap bits
  syncFreeCounts

-- The first entry for an inode, whatever its name.
def Disk.entryFor (s : Disk) (dir : Inode) (ino : Nat) : Result FsError DirEnt := do
  match (← s.dirEntries dir).find? fun e => e.ino = ino with
  | none => fail .badFs
  | some e => return e

-- The record stays as a free slot.
def unlinkEntry (dir : Inode) (e : DirEnt) : Ext2M Unit := do
  let phys ← Prog.read (·.entryBlock dir e)
  let buf ← Prog.read (·.readBlock phys)
  let off := e.offset % blockSize
  writeBlock phys (buf.patches [(off, Bytes.toLe 4 0), (off + 6, [0])])

def unlink (path : Text) : Ext2M Unit := do
  match ← Prog.read (·.resolve path) with
  | none => Prog.lift (fail .notFound)
  | some i =>
    if i.isDir then Prog.lift (fail .isDir)
    else do
      let (parent, _) ← Prog.read (·.resolveParent path)
      let e ← Prog.read (·.entryFor parent i.ino)
      unlinkEntry parent e
      freeInodeBlocks i
      freeInode i.ino

-- The new name must fit into the old record.
def renameEntry (dir : Inode) (e : DirEnt) (name : Text) : Ext2M Unit := do
  if span name > e.recLen then Prog.lift (fail .notSupported)
  else do
    let phys ← Prog.read (·.entryBlock dir e)
    let buf ← Prog.read (·.readBlock phys)
    let off := e.offset % blockSize
    -- the copy of the name into the block
    if off + 8 + name.len > blockSize then Prog.lift abort
    else writeBlock phys (buf.patches [(off + 6, [.ofNat (name.len % 256)]), (off + 8, name.utf8)])

-- Looks up both paths and both directories, in the order of `rename`.
def Disk.resolveRename (s : Disk) (src dst : Text) : Result FsError (Inode × Inode × Text) := do
  match ← s.resolve src with
  | none => fail .notFound
  | some i =>
    match ← s.resolve dst with
    | some _ => fail .alreadyExists
    | none => do
      let (fromParent, _) ← s.resolveParent src
      let (toParent, name) ← s.resolveParent dst
      if toParent.ino ≠ fromParent.ino then fail .notSupported else return (i, fromParent, name)

def rename (src dst : Text) : Ext2M Unit := do
  let (i, dir, name) ← Prog.read (·.resolveRename src dst)
  let e ← Prog.read (·.entryFor dir i.ino)
  renameEntry dir e name

end Ext2
