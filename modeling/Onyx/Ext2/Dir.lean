import Onyx.Ext2.Basic

-- Directories of the ext2 driver: parsing, lookup and listing.

open Lib Prog Result

namespace Text

def utf8 (s : Text) : Bytes := s.flatMap String.utf8EncodeChar

theorem length_utf8 (s : Text) : s.utf8.length = s.len := by
  simp [utf8, len, List.length_flatMap]

def replacement : Char := '�'

def utf8Step (x : UInt8) (rest : Bytes) : Char × Nat :=
  let within (i : Nat) (lo hi : UInt8) : Bool :=
    match rest[i]? with
    | some y => lo ≤ y && y ≤ hi
    | none => false
  let payload (i : Nat) : Nat := (rest.getD i 0).toNat % 64
  if x < 0x80 then (.ofNat x.toNat, 1)
  else if 0xC2 ≤ x ∧ x ≤ 0xDF then
    if within 0 0x80 0xBF then (.ofNat (x.toNat % 32 * 64 + payload 0), 2)
    else (replacement, 1)
  else if 0xE0 ≤ x ∧ x ≤ 0xEF then
    if within 0 (if x = 0xE0 then 0xA0 else 0x80) (if x = 0xED then 0x9F else 0xBF) then
      if within 1 0x80 0xBF then (.ofNat (x.toNat % 16 * 4096 + payload 0 * 64 + payload 1), 3)
      else (replacement, 2)
    else (replacement, 1)
  else if 0xF0 ≤ x ∧ x ≤ 0xF4 then
    if within 0 (if x = 0xF0 then 0x90 else 0x80) (if x = 0xF4 then 0x8F else 0xBF) then
      if within 1 0x80 0xBF then
        if within 2 0x80 0xBF then
          (.ofNat (x.toNat % 8 * 262144 + payload 0 * 4096 + payload 1 * 64 + payload 2), 4)
        else (replacement, 3)
      else (replacement, 2)
    else (replacement, 1)
  else (replacement, 1)

def decodeUtf8 : Nat → Bytes → Text
  | 0, _ => []
  | _, [] => []
  | k + 1, x :: rest =>
    let (c, n) := utf8Step x rest
    c :: decodeUtf8 k (rest.drop (n - 1))

-- `String::from_utf8_lossy`.
def ofUtf8Lossy (b : Bytes) : Text := decodeUtf8 b.length b

end Text

namespace Ext2

-- Free slots have inode 0.
structure DirEnt where
  ino : Nat
  name : Text
  recLen : Nat
  -- From the start of the directory's data.
  offset : Nat
  deriving DecidableEq

def parseBlock (lblock : Nat) (buf : Bytes) : Nat → Nat → Result FsError (List DirEnt)
  | 0, _ => .ok []
  | k + 1, off =>
    if off + 8 ≤ blockSize then
      let len := buf.u16At (off + 4)
      let ino := buf.u32At off
      let nlen := (buf.getD (off + 6) 0).toNat
      if len < 8 ∨ off + len > blockSize then fail .badFs
      else if ino ≠ 0 ∧ 8 + nlen > len then fail .badFs
      else do
        let name := if ino ≠ 0 then Text.ofUtf8Lossy (buf.slice (off + 8) nlen) else []
        let rest ← parseBlock lblock buf k (off + len)
        return { ino, name, recLen := len, offset := lblock * blockSize + off } :: rest
    else .ok []

-- The entry that is read from the record at an offset.
def entryAt (lblock : Nat) (buf : Bytes) (off : Nat) : DirEnt where
  ino := buf.u32At off
  name := if buf.u32At off ≠ 0 then Text.ofUtf8Lossy (buf.slice (off + 8) (buf.getD (off + 6) 0).toNat) else []
  recLen := buf.u16At (off + 4)
  offset := lblock * blockSize + off

structure RecordAt (buf : Bytes) (off : Nat) : Prop where
  header : 8 ≤ buf.u16At (off + 4)
  within : off + buf.u16At (off + 4) ≤ blockSize
  name : buf.u32At off ≠ 0 → 8 + (buf.getD (off + 6) 0).toNat ≤ buf.u16At (off + 4)

theorem parseBlock_end (h : ¬off + 8 ≤ blockSize) : parseBlock l buf k off = .ok [] := by
  cases k with
  | zero => rfl
  | succ k => exact if_neg h

theorem parseBlock_succ_eq_ok (h : off + 8 ≤ blockSize) : parseBlock l buf (k + 1) off = .ok es ↔
    RecordAt buf off ∧ ∃ rest, parseBlock l buf k (off + buf.u16At (off + 4)) = .ok rest ∧ es = entryAt l buf off :: rest := by
  rw [parseBlock, if_pos h]
  dsimp only
  by_cases h1 : buf.u16At (off + 4) < 8 ∨ off + buf.u16At (off + 4) > blockSize
  · rw [if_pos h1]
    refine ⟨nofun, fun ⟨hr, _⟩ => ?_⟩
    have := hr.header
    have := hr.within
    omega
  by_cases h2 : buf.u32At off ≠ 0 ∧ 8 + (buf.getD (off + 6) 0).toNat > buf.u16At (off + 4)
  · rw [if_neg h1, if_pos h2]
    refine ⟨nofun, fun ⟨hr, _⟩ => ?_⟩
    have := hr.name h2.1
    omega
  · rw [if_neg h1, if_neg h2, Result.bind_eq_ok]
    push Not at h1 h2
    constructor
    · rintro ⟨rest, hrest, h⟩
      exact ⟨⟨h1.1, h1.2, h2⟩, rest, hrest, (Except.ok.inj h).symm⟩
    · rintro ⟨_, rest, hrest, rfl⟩
      exact ⟨rest, hrest, rfl⟩

theorem parseBlock_within (h : parseBlock l buf k off = .ok es) (he : e ∈ es) : e.offset % blockSize + e.recLen ≤ blockSize := by
  induction k generalizing off es with
  | zero =>
    cases h
    cases he
  | succ k hi =>
    by_cases hoff : off + 8 ≤ blockSize
    · obtain ⟨hr, rest, hrest, rfl⟩ := (parseBlock_succ_eq_ok hoff).mp h
      obtain rfl | he := List.mem_cons.mp he
      · have hmod : (l * blockSize + off) % blockSize = off := by
          rw [Nat.mul_comm, Nat.mul_add_mod, Nat.mod_eq_of_lt (Nat.lt_of_lt_of_le (by omega) hoff)]
        exact (congrArg (· + _) hmod).trans_le hr.within
      · exact hi hrest he
    · rw [parseBlock_end hoff] at h
      cases h
      cases he

namespace Disk

variable (s : Disk)

-- A hole in a directory has no entries.
def blockEntries (lblock phys : Nat) : Result FsError (List DirEnt) :=
  if phys = 0 then .ok []
  else do
    let buf ← s.readBlock phys
    parseBlock lblock buf (blockSize / 8) 0

def entriesFrom (dir : Inode) : List Nat → Result FsError (List DirEnt)
  | [] => .ok []
  | l :: ls => do
    let phys ← s.mapBlock dir l
    let es ← s.blockEntries l phys
    return es ++ (← entriesFrom dir ls)

def dirEntries (dir : Inode) : Result FsError (List DirEnt) :=
  s.entriesFrom dir (List.range (dir.size / blockSize))

theorem entriesFrom_within (h : s.entriesFrom dir ls = .ok es) (he : e ∈ es) : e.offset % blockSize + e.recLen ≤ blockSize := by
  induction ls generalizing es with
  | nil =>
    cases h
    cases he
  | cons l ls hi =>
    obtain ⟨phys, _, h⟩ := bind_eq_ok.mp h
    obtain ⟨es1, h1, h⟩ := bind_eq_ok.mp h
    obtain ⟨es2, h2, h⟩ := bind_eq_ok.mp h
    cases h
    obtain he | he := List.mem_append.mp he
    · unfold blockEntries at h1
      split_ifs at h1
      · cases h1
        cases he
      · obtain ⟨buf, _, h1⟩ := bind_eq_ok.mp h1
        exact parseBlock_within h1 he
    · exact hi h2 he

def lookupIn (dir : Inode) (name : Text) : Result FsError (Option Inode) := do
  match (← s.dirEntries dir).find? fun e => e.ino ≠ 0 ∧ e.name = name with
  | none => return none
  | some e => return some (← s.readInode e.ino)

def listEntries : List DirEnt → Result FsError (List DirEntry)
  | [] => .ok []
  | e :: es =>
    if e.ino = 0 ∨ e.name = Vfs.dot ∨ e.name = Vfs.dotdot then listEntries es
    else do
      let i ← s.readInode e.ino
      return { name := e.name, size := i.size, isDir := i.isDir } :: (← listEntries es)

def listDir (dir : Inode) : Result FsError (List DirEntry) := do
  s.listEntries (← s.dirEntries dir)

-- All components but the last must be directories.
def resolveFrom (cur : Inode) : List Text → Result FsError (Option Inode)
  | [] => .ok (some cur)
  | c :: cs => do
    match ← s.lookupIn cur c with
    | none => return none
    | some next => if cs ≠ [] ∧ next.isDir = false then fail .badFs else resolveFrom next cs

def resolve (path : Text) : Result FsError (Option Inode) :=
  match Vfs.splitPath path with
  | none => fail .notSupported
  | some parts => do
    let root ← s.readInode rootIno
    s.resolveFrom root parts

def descend (cur : Inode) : List Text → Result FsError Inode
  | [] => .ok cur
  | c :: cs => do
    match ← s.lookupIn cur c with
    | none => fail .notFound
    | some next => if next.isDir then descend next cs else fail .badFs

def resolveParent (path : Text) : Result FsError (Inode × Text) :=
  match Vfs.splitPath path with
  | none => fail .notSupported
  | some parts =>
    match parts.getLast? with
    | none => fail .notSupported
    | some last => do
      let root ← s.readInode rootIno
      let dir ← s.descend root parts.dropLast
      return (dir, last)

def listPath (path : Text) : Result FsError (List DirEntry) := do
  match ← s.resolve path with
  | some i => if i.isDir then s.listDir i else fail .notSupported
  | none => fail .notFound

def openPath (path : Text) : Result FsError Unit := do
  match ← s.resolve path with
  | some _ => return ()
  | none => fail .notFound

def stat (path : Text) : Result FsError FileStat := do
  match ← s.resolve path with
  | some i => return { size := i.size, isDir := i.isDir, atime := i.atime, mtime := i.mtime, ctime := i.ctime }
  | none => fail .notFound

end Disk

-- The bytes a name needs in its record, as 16 bits.
def span (name : Text) : Nat := (8 + name.len + 3) / 4 * 4 % 2 ^ 16

def writeEntry (buf : Bytes) (off ino : Nat) (name : Text) (recLen : Nat) : Bytes :=
  buf.patches [(off, Bytes.toLe 4 ino), (off + 4, Bytes.toLe 2 recLen), (off + 6, [.ofNat (name.len % 256)]),
    (off + 7, [0]), (off + 8, name.utf8)]

def setRecLen (buf : Bytes) (off recLen : Nat) : Bytes := buf.patch (off + 4) (Bytes.toLe 2 recLen)

-- What of an entry's record a new name can take.
def available (e : DirEnt) : Result FsError Nat :=
  if e.ino = 0 then .ok e.recLen else checkedSub e.recLen (span e.name)

def findRoom (need : Nat) : List DirEnt → Result FsError (Option DirEnt)
  | [] => .ok none
  | e :: es => do
    let avail ← available e
    if avail < need then findRoom need es else return some e

-- The block with a new record in the place of `e` or behind its name.
def insertAt (buf : Bytes) (e : DirEnt) (name : Text) (target : Nat) : Bytes :=
  let off := e.offset % blockSize
  let need := span name
  if e.ino = 0 then
    if e.recLen - need ≥ 8 then
      writeEntry (writeEntry buf off target name need) (off + need) 0 [] (e.recLen - need)
    else writeEntry buf off target name e.recLen
  else
    let own := span e.name
    writeEntry (setRecLen buf off own) (off + own) target name (e.recLen - own)

def Disk.entryBlock (s : Disk) (dir : Inode) (e : DirEnt) : Result FsError Nat := do
  match ← s.mapBlock dir (e.offset / blockSize) with
  | 0 => fail .badFs
  | p => return p

-- A directory without room gets one more block.
def extendDir (dir : Inode) (name : Text) (target : Nat) : Ext2M Unit := do
  let (phys, dir) ← ensureBlock dir (dir.size / blockSize)
  let size ← lift (checked 32 (dir.size + blockSize))
  writeInode { dir with size }
  writeBlock phys (writeEntry zeroBlock 0 target name blockSize)

def addDirEntry (dir : Inode) (name : Text) (target : Nat) : Ext2M Unit := do
  let entries ← read (·.dirEntries dir)
  match ← lift (findRoom (span name) entries) with
  | some e => do
    let phys ← read (·.entryBlock dir e)
    let buf ← read (·.readBlock phys)
    writeBlock phys (insertAt buf e name target)
  | none => extendDir dir name target

end Ext2
