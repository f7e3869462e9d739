import Onyx.Fat.Basic
import Onyx.Fat.Slot

-- Directories of the FAT32 driver: scanning, resolving paths, reserving and writing slots.

open Lib Fat Prog Bytes

namespace Fat32

variable (v : Fat32)

def slotsPerCluster : Nat := v.clusterBytes / 32

-- Slot indices are `u32`s, computed when an entry is collected.
def scanClusters (d : AtaDrive) (dirCluster : Nat) :
    Nat → LfnRun → List Nat → Result FsError (List RawEntry)
  | _, _, [] => .ok []
  | ci, run, c :: chain => do
    let buf ← v.readCluster d c
    let (out, run') := scanSlots dirCluster (ci * v.slotsPerCluster) run (slotsOf buf)
    if out.any fun e => 2 ^ 32 ≤ e.dirIndex then abort
    else match run' with
      | none => return out
      | some run => return out ++ (← scanClusters d dirCluster (ci + 1) run chain)

def scanDir (d : AtaDrive) (dirCluster : Nat) : Result FsError (List RawEntry) := do
  let chain ← v.walkChain d dirCluster v.totalClusters
  v.scanClusters d dirCluster 0 .empty chain

def findIn (d : AtaDrive) (dirCluster : Nat) (name : Text) : Result FsError (Option RawEntry) := do
  let es ← v.scanDir d dirCluster
  return es.find? fun e => eqIgnoreAsciiCase e.name name || eqIgnoreAsciiCase e.short name

def descend (d : AtaDrive) (dir : Nat) : List Text → Result FsError Nat
  | [] => .ok dir
  | comp :: comps => do
    match ← v.findIn d dir comp with
    | none => fail .notFound
    | some e =>
      if !e.isDir ∨ e.firstCluster < 2 then fail .badFs
      else descend d e.firstCluster comps

def resolve (d : AtaDrive) (path : Text) : Result FsError (Option Resolution) :=
  match Vfs.splitPath path with
  | none => fail .notSupported
  | some parts =>
    match parts.getLast? with
    | none => .ok (some .root)
    | some last => do
      let dir ← v.descend d v.rootCluster parts.dropLast
      return (← v.findIn d dir last).map .entry

def resolveParent (d : AtaDrive) (path : Text) : Result FsError (Nat × Text) :=
  match Vfs.splitPath path with
  | none => fail .notSupported
  | some parts =>
    match parts.getLast? with
    | none => fail .notSupported
    | some last => do
      let dir ← v.descend d v.rootCluster parts.dropLast
      return (dir, last)

def listDir (d : AtaDrive) (dirCluster : Nat) : Result FsError (List DirEntry) := do
  let es ← v.scanDir d dirCluster
  return (es.filter fun e => e.name ≠ Vfs.dot ∧ e.name ≠ Vfs.dotdot).map fun e =>
    { name := e.name, size := e.size, isDir := e.isDir }

def list (d : AtaDrive) (path : Text) : Result FsError (List DirEntry) := do
  match ← v.resolve d path with
  | some .root => v.listDir d v.rootCluster
  | some (.entry e) =>
    if e.isDir ∧ e.firstCluster ≥ 2 then v.listDir d e.firstCluster else fail .notSupported
  | none => fail .notFound

def stat (d : AtaDrive) (path : Text) : Result FsError FileStat := do
  match ← v.resolve d path with
  | some .root => return { size := 0, isDir := true, atime := 0, mtime := 0, ctime := 0 }
  | some (.entry e) => return {
      size := e.size, isDir := e.isDir, atime := e.atime, mtime := e.mtime, ctime := e.ctime }
  | none => fail .notFound

def deriveName (d : AtaDrive) (dirCluster : Nat) (name : Text) (exceptShort : Option Text) :
    Result FsError (Bytes × List Bytes) := do
  if needsLfn name then
    let es ← v.scanDir d dirCluster
    let taken := (es.map (·.short)).filter fun s => !exceptShort.any (eqIgnoreAsciiCase s)
    let short ← makeUniqueShort name fun cand => taken.any (eqIgnoreAsciiCase · cand)
    return (short, lfnSlots name short)
  else
    let short ← makeShortName name
    return (short, [])

def searchRun (d : AtaDrive) (need : Nat) : Nat → List Nat → Result FsError (Option (Nat × Nat))
  | _, [] => .ok none
  | ci, c :: chain => do
    let buf ← v.readCluster d c
    match freeRun need buf with
    | some si => return some (ci, si)
    | none => searchRun d need (ci + 1) chain

-- The cluster a full directory is extended with is used as it is found: nothing zeroes it.
def allocRun (dirCluster need : Nat) : FatM (List Nat × Nat × Nat) := do
  let chain ← read (v.walkChain · dirCluster v.totalClusters)
  match ← read (v.searchRun · need 0 chain) with
  | some (ci, si) => return (chain, ci, si)
  | none => do
    let c ← v.allocCluster chain.getLast?
    return (chain ++ [c], chain.length, 0)

def putSlots : Bytes → Nat → List Bytes → Result FsError Bytes
  | buf, _, [] => .ok buf
  | buf, si, slot :: slots =>
    if si * 32 + 32 ≤ buf.length then putSlots (buf.patch (si * 32) slot) (si + 1) slots else abort

def writeRun (chain : List Nat) (ci si : Nat) (lfn : List Bytes) (slot : Bytes) : FatM Unit := do
  match chain[ci]? with
  | none => lift abort
  | some c => do
    let buf ← read (v.readCluster · c)
    let buf ← lift (putSlots buf si (lfn ++ [slot]))
    v.writeCluster c buf

def trimSpaces (s : Text) : Text := (s.dropWhile (· = ' ')).rdropWhile (· = ' ')

def createEntry (now : ℤ) (dirCluster : Nat) (name : Text) (firstCluster : Nat) (isDir : Bool) :
    FatM RawEntry := do
  if name.contains '/' ∨ name.contains '\\' then lift (fail .notSupported)
  else do
    let _ ← read (v.walkChain · dirCluster v.totalClusters)
    let (short, lfn) ← read (v.deriveName · dirCluster name none)
    let (chain, ci, si) ← v.allocRun dirCluster (lfn.length + 1)
    let dirIndex ← lift (checked 32 (ci * v.slotsPerCluster + si + lfn.length))
    v.writeRun chain ci si lfn (packSlot short (entryAttr isDir) firstCluster 0 (.ofNow now))
    let stamp := (now % 2 ^ 32).toNat
    return {
      name
      short := trimSpaces (short.map fun b => .ofNat b.toNat)
      firstCluster
      size := 0
      atime := stamp, mtime := stamp, ctime := stamp
      isDir, dirIndex, dirCluster }

def editSlot (dirCluster idx : Nat) (edit : Bytes → Nat → Bytes) : FatM Unit := do
  let chain ← read (v.walkChain · dirCluster v.totalClusters)
  match chain[idx / v.slotsPerCluster]? with
  | none => lift (fail .badFs)
  | some c => do
    let buf ← read (v.readCluster · c)
    v.writeCluster c (edit buf (idx % v.slotsPerCluster))

-- First cluster, size and, when there is a clock, write time and access date.
def direntSlot (now : ℤ) (e : RawEntry) (slot : Bytes) : Bytes :=
  let slot := slot.patch 20 (toLe 2 (e.firstCluster / 2 ^ 16))
  let slot := slot.patch 26 (toLe 2 (e.firstCluster % 2 ^ 16))
  let slot := slot.patch 28 (toLe 4 e.size)
  if now = 0 then slot
  else
    let (wt, wd) := unixToFatTimeDate now
    ((slot.patch 22 (toLe 2 wt)).patch 24 (toLe 2 wd)).patch 18 (toLe 2 wd)

def writeDirent (now : ℤ) (e : RawEntry) : FatM Unit :=
  v.editSlot e.dirCluster e.dirIndex fun buf si =>
    buf.patch (si * 32) (direntSlot now e (buf.slice (si * 32) 32))

def markDeleted (buf : Bytes) (si : Nat) : Bytes := buf.patch (si * 32) [slotDeleted]

-- The long-name slots right in front of slot `si`, back to the first slot that is not one.
def clearLfnBefore (buf : Bytes) : Nat → Bytes
  | 0 => buf
  | back + 1 =>
    if slotAttr (buf.slice (back * 32) 32) = attrLfn then clearLfnBefore (markDeleted buf back) back
    else buf

def removeDirSlots (e : RawEntry) : FatM Unit :=
  v.editSlot e.dirCluster e.dirIndex fun buf si => clearLfnBefore (markDeleted buf si) si

end Fat32
