import Onyx.Fat.Dir

-- The operations of the FAT32 driver on paths: reading and writing files, `mkdir`, `unlink`, `rename`.

open Lib Fat

namespace Fat32

variable (v : Fat32)

-- `chain` is the chain from index `idx` on; `want` bytes are still to be filled.
def readLoop (d : AtaDrive) (size : Nat) : Nat → List Nat → Nat → Nat → Result FsError Bytes
  | _, [], _, _ => .ok []
  | idx, c :: chain, filePos, want => do
    let cbuf ← v.readCluster d c
    let inOff := filePos - idx * v.clusterBytes
    let n := min (min (v.clusterBytes - inOff) want) (size - filePos)
    let out := cbuf.slice inOff n
    if n = want ∨ filePos + n ≥ size then return out
    else return out ++ (← readLoop d size (idx + 1) chain (filePos + n) (want - n))

-- The bytes a buffer of length `len` receives; their number is what `read_at` returns.
def readAt (d : AtaDrive) (path : Text) (off len : Nat) : Result FsError Bytes := do
  match ← v.resolve d path with
  | none => fail .notFound
  | some .root => fail .notSupported
  | some (.entry e) =>
    if e.isDir then fail .notSupported
    else if e.firstCluster = 0 ∨ off ≥ e.size then return []
    else
      let chain ← v.walkChain d e.firstCluster v.totalClusters
      v.readLoop d e.size (off / v.clusterBytes) (chain.drop (off / v.clusterBytes)) off len

def grow : Nat → List Nat → FatM (List Nat)
  | 0, chain => pure chain
  | k + 1, chain => do
    let c ← v.allocCluster chain.getLast?
    grow k (chain ++ [c])

-- Only a part of a cluster makes it necessary to read the cluster first.
def writePart (c inOff : Nat) (part : Bytes) : FatM Unit :=
  if part.length = v.clusterBytes then v.writeCluster c part
  else do
    let cbuf ← Prog.read (v.readCluster · c)
    v.writeCluster c (cbuf.patch inOff part)

def writeLoop : Nat → List Nat → Nat → Bytes → FatM Unit
  | _, _, _, [] => pure ()
  | _, [], _, _ => Prog.lift abort
  | idx, c :: chain, filePos, buf => do
    let inOff := filePos - idx * v.clusterBytes
    let n := min (v.clusterBytes - inOff) buf.length
    v.writePart c inOff (buf.take n)
    writeLoop (idx + 1) chain (filePos + n) (buf.drop n)

-- The entry `write_at` works on; a missing file is created empty.
def openForWrite (now : ℤ) (path : Text) : FatM RawEntry := do
  match ← Prog.read (v.resolve · path) with
  | some .root => Prog.lift (fail .notSupported)
  | some (.entry e) => if e.isDir then Prog.lift (fail .notSupported) else return e
  | none => do
    let (dirCluster, name) ← Prog.read (v.resolveParent · path)
    v.createEntry now dirCluster name 0 false

def fitChain (first : Nat) (chain : List Nat) (need : Nat) : FatM (List Nat) := do
  let grown ← v.grow (need - chain.length) chain
  if grown.length > need then do
    v.freeFrom first need
    return grown.take need
  else return grown

def clustersFor (newEnd : Nat) : Nat := (newEnd + v.clusterBytes - 1) / v.clusterBytes

-- First cluster 0 stands for a file without clusters.
def fileChain (d : AtaDrive) (first : Nat) : Result FsError (List Nat) :=
  if first = 0 then .ok [] else v.walkChain d first v.totalClusters

def storeAt (now : ℤ) (e : RawEntry) (off : Nat) (buf : Bytes) : FatM Nat := do
  let newEnd ← Prog.lift (checked 64 (off + buf.length))
  if newEnd > 2 ^ 32 - 1 then Prog.lift (fail .notSupported)
  else do
    let chain ← Prog.read (v.fileChain · e.firstCluster)
    let chain' ← v.fitChain e.firstCluster chain (v.clustersFor newEnd)
    -- Only an empty chain that has grown changes the first cluster.
    let first := if chain = [] then chain'.head?.getD e.firstCluster else e.firstCluster
    v.writeLoop (off / v.clusterBytes) (chain'.drop (off / v.clusterBytes)) off buf
    v.writeDirent now { e with firstCluster := first, size := max e.size newEnd }
    return buf.length

def writeAt (now : ℤ) (path : Text) (off : Nat) (buf : Bytes) : FatM Nat := do
  let e ← v.openForWrite now path
  v.storeAt now e off buf

def dotSlot (name : Bytes) (cluster : Nat) : Bytes := packSlot name attrDir cluster 0 .zero

def dotName (n : Nat) : Bytes := List.replicate n 46 ++ List.replicate (11 - n) 32

def makeDir (now : ℤ) (parent : Nat) (name : Text) : FatM Unit := do
  let c ← v.allocCluster none
  let up := if parent = v.rootCluster then 0 else parent
  v.writeCluster c (dotSlot (dotName 1) c ++ dotSlot (dotName 2) up ++
    List.replicate (v.clusterBytes - 64) 0)
  let _ ← v.createEntry now parent name c true

def mkdir (now : ℤ) (path : Text) : FatM Unit := do
  match ← Prog.read (v.resolve · path) with
  | some _ => Prog.lift (fail .alreadyExists)
  | none => do
    let (parent, name) ← Prog.read (v.resolveParent · path)
    v.makeDir now parent name

-- The block cache is write-through, so flushing it changes nothing here.
def fsync (now : ℤ) (path : Text) : FatM Unit := do
  match ← Prog.read (v.resolve · path) with
  | some .root => pure ()
  | some (.entry e) => v.writeDirent now e
  | none => Prog.lift (fail .notFound)

def deleteEntry (e : RawEntry) : FatM Unit := do
  v.removeDirSlots e
  if e.firstCluster ≠ 0 then v.freeFrom e.firstCluster 0 else pure ()

def unlink (path : Text) : FatM Unit := do
  match ← Prog.read (v.resolve · path) with
  | some .root => Prog.lift (fail .notSupported)
  | none => Prog.lift (fail .notFound)
  | some (.entry e) => if e.isDir then Prog.lift (fail .isDir) else v.deleteEntry e

def moveEntry (e : RawEntry) (name : Text) : FatM Unit := do
  let (short, lfn) ← Prog.read (v.deriveName · e.dirCluster name (some e.short))
  let slot := packSlot short (entryAttr e.isDir) e.firstCluster e.size (.ofEntry e)
  let (chain, ci, si) ← v.allocRun e.dirCluster (lfn.length + 1)
  v.writeRun chain ci si lfn slot
  v.removeDirSlots e

def rename (src dst : Text) : FatM Unit := do
  match ← Prog.read (v.resolve · src) with
  | some .root => Prog.lift (fail .notSupported)
  | none => Prog.lift (fail .notFound)
  | some (.entry e) => do
    match ← Prog.read (v.resolve · dst) with
    | some (.entry e') =>
      if e'.dirCluster = e.dirCluster ∧ e'.dirIndex = e.dirIndex then pure ()
      else Prog.lift (fail .alreadyExists)
    | some .root => Prog.lift (fail .alreadyExists)
    | none => do
      let (parent, name) ← Prog.read (v.resolveParent · dst)
      if parent ≠ e.dirCluster then Prog.lift (fail .notSupported)
      else v.moveEntry e name

end Fat32
