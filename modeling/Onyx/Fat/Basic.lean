import Onyx.Fat.Name

-- The FAT32 driver (kernel/src/fat.rs): mounting, cluster and FAT access, cluster chains.

open Lib

structure Fat32 where
  partStart : Nat
  sectorsPerCluster : Nat
  reserved : Nat
  numFats : Nat
  fatSectors : Nat
  rootCluster : Nat
  totalClusters : Nat
  deriving DecidableEq

-- Reads are functions of the drive, writes are programs over it.
abbrev FatM (α : Type) := Prog AtaDrive FsError α

namespace Fat32

open AtaDrive (sectorSize)

def eoc : Nat := 0x0FFFFFFF

def readSectors (d : AtaDrive) (lba count : Nat) : Result FsError Bytes :=
  match d.readSectors lba count with
  | .ok b => .ok b
  | .error e => fail (.io e)

def writeSectors (lba count : Nat) (b : Bytes) : FatM Unit :=
  ⟨fun d => match d.writeSectors lba count b with
    | .ok d' => (.ok (), d')
    | .error e => (fail (.io e), d)⟩

def mount (d : AtaDrive) (partStart : Nat) : Result FsError Fat32 := do
  let sec ← readSectors d partStart 1
  let spc := (sec.getD 13 0).toNat
  let reserved := sec.u16At 14
  let numFats := (sec.getD 16 0).toNat
  let fatSectors := sec.u32At 36
  let rootCluster := sec.u32At 44
  let total32 := sec.u32At 32
  if sec.u16At 11 ≠ sectorSize then fail .badFs
  else if spc = 0 ∨ spc * sectorSize > 8192 then fail .badFs
  else if sec.u16At 17 ≠ 0 ∨ sec.u16At 22 ≠ 0 ∨ numFats = 0 ∨ fatSectors = 0 ∨ rootCluster < 2 ∨
      total32 = 0 ∨ reserved = 0 then fail .badFs
  else
    let dataStart ← checked 32 (reserved + numFats * fatSectors)
    if dataStart ≥ total32 then fail .badFs
    else .ok {
      partStart
      sectorsPerCluster := spc
      reserved, numFats, fatSectors, rootCluster
      totalClusters := (total32 - dataStart) / spc }

variable (v : Fat32)

def clusterBytes : Nat := v.sectorsPerCluster * sectorSize

-- Clusters are numbered from 2.
def clusterLba (c : Nat) : Result FsError Nat := do
  let k ← checkedSub c 2
  checked 64 (v.partStart + v.reserved + v.numFats * v.fatSectors + k * v.sectorsPerCluster)

def readCluster (d : AtaDrive) (c : Nat) : Result FsError Bytes := do
  let lba ← v.clusterLba c
  readSectors d lba v.sectorsPerCluster

def writeCluster (c : Nat) (b : Bytes) : FatM Unit := do
  let lba ← Prog.lift (v.clusterLba c)
  writeSectors lba v.sectorsPerCluster b

def fatLba (f c : Nat) : Result FsError Nat :=
  checked 64 (v.partStart + v.reserved + f * v.fatSectors + c * 4 / sectorSize)

def fatEntry (d : AtaDrive) (c : Nat) : Result FsError Nat := do
  let lba ← v.fatLba 0 c
  let sec ← readSectors d lba 1
  return sec.u32At (c * 4 % sectorSize)

def setFatCopy (c val f : Nat) : FatM Unit := do
  let lba ← Prog.lift (v.fatLba f c)
  let sec ← Prog.read (readSectors · lba 1)
  writeSectors lba 1 (sec.patch (c * 4 % sectorSize) (Bytes.toLe 4 val))

def setFatCopies (c val : Nat) : List Nat → FatM Unit
  | [] => pure ()
  | f :: fs => do
    v.setFatCopy c val f
    setFatCopies c val fs

def setFatEntry (c val : Nat) : FatM Unit := v.setFatCopies c val (List.range v.numFats)

def linkOf (entry : Nat) : Result FsError (Option Nat) :=
  let e := entry % 2 ^ 28
  if e ≥ 0x0FFFFFF8 then .ok none
  else if e < 2 then fail .badFs
  else .ok (some e)

def nextCluster (d : AtaDrive) (c : Nat) : Result FsError (Option Nat) := do
  linkOf (← v.fatEntry d c)

-- `k` is the number of clusters that may still follow.
def walkFrom (d : AtaDrive) : Nat → Nat → Result FsError (List Nat)
  | 0, c => .ok [c]
  | k + 1, c => do
    match ← v.nextCluster d c with
    | none => return [c]
    | some n => return c :: (← walkFrom d k n)

-- At least the first cluster is taken, whatever `max` is.
def walkChain (d : AtaDrive) (first max : Nat) : Result FsError (List Nat) :=
  v.walkFrom d (max - 1) first

def findFree (d : AtaDrive) : List Nat → Result FsError (Option Nat)
  | [] => .ok none
  | c :: cs => do
    if (← v.fatEntry d c) = 0 then return some c else findFree d cs

def allocCluster (prev : Option Nat) : FatM Nat := do
  match ← Prog.read (v.findFree · (List.range' 2 v.totalClusters)) with
  | none => Prog.lift (fail .noSpace)
  | some c => do
    v.setFatEntry c eoc
    match prev with
    | none => pure ()
    | some p => v.setFatEntry p c
    return c

def freeAll : List Nat → FatM Unit
  | [] => pure ()
  | c :: cs => do
    v.setFatEntry c 0
    freeAll cs

def freeFrom (first keep : Nat) : FatM Unit := do
  let chain ← Prog.read (v.walkChain · first v.totalClusters)
  v.freeAll (chain.drop keep)
  if keep > 0 then
    match chain[keep - 1]? with
    | none => Prog.lift abort
    | some c => v.setFatEntry c eoc
  else pure ()

end Fat32
