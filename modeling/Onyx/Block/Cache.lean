import Onyx.Block.Ata
import Onyx.Lib.Clock
import Onyx.Lib.Execution
import Onyx.Lib.Hoare

-- The sector cache (kernel/src/blkcache.rs) over the raw transfers of kernel/src/ata.rs, without its counters.

open Lib

namespace Blkcache

open AtaDrive (sectorSize reach)

def cacheEntries : Nat := 2048
def readAhead : Nat := 4

instance : NeZero cacheEntries := ⟨by decide⟩

abbrev Entries := Clock Nat Bytes cacheEntries

structure Cache where
  entries : Entries
  lastSeqEnd : Nat
  seqValid : Bool

def Cache.new : Cache where
  entries := { slots := .replicate _ { key := 0, valid := false, dwell := false, data := .replicate sectorSize 0 }, hand := 0 }
  lastSeqEnd := 0
  seqValid := false

structure Layer where
  cache : Cache
  drive : AtaDrive
  faults : Nat → Option (Nat × AtaError)

abbrev BlkM (α : Type) := Prog Layer AtaError α

namespace Layer

def withEntries (s : Layer) (c : Entries) : Layer := { s with cache := { s.cache with entries := c } }

def persist (s : Layer) (lba : Nat) (b : Bytes) : Layer := { s with drive := s.drive.store (lba * sectorSize) b }

def inRange (s : Layer) (lba count : Nat) : Result AtaError Unit :=
  if s.drive.InRange lba count then .ok () else fail .outOfRange

end Layer

def sector (b : Bytes) (k : Nat) : Bytes := b.slice (k * sectorSize) sectorSize

def nextFault : BlkM (Option (Nat × AtaError)) :=
  ⟨fun s => (.ok (s.faults 0), { s with faults := fun i => s.faults (i + 1) })⟩

def readSectorsRaw (lba count room : Nat) : BlkM Bytes :=
  if count = 0 ∨ room < count * sectorSize then Prog.lift abort
  else do
    let _ ← Prog.read (·.inRange lba count)
    match ← nextFault with
    | none => Prog.read fun s => .ok (s.drive.content (reach lba count * sectorSize) (count * sectorSize))
    | some (_, e) => Prog.lift (fail e)

-- A transfer that fails has given the drive the sectors before the failure.
def writeSectorsRaw (lba count : Nat) (buf : Bytes) : BlkM Unit :=
  if count = 0 ∨ buf.length < count * sectorSize then Prog.lift abort
  else do
    let _ ← Prog.read (·.inRange lba count)
    match ← nextFault with
    | none => Prog.modify (·.persist (reach lba count) (buf.take (count * sectorSize)))
    | some (k, e) => do
      Prog.modify (·.persist (reach lba count) (buf.take (min k count * sectorSize)))
      Prog.lift (fail e)

def find (lba : Nat) : BlkM (Option Bytes) :=
  ⟨fun s => match s.cache.entries.find lba with
    | some (data, c) => (.ok (some data), s.withEntries c)
    | none => (.ok none, s)⟩

def insertAll (c : Entries) (lba : Nat) (b : Bytes) (run : Nat) : Entries :=
  (List.range run).foldl (fun c k => c.insert (lba + k) (sector b k)) c

-- The number of sectors from `s` on that are not cached, `rem` at most.
def misses (c : Entries) (s : Nat) : Nat → Nat
  | 0 => 0
  | rem + 1 => if c.contains s then 0 else misses c (s + 1) rem + 1

-- How many sectors after `s` join its raw read: up to a cached one, at most `rem`.
def coalesce (st : Layer) (s rem : Nat) : Result AtaError Nat := do
  let more := misses st.cache.entries (s + 1) (rem - 1)
  let _ ← checked 64 (if more + 1 < rem then s + more + 1 else s + more)
  return more

def readLoop (s rem : Nat) : BlkM Bytes :=
  if rem = 0 then pure []
  else do
    let _ ← Prog.lift (checked 64 s)
    match ← find s with
    | some data => do
      let rest ← readLoop (s + 1) (rem - 1)
      return data ++ rest
    | none => do
      let more ← Prog.read (coalesce · s rem)
      let b ← readSectorsRaw s (more + 1) ((more + 1) * sectorSize)
      Prog.modify fun st => st.withEntries (insertAll st.cache.entries s b (more + 1))
      let rest ← readLoop (s + (more + 1)) (rem - (more + 1))
      return b ++ rest
termination_by rem

-- A raw read that fails leaves no trace here.
def prefetchRun (s run : Nat) : BlkM Unit := do
  match ← (readSectorsRaw s run (run * sectorSize)).attempt with
  | some b => Prog.modify fun st => st.withEntries (insertAll st.cache.entries s b run)
  | none => pure ()

-- Up to `rem` sectors from `s` on are read ahead.
def prefetch (s rem : Nat) : BlkM Unit :=
  if rem = 0 then pure ()
  else do
    let _ ← Prog.lift (checked 64 s)
    let cached ← Prog.read fun st => .ok (st.cache.entries.contains s)
    if cached then prefetch (s + 1) (rem - 1)
    else do
      let more ← Prog.read (coalesce · s rem)
      prefetchRun s (more + 1)
      prefetch (s + (more + 1)) (rem - (more + 1))
termination_by rem

def finishRead (sequential : Bool) (stop : Nat) : BlkM Unit := do
  Prog.modify fun s => { s with cache := { s.cache with lastSeqEnd := stop, seqValid := true } }
  if sequential then prefetch stop readAhead else pure ()

-- The bytes the first `count` sectors of a buffer of length `room` receive.
def read (lba : Nat) (count : UInt8) (room : Nat) : BlkM Bytes :=
  if count = 0 ∨ room < count.toNat * sectorSize then readSectorsRaw lba count.toNat room
  else do
    let sequential ← Prog.read fun s => .ok (s.cache.seqValid && lba == s.cache.lastSeqEnd)
    let b ← readLoop lba count.toNat
    let stop ← Prog.lift (checked 64 (lba + count.toNat))
    finishRead sequential stop
    return b

def write (lba : Nat) (count : UInt8) (buf : Bytes) : BlkM Unit := do
  writeSectorsRaw lba count.toNat buf
  Prog.modify fun s =>
    { s with cache := { s.cache with entries := insertAll s.cache.entries lba buf count.toNat, seqValid := false } }

def flush : BlkM Unit :=
  Prog.modify fun s => { s with cache := { s.cache with entries := s.cache.entries.clear, seqValid := false } }

end Blkcache
