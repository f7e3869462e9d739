import Onyx.Block.Cache
import Onyx.Vfs.Path

-- The partition tables (kernel/src/block.rs) and the choice of one to mount (kernel/src/vfs.rs).

open Lib

namespace Block

open AtaDrive (sectorSize)
open Blkcache (BlkM readSectorsRaw writeSectorsRaw)

def gptEntryMin : Nat := 128
def gptEntryMax : Nat := 4096
def gptMaxEntries : Nat := 4096
def gptMaxSectors : Nat := 4096

inductive Layout
  | mbr
  | gpt
  deriving DecidableEq, Repr

structure Partition where
  startLba : Nat
  sectors : Nat
  kind : Text
  name : Option Text
  deriving DecidableEq, Repr

structure Disk where
  layout : Layout
  partitions : List Partition
  diskGuid : Text
  deriving DecidableEq, Repr

def hex (x : UInt8) : Text := [Nat.digitChar (x.toNat / 16), Nat.digitChar (x.toNat % 16)]

def mbrTypeName (t : UInt8) : Text :=
  let s :=
    match t.toNat with
    | 0x01               => "FAT12"
    | 0x04 | 0x06 | 0x0E => "FAT16"
    | 0x07               => "NTFS/exFAT"
    | 0x0B               => "FAT32"
    | 0x0C               => "FAT32 (LBA)"
    | 0x20               => "bootloader (stage-2/kernel)"
    | 0x83               => "Linux"
    | 0xEE               => "GPT protective"
    | 0xDA               => "non-FS data"
    | _                  => "unknown"
  "type=0x".toList ++ hex t ++ " (".toList ++ s.toList ++ ")".toList

def mbrEntry (e : Bytes) : Option Partition :=
  let ptype := e.getD 4 0
  if ptype = 0 ∨ ptype = 0xEE then none
  else some { startLba := e.u32At 8, sectors := e.u32At 12, kind := mbrTypeName ptype, name := none }

def scanMbr (mbr : Bytes) : List Partition :=
  (List.range 4).filterMap fun i => mbrEntry (mbr.slice (446 + i * 16) 16)

def validateGptGeometry (entrySize entryCount : Nat) : Except String Unit :=
  if entrySize < gptEntryMin then
    .error s!"GPT entry size {entrySize} below minimum {gptEntryMin}"
  else if entrySize > gptEntryMax then
    .error s!"GPT entry size {entrySize} above maximum {gptEntryMax}"
  else if entryCount > gptMaxEntries then
    .error s!"GPT entry count {entryCount} above maximum {gptMaxEntries}"
  else
    .ok ()

def fmtGuid (b : Bytes) : Text :=
  let byte (i : Nat) : Text := (hex (b.getD i 0)).map Char.toUpper
  let group (is : List Nat) : Text := is.flatMap byte
  group [3, 2, 1, 0] ++ ['-'] ++ group [5, 4] ++ ['-'] ++ group [7, 6] ++ ['-'] ++ group [8, 9] ++ ['-'] ++
    group [10, 11, 12, 13, 14, 15]

def guidKind (g : Bytes) : Text :=
  let t := fmtGuid g
  if t = "C12A7328-F81F-11D2-BA4B-00A0C93EC93B".toList then "EFI System".toList
  else if t = "EBD0A0A2-B9E5-4433-87C0-68B6B72699C7".toList then "Microsoft basic data".toList
  else if t = "0FC63DAF-8483-4772-8E79-3D69D8477DE4".toList then "Linux filesystem".toList
  else if t = "0657FD6D-A4AB-43C4-84E5-0933C84B4F4F".toList then "Linux swap".toList
  else "GUID ".toList ++ t

-- `char::from_u32`, with '?' for half of a surrogate pair.
def unitChar (u : Nat) : Char := if 0xD800 ≤ u ∧ u ≤ 0xDFFF then '?' else .ofNat u

-- UTF-16LE in bytes 56..128, up to the first zero.
def gptName (e : Bytes) : Option Text :=
  let name := (((List.range 36).map fun k => e.u16At (56 + 2 * k)).takeWhile (· ≠ 0)).map unitChar
  if name = [] then none else some name

-- Both the difference and the sum saturate.
def gptEntry (e : Bytes) : Option Partition :=
  if e.slice 0 16 = .replicate 16 0 then none
  else
    let first := e.u64At 32
    let last := e.u64At 40
    some { startLba := first, sectors := min (last - first + 1) (2 ^ 64 - 1), kind := guidKind (e.slice 0 16), name := gptName e }

def gptEntries (table : Bytes) (entrySize entryCount : Nat) : List Partition :=
  ((List.range entryCount).takeWhile fun i => i * entrySize + entrySize ≤ table.length).filterMap
    fun i => gptEntry (table.slice (i * entrySize) entrySize)

def wantSectors (entrySize entryCount : Nat) : Nat :=
  min ((entryCount * entrySize + (sectorSize - 1)) / sectorSize) gptMaxSectors

-- One call reads 255 sectors at most.
def readTable (lba remaining : Nat) : BlkM Bytes :=
  if remaining = 0 then pure []
  else do
    let chunk := min remaining 255
    let b ← Blkcache.read lba (.ofNat chunk) (chunk * sectorSize)
    let lba ← Prog.lift (checked 64 (lba + chunk))
    let rest ← readTable lba (remaining - chunk)
    return b ++ rest
termination_by remaining

def efiPart : Bytes := [0x45, 0x46, 0x49, 0x20, 0x50, 0x41, 0x52, 0x54]

-- The slots that the protective table leaves free are read by the rules of `scan_mbr`.
def followHeader (lba0 hdr : Bytes) : BlkM (Layout × List Partition × Text) :=
  if hdr.slice 0 8 ≠ efiPart then return (.mbr, [], [])
  else
    match validateGptGeometry (hdr.u32At 84) (hdr.u32At 80) with
    | .error _ => return (.gpt, [], [])
    | .ok _ => do
      match ← (readTable (hdr.u64At 72) (wantSectors (hdr.u32At 84) (hdr.u32At 80))).attempt with
      | none => return (.gpt, [], [])
      | some table =>
        return (.gpt, gptEntries table (hdr.u32At 84) (hdr.u32At 80) ++ scanMbr lba0, fmtGuid (hdr.slice 56 16))

def scanGpt (lba0 : Bytes) : BlkM (Layout × List Partition × Text) := do
  match ← (Blkcache.read 1 1 sectorSize).attempt with
  | none => return (.mbr, [], [])
  | some hdr => followHeader lba0 hdr

-- Sector 0, if two reads of it agree.
def readVerify : BlkM (Option Bytes) := do
  match ← (readSectorsRaw 0 1 sectorSize).attempt with
  | none => return none
  | some a =>
    match ← (readSectorsRaw 0 1 sectorSize).attempt with
    | none => return none
    | some b => return if a = b then some a else none

-- The log line of each partition has the address of its end.
def report : List Partition → Result AtaError Unit
  | [] => .ok ()
  | p :: ps => do
    let _ ← checked 64 (p.startLba + p.sectors)
    report ps

-- The last sector is written back as it is.
def writeVerify : BlkM Bool := do
  let total ← Prog.read fun s => .ok s.drive.totalSectors
  if total = 0 then return false
  else
    match ← (readSectorsRaw (total - 1) 1 sectorSize).attempt with
    | none => return false
    | some before =>
      match ← (writeSectorsRaw (total - 1) 1 before).attempt with
      | none => return false
      | some _ => return (← (readSectorsRaw (total - 1) 1 sectorSize).attempt) == some before

def scan (a : Bytes) : BlkM (Layout × List Partition × Text) :=
  if a.getD (446 + 4) 0 = 0xEE then scanGpt a else return (.mbr, scanMbr a, [])

def finish : Layout × List Partition × Text → BlkM (Option Disk)
  | (layout, partitions, diskGuid) => do
    Prog.lift (report partitions)
    let _ ← writeVerify
    return some { layout, partitions, diskGuid }

def init : BlkM (Option Disk) := do
  match ← readVerify with
  | none => return none
  | some a =>
    if a.getD 510 0 ≠ 0x55 ∨ a.getD 511 0 ≠ 0xAA then return none
    else do
      let x ← scan a
      finish x

end Block

namespace Vfs

open Block (Partition)

-- The first partition that says FAT32 and has 8 MiB.
def selectPartition : List Partition → Result AtaError (Option Partition)
  | [] => .ok none
  | p :: ps =>
    if "FAT32".toList <:+: p.kind then do
      let bytes ← checked 64 (p.sectors * 512)
      if bytes ≥ 8 * 1024 * 1024 then return some p else selectPartition ps
    else selectPartition ps

end Vfs
