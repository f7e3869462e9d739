import Onyx.Fat.Name
import Onyx.Rtc

-- The 32-byte slots directories are made of, as the driver reads and writes them (kernel/src/fat.rs).

open Lib Bytes

namespace Fat

-- The DATE word of a slot as Unix seconds; 0 stands for no date.
def fatDateToUnix (d : Nat) : Nat :=
  let year := d / 2 ^ 9 + 1980
  let month := d / 2 ^ 5 % 2 ^ 4
  let day := d % 2 ^ 5
  if d = 0 then 0
  else if ¬ (1 ≤ month ∧ month ≤ 12) ∨ ¬ (1 ≤ day ∧ day ≤ 31) then 0
  else
    let dt : DateTime := { DateTime.zeroed with day, month, year := min year 2107 }
    (min (max (dt.toUnix.getD 0) 0) (2 ^ 32 - 1)).toNat

def fatTimeSecs (t : Nat) : Nat :=
  t / 2 ^ 11 % 2 ^ 5 * 3600 + t / 2 ^ 5 % 2 ^ 6 * 60 + t % 2 ^ 5 * 2

-- The TIME and DATE words for Unix seconds.
def unixToFatTimeDate (secs : ℤ) : Nat × Nat :=
  let dt := DateTime.fromUnix secs
  if dt.year < 1980 ∨ dt.year > 2107 then (0, 0)
  else (dt.hour * 2 ^ 11 ||| dt.minute * 2 ^ 5 ||| dt.second / 2,
    (dt.year - 1980) * 2 ^ 9 ||| dt.month * 2 ^ 5 ||| dt.day)

structure RawEntry where
  name : Text
  short : Text
  firstCluster : Nat
  size : Nat
  atime : Nat
  mtime : Nat
  ctime : Nat
  isDir : Bool
  dirIndex : Nat
  dirCluster : Nat
  deriving DecidableEq

inductive Resolution
  | root
  | entry (e : RawEntry)

-- The long-name slots seen since the last short entry: `lfn`, `lfn_sum` and `lfn_next`.
structure LfnRun where
  parts : List (UInt8 × Bytes)
  sum : UInt8
  next : UInt8

-- The first byte, which also tells a free slot.
def slotMark (slot : Bytes) : UInt8 := slot.getD 0 0

def LfnRun.empty : LfnRun := { parts := [], sum := 0, next := 0 }

-- A slot that does not carry on the descending order numbers starts a new run.
def LfnRun.add (run : LfnRun) (slot : Bytes) : LfnRun :=
  let order := slotMark slot &&& 0x1F
  { parts := (if run.next = 0 ∨ order ≠ run.next then [] else run.parts) ++ [(order, lfnPart slot)]
    sum := slot.getD 13 0
    next := if order > 1 then order - 1 else 0 }

def slotFirst (slot : Bytes) : Nat := slot.u16At 20 * 2 ^ 16 + slot.u16At 26
def slotSize (slot : Bytes) : Nat := slot.u32At 28
def slotAttr (slot : Bytes) : UInt8 := slot.getD 11 0
def slotIsDir (slot : Bytes) : Bool := slotAttr slot &&& attrDir ≠ 0

theorem slotFirst_lt (slot : Bytes) : slotFirst slot < 2 ^ 32 := by
  have h1 := u16At_lt slot 20
  have h2 := u16At_lt slot 26
  unfold slotFirst
  omega

theorem slotSize_lt (slot : Bytes) : slotSize slot < 2 ^ 32 :=
  u32At_lt slot 28

def slotMtime (slot : Bytes) : Nat :=
  min (fatDateToUnix (slot.u16At 24) + fatTimeSecs (slot.u16At 22)) (2 ^ 32 - 1)

def entryOf (dirCluster : Nat) (run : LfnRun) (slot : Bytes) (idx : Nat) : RawEntry where
  name :=
    if run.parts = [] ∨ run.sum ≠ lfnChecksum (slot.slice 0 11) then shortName slot
    else lfnName run.parts
  short := shortName slot
  firstCluster := slotFirst slot
  size := slotSize slot
  ctime := fatDateToUnix (slot.u16At 16)
  atime := fatDateToUnix (slot.u16At 18)
  mtime := slotMtime slot
  isDir := slotIsDir slot
  dirIndex := idx
  dirCluster

def scanSlots (dirCluster : Nat) : Nat → LfnRun → List Bytes → List RawEntry × Option LfnRun
  | _, run, [] => ([], some run)
  | idx, run, slot :: slots =>
    if slotMark slot = slotEnd then ([], none)
    else if slotMark slot = slotDeleted then scanSlots dirCluster (idx + 1) .empty slots
    else if slotAttr slot = attrLfn then scanSlots dirCluster (idx + 1) (run.add slot) slots
    else if slotAttr slot &&& attrVolume ≠ 0 then scanSlots dirCluster (idx + 1) .empty slots
    else
      let (out, run') := scanSlots dirCluster (idx + 1) .empty slots
      (entryOf dirCluster run slot idx :: out, run')

def slotsOf (b : Bytes) : List Bytes := (List.range (b.length / 32)).map fun i => b.slice (i * 32) 32

structure Stamp where
  ctime : Nat
  cdate : Nat
  adate : Nat
  wtime : Nat
  wdate : Nat

def Stamp.zero : Stamp := { ctime := 0, cdate := 0, adate := 0, wtime := 0, wdate := 0 }

def packSlot (short : Bytes) (attr : UInt8) (first size : Nat) (t : Stamp) : Bytes :=
  short ++ [attr, 0, 0] ++ toLe 2 t.ctime ++ toLe 2 t.cdate ++ toLe 2 t.adate ++
    toLe 2 (first / 2 ^ 16) ++ toLe 2 t.wtime ++ toLe 2 t.wdate ++
    toLe 2 (first % 2 ^ 16) ++ toLe 4 size

def entryAttr (isDir : Bool) : UInt8 := if isDir then attrDir else attrArchive

-- The stamps of a new entry at wall-clock time `now`; 0 means that there is no clock.
def Stamp.ofNow (now : ℤ) : Stamp :=
  if now = 0 then .zero
  else
    let (t, d) := unixToFatTimeDate now
    { ctime := t, cdate := d, adate := d, wtime := t, wdate := d }

-- The stamps `rename` carries over.
def Stamp.ofEntry (e : RawEntry) : Stamp :=
  if e.ctime = 0 then .zero
  else
    let (ct, cd) := unixToFatTimeDate e.ctime
    let (wt, wd) := unixToFatTimeDate e.mtime
    { ctime := ct, cdate := cd, adate := (unixToFatTimeDate e.atime).2, wtime := wt, wdate := wd }

def isFreeSlot (slot : Bytes) : Bool := slotMark slot = slotEnd ∨ slotMark slot = slotDeleted

-- The first place in a cluster for `need` consecutive slots.
def freeRun (need : Nat) (b : Bytes) : Option Nat :=
  (List.range (b.length / 32)).find? fun si =>
    si + need ≤ b.length / 32 ∧ (((slotsOf b).drop si).take need).all isFreeSlot

end Fat
