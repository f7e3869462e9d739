import Onyx.Userspace.Load

-- The process-start stack and `spawn_bytes`.

open Lib

namespace Userspace

def atNull : Nat := 0

def atPhdr : Nat := 3

def atPhent : Nat := 4

def atPhnum : Nat := 5

def atPagesz : Nat := 6

def atBase : Nat := 7

def atEntry : Nat := 9

def atRandom : Nat := 25

def atExecfn : Nat := 31

-- One round of the mixer of `at_random_bytes`, from the state it has after the addition.
def mix (state : UInt64) : UInt64 :=
  let x := (state ^^^ (state >>> 30)) * 0xBF58476D1CE4E5B9
  let y := (x ^^^ (x >>> 27)) * 0x94D049BB133111EB
  y ^^^ (y >>> 31)

-- Sixteen bytes out of the time stamp counter.
def atRandomBytes (tsc : UInt64) : Bytes :=
  let first := tsc + 0x9E3779B97F4A7C15
  let second := first + 0x9E3779B97F4A7C15
  Bytes.toLe 8 (mix first).toNat ++ Bytes.toLe 8 (mix second).toNat

-- The bytes end exactly at `sp`; the answer is where they begin.
def writeBytesDown (sp : Nat) (bytes : Bytes) : LoadM Nat := do
  let sp' ← Prog.lift (checkedSub sp bytes.length)
  store sp' bytes
  pure sp'

-- Writes a string with its NUL and keeps its address.
def pushString (acc : Nat × List Nat) (str : Bytes) : LoadM (Nat × List Nat) := do
  let sp ← writeBytesDown acc.1 (str ++ [0])
  pure (sp, acc.2 ++ [sp])

def pushStrings (sp : Nat) (strs : List Bytes) : LoadM (Nat × List Nat) := do
  let acc ← strs.reverse.foldlM pushString (sp, [])
  pure (acc.1, acc.2.reverse)

def stringBytes (start : Nat) (strs : List Bytes) : Result String Nat :=
  strs.foldlM (fun n str => do
    let size ← checked 64 (str.length + 1)
    checked 64 (n + size)) start

-- argc, the two pointer arrays with their terminators and nine pairs of auxv.
def blockBytes (argc envc : Nat) : Result String Nat := do
  let fixed ← checked 64 (3 + argc)
  let words ← checked 64 (fixed + envc)
  let bytes ← checked 64 (8 * words)
  checked 64 (bytes + 8 * (2 * 9))

def stackBudget (argv envp : List Bytes) : Result String Nat := do
  let strings ← stringBytes 16 argv
  let strings ← stringBytes strings envp
  let block ← blockBytes argv.length envp.length
  let both ← checked 64 (strings + block)
  let total ← checked 64 (both + 64)
  if userStackPages * 0x1000 < total then fail "argv/envp too large for the user stack" else .ok block

def auxv (info : ElfLoadInfo) (randomPtr execfn : Nat) : List (Nat × Nat) :=
  [(atPhdr, info.phdrVaddr.getD 0), (atPhent, 56), (atPhnum, info.phnum), (atPagesz, 4096), (atBase, info.atBase),
    (atEntry, info.entry), (atRandom, randomPtr), (atExecfn, execfn), (atNull, 0)]

-- The words of the process-start block, from rsp upwards.
def startWords (argc : Nat) (argvPtrs envpPtrs : List Nat) (info : ElfLoadInfo) (randomPtr execfn : Nat) : List Nat :=
  argc :: argvPtrs ++ [0] ++ envpPtrs ++ [0] ++ (auxv info randomPtr execfn).flatMap fun (k, v) => [k, v]

def wordBytes (words : List Nat) : Bytes := words.flatMap (Bytes.toLe 8)

def buildInitialStack (tsc : UInt64) (stackTop : Nat) (argv : List Bytes) (info : ElfLoadInfo) : LoadM Nat := do
  -- The environment is empty today.
  let envp : List Bytes := []
  let block ← Prog.lift (stackBudget argv envp)
  let randomPtr ← writeBytesDown (stackTop - stackTop % 16) (atRandomBytes tsc)
  let args ← pushStrings randomPtr argv
  let env ← pushStrings args.1 envp
  let below ← Prog.lift (checkedSub env.1 block)
  let blockStart := below - below % 16
  store blockStart (wordBytes (startWords argv.length args.2 env.2 info randomPtr (args.2.headD 0)))
  pure blockStart

-- `elf.windows(n).any(|w| w == pattern)`
def hasWindow (bytes pattern : Bytes) : Bool :=
  (List.range (bytes.length + 1 - pattern.length)).any fun i => bytes.slice i pattern.length = pattern

-- ONYXLNX\0
def onyxMarker : Bytes := [0x4F, 0x4E, 0x59, 0x58, 0x4C, 0x4E, 0x58, 0x00]

-- GLIBC_2
def glibcMarker : Bytes := [0x47, 0x4C, 0x49, 0x42, 0x43, 0x5F, 0x32]

def Image.linuxAbi (elf : Image) : Bool := hasWindow elf.bytes onyxMarker || hasWindow elf.bytes glibcMarker

-- Whether the region meets one of the loaded programs.
def overlaps (region : Nat × Nat) (regions : List (Nat × Nat)) : Bool :=
  regions.any fun r => region.1 < r.2 ∧ r.1 < region.2

-- The checks `spawn_bytes` makes before it changes anything.
def checkRegion (elf : Image) (regions : List (Nat × Nat)) : Result String (Nat × Nat) :=
  match elfRegion elf with
  | .error .panic => abort
  | .error (.err _) => fail "not a valid ELF64 user program"
  | .ok region      => if overlaps region regions then fail "region overlaps an already-loaded program" else .ok region

-- `USER_STACK_SLOTS.fetch_add(1)`
def Space.nextSlot (s : Space) : Space := { s with slots := (s.slots + 1) % 2 ^ 64 }

def takeSlot : LoadM Nat := ⟨fun s => (.ok s.slots, s.nextSlot)⟩

theorem takeSlot_run : takeSlot.run s = (.ok s.slots, s.nextSlot) :=
  rfl

-- `scheduler::spawn_user`, and `set_linux_abi` on the new task.
def registerTask (entry rsp : Nat) (linuxAbi : Bool) : LoadM Nat :=
  ⟨fun s => (.ok s.nextPid, { s with nextPid := s.nextPid + 1, tasks := s.tasks ++ [⟨s.nextPid, entry, rsp, linuxAbi⟩] })⟩

def spawnBytes (tsc : UInt64) (elf : Image) (argv : List Bytes) : LoadM Nat := do
  let region ← Prog.read fun s => checkRegion elf s.regions
  let slot ← takeSlot
  let top ← Prog.lift (userStackTop slot)
  mapStack top
  let info ← loadElf elf
  let rsp ← buildInitialStack tsc top argv info
  Prog.modify fun s => { s with regions := s.regions ++ [region] }
  registerTask info.entry rsp elf.linuxAbi

end Userspace
