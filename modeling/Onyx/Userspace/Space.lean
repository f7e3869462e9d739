import Onyx.Lib.Exact
import Onyx.Lib.Bytes

-- The user address space of kernel/src/userspace.rs: page table, stack slots and the brk and mmap cursors.

open Lib List

namespace Userspace

-- The flags of a present 4 KiB page.
structure PageFlags where
  writable : Bool
  user : Bool
  noExecute : Bool
  deriving DecidableEq, Repr

-- An entry of LINUX_MEM.
structure LinuxMem where
  pid : Nat
  brk : Nat
  mmap : Nat
  deriving DecidableEq, Repr

-- A ring-3 task as it was handed to the scheduler.
structure UserTask where
  pid : Nat
  entry : Nat
  rsp : Nat
  linuxAbi : Bool
  deriving DecidableEq, Repr

structure Space where
  pages    : Nat → Option PageFlags   -- by page number; huge pages and absent pages are `none`
  memory   : Nat → UInt8              -- what stands at a virtual address, if its page is mapped
  regions  : List (Nat × Nat)         -- REGIONS
  slots    : Nat                      -- USER_STACK_SLOTS
  linuxMem : List LinuxMem            -- LINUX_MEM
  nextPid : Nat
  tasks : List UserTask
  -- A record of `map_to` being asked for a mapped page, since the `expect` panics at once.
  doubled : Bool

abbrev UserM (ε : Type) := Prog Space ε

@[irreducible]
def pageSize : Nat := 4096

theorem pageSize_eq : pageSize = 4096 := by
  with_unfolding_all rfl

-- 0xFFF
@[irreducible]
def pageMask : Nat := 4095

theorem pageMask_eq : pageMask = 4095 := by
  with_unfolding_all rfl

-- `a & !0xFFF`
def pageDown (a : Nat) : Nat := a - a % pageSize

def userTextBase : Nat := 0x400000

def userMaxAddr : Nat := 0x10000000

def userStackPages : Nat := 16

def linuxHeapBase : Nat := 0x4000000

def linuxMmapBase : Nat := 0x8000000

def linuxMmapEnd : Nat := 0x10000000

-- What `VirtAddr::new` accepts: bits 47 to 63 are all equal.
def Canonical (a : Nat) : Prop := a < 2 ^ 47 ∨ 2 ^ 64 - 2 ^ 47 ≤ a

instance : Decidable (Canonical a) := inferInstanceAs (Decidable (_ ∨ _))

namespace Space

def Mapped (s : Space) (page : Nat) : Prop := (s.pages page).isSome

instance {s : Space} : Decidable (s.Mapped page) := inferInstanceAs (Decidable (_ = true))

def Writable (s : Space) (page : Nat) : Prop := (s.pages page).any (·.writable)

instance {s : Space} : Decidable (s.Writable page) := inferInstanceAs (Decidable (_ = true))

def setPage (s : Space) (page : Nat) (flags : PageFlags) : Space :=
  { s with pages := fun p => if p = page then some flags else s.pages p }

def setMemory (s : Space) (addr : Nat) (data : Bytes) : Space :=
  { s with memory := fun a => if addr ≤ a ∧ a < addr + data.length then data.getD (a - addr) 0 else s.memory a }

def poke (s : Space) (a : Nat) (v : UInt8) : Space := { s with memory := fun x => if x = a then v else s.memory x }

theorem memory_setMemory {s : Space} :
    (s.setMemory addr data).memory a = if addr ≤ a ∧ a < addr + data.length then data.getD (a - addr) 0 else s.memory a :=
  rfl

theorem pages_setMemory {s : Space} : (s.setMemory addr data).pages = s.pages :=
  rfl

theorem setMemory_nil (s : Space) : s.setMemory addr [] = s := by
  have hm : (s.setMemory addr []).memory = s.memory := by
    funext a
    rw [memory_setMemory, if_neg]
    exact fun ⟨_, _⟩ => by simp at *; omega
  exact congrArg (fun m => { s with memory := m }) hm

theorem setMemory_append {s : Space} (h : b = addr + l.length) :
    (s.setMemory b l').setMemory addr l = s.setMemory addr (l ++ l') := by
  subst h
  suffices hm : ((s.setMemory (addr + l.length) l').setMemory addr l).memory = (s.setMemory addr (l ++ l')).memory by
    exact congrArg (fun m => { s with memory := m }) hm
  funext a
  simp only [memory_setMemory, length_append, getD_eq_getElem?_getD]
  by_cases h1 : addr ≤ a ∧ a < addr + l.length
  · rw [if_pos h1, if_pos (by omega), getElem?_append_left (by omega)]
  by_cases h2 : addr + l.length ≤ a ∧ a < addr + l.length + l'.length
  · rw [if_neg h1, if_pos h2, if_pos (by omega), getElem?_append_right (by omega), Nat.sub_sub]
  · rw [if_neg h1, if_neg h2, if_neg (by omega)]

end Space

variable {ε : Type}

def mapTo (page : Nat) (flags : PageFlags) : UserM ε Unit :=
  ⟨fun s => match s.pages page with
    | none => (.ok (), s.setPage page flags)
    | some _ => (abort, { s with doubled := true })⟩

def mapPage (vaddr : Nat) (flags : PageFlags) : UserM ε Unit := do
  Prog.lift (require (vaddr % pageSize = 0))
  Prog.lift (require (Canonical vaddr))
  mapTo (vaddr / pageSize) flags

-- `update_flags` with the `expect` that follows it.
def updateFlags (vaddr : Nat) (flags : PageFlags) : UserM ε Unit := do
  Prog.lift (require (Canonical vaddr))
  Prog.read fun s => require (s.Mapped (vaddr / pageSize))
  Prog.modify (·.setPage (vaddr / pageSize) flags)

def store (addr : Nat) (data : Bytes) : UserM ε Unit := do
  Prog.read fun s => require (∀ i, i < data.length → s.Writable ((addr + i) / pageSize))
  Prog.modify (·.setMemory addr data)

-- `write_volatile` of a u64: the debug build also checks the alignment of the pointer.
def writeVolatile (addr value : Nat) : UserM ε Unit := do
  Prog.lift (require (addr % 8 = 0))
  store addr (Bytes.toLe 8 value)

-- The same action on `count` pages upwards from `start`.
def eachPage (act : Nat → UserM ε Unit) (start count : Nat) : UserM ε Unit :=
  (range count).foldlM (fun _ i => do
    let va ← Prog.lift (checked 64 (start + i * pageSize))
    act va) ()

def dataFlags : PageFlags := { writable := true, user := true, noExecute := true }

def userStackTop (slot : Nat) : Result ε Nat := do
  let offset ← checked 64 (slot * 0x10000000)
  checked 64 (0x40000000 + offset)

-- The loop of `spawn_bytes` that maps a stack, from its top downwards.
def mapStack (top : Nat) : UserM ε Unit :=
  (range userStackPages).foldlM (fun _ i => do
    let va ← Prog.lift (checkedSub top ((i + 1) * pageSize))
    mapPage va dataFlags) ()

def linuxMemDrop (pid : Nat) : UserM ε Unit :=
  Prog.modify fun s => { s with linuxMem := s.linuxMem.filter (·.pid ≠ pid) }

-- The entry `linux_mem_entry` answers, which it appends when it is new.
def Space.entry (s : Space) (pid : Nat) : LinuxMem :=
  (s.linuxMem.find? (·.pid = pid)).getD ⟨pid, linuxHeapBase, linuxMmapBase⟩

def linuxMemEntry (pid : Nat) : UserM ε LinuxMem :=
  ⟨fun s => match s.linuxMem.find? (·.pid = pid) with
    | some e => (.ok e, s)
    | none => (.ok (s.entry pid), { s with linuxMem := s.linuxMem ++ [s.entry pid] })⟩

-- Overwrites the first entry of the task.
def setFirst (pid brk mmap : Nat) : List LinuxMem → List LinuxMem
  | [] => []
  | e :: es => if e.pid = pid then ⟨pid, brk, mmap⟩ :: es else e :: setFirst pid brk mmap es

def linuxMemSet (pid brk mmap : Nat) : UserM ε Unit :=
  Prog.modify fun s => { s with linuxMem := setFirst pid brk mmap s.linuxMem }

def linuxMapPages (start pages : Nat) : UserM ε Unit := eachPage (mapPage · dataFlags) start pages

def linuxBrk (pid addr : Nat) : UserM ε Nat := do
  let e ← linuxMemEntry pid
  if addr = 0 then
    pure e.brk
  else if addr ≤ e.brk ∨ linuxMmapBase ≤ addr then
    pure e.brk
  else do
    let up ← Prog.lift (checked 64 (addr + pageMask))
    let newTop := pageDown up
    let grown ← Prog.lift (checkedSub newTop e.brk)
    let bytes ← Prog.lift (checked 64 (grown + pageMask))
    linuxMapPages e.brk (bytes / pageSize)
    linuxMemSet pid newTop e.mmap
    pure newTop

-- `-errno` as a u64.
def negative (errno : Nat) : Nat := 2 ^ 64 - errno

def einval : Nat := 22

def enomem : Nat := 12

def linuxMmapAnon (pid len : Nat) : UserM ε Nat :=
  if len = 0 then
    pure (negative einval)
  else do
    let e ← linuxMemEntry pid
    let up ← Prog.lift (checked 64 (len + pageMask))
    let bytes ← Prog.lift (checked 64 (up / pageSize * pageSize))
    let stop ← Prog.lift (checked 64 (e.mmap + bytes))
    if linuxMmapEnd < stop then
      pure (negative enomem)
    else do
      linuxMapPages e.mmap (up / pageSize)
      linuxMemSet pid e.brk stop
      pure e.mmap

end Userspace
