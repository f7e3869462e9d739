import Onyx.Userspace.Space
import Onyx.Vfs.Path

-- What the system calls of kernel/src/syscall.rs work on.

open Lib

namespace Syscall

open Userspace (Space PageFlags pageSize Canonical)

structure FdEntry where
  name : Text
  pos : Nat
  deriving DecidableEq

def maxFds : Nat := 8

structure TaskFds where
  id : Nat
  fds : Vector (Option FdEntry) maxFds

structure Access where
  addr : Nat
  len : Nat
  write : Bool
  pages : Nat → Option PageFlags

-- The page is mapped for user code, and writable if that matters.
def UserPage (pages : Nat → Option PageFlags) (write : Bool) (p : Nat) : Prop :=
  ∃ f, pages p = some f ∧ f.user ∧ (write → f.writable)

-- Every byte lies on a user page, and on a writable one if it is written.
def Access.Allowed (a : Access) : Prop := ∀ i, i < a.len → UserPage a.pages a.write ((a.addr + i) / pageSize)

structure Kernel (φ : Type) where
  space : Space
  fds     : List TaskFds          -- FDS
  rest : φ
  pid     : Nat                   -- the calling task
  linux   : Bool                  -- whether it speaks the Linux table
  fsBase  : Nat                   -- IA32_FS_BASE
  rng     : UInt64                -- LX_RNG
  touched : List Access           -- what was accessed so far; nothing in the kernel reads this

-- part of this model. A read can fill a part of the buffer before it fails.
structure Vfs (φ : Type) where
  openPath : Text → φ → Except FsError Unit × φ
  readAt : Text → Nat → Nat → φ → (Bytes × Except FsError Nat) × φ
  writeAt : Text → Nat → Bytes → φ → Except FsError Nat × φ
  mkdir : Text → φ → Except FsError Unit × φ
  list : Text → φ → Except FsError (List DirEntry) × φ
  list2 : Text → φ → Except FsError (List DirEntry) × φ
  stat : Text → φ → Except FsError FileStat × φ
  unlink : Text → φ → Except FsError Unit × φ
  rename : Text → Text → φ → Except FsError Unit × φ
  fsync : Text → φ → Except FsError Unit × φ
  filled : ∀ {path off len s}, (readAt path off len s).1.1.length ≤ len
  read : ∀ {path off len s n}, (readAt path off len s).1.2 = .ok n → n ≤ len ∧ off + n < 2 ^ 64
  written : ∀ {path off buf s n}, (writeAt path off buf s).1 = .ok n → n ≤ buf.length ∧ off + n < 2 ^ 64

structure Kept {φ : Type} (k k' : Kernel φ) : Prop where
  pages : ∀ {p : Nat} {f : PageFlags}, k.space.pages p = some f → k'.space.pages p = some f
  touched : k'.touched = k.touched
  pid : k'.pid = k.pid
  linux : k'.linux = k.linux

-- What the rest of the system does from the moment the task is parked until it runs again.
structure Wake (φ : Type) where
  run : Kernel φ → Kernel φ
  kept : ∀ k, Kept k (run k)

structure Env (φ : Type) where
  vfs : Vfs φ
  spawn         : Text → List Text → Space × φ → Except String Nat × (Space × φ)   -- `spawn_from_vfs_argv`
  paging        : Bool                                  -- the runtime mapper and the frames are there
  serialWrite : Bytes → φ → Nat × φ
  consoleBytes : Bytes → φ → φ
  takeLine : Nat → φ → Bytes × φ
  drain : Nat → φ → Bytes × φ
  tryReap : Nat → Nat → φ → Option (Nat × Nat) × φ
  childWaitable : Nat → Nat → φ → Bool
  kill : Nat → φ → Bool × φ
  recordExit : Nat → Nat → φ → φ
  sleepCurrent : Nat → Nat → φ → φ
  flush : φ → φ
  lspci : φ → φ
  perf : φ → φ
  msSinceBoot : φ → Nat
  nowNs : φ → Nat
  bootSod : φ → Nat
  -- How often the task is woken again during the call, and what happened meanwhile.
  wakes : List (Wake φ)
  serialWritten : ∀ {buf s}, (serialWrite buf s).1 ≤ buf.length
  lineTaken : ∀ {room s}, (takeLine room s).1.length ≤ room
  drained : ∀ {room s}, (drain room s).1.length ≤ room

-- A call that has not come back: its task is parked.
inductive Blocked
  | blocked
  deriving DecidableEq, Repr

abbrev SysM (φ : Type) := Prog (Kernel φ) Blocked

variable {φ α : Type}

def callOut (f : φ → α × φ) : SysM φ α :=
  ⟨fun k => (.ok (f k.rest).1, { k with rest := (f k.rest).2 })⟩

def tellOut (f : φ → φ) : SysM φ Unit := Prog.modify fun k => { k with rest := f k.rest }

def inSpace (p : Userspace.UserM Blocked α) : SysM φ α :=
  ⟨fun k => ((p.run k.space).1, { k with space := (p.run k.space).2 })⟩

-- A loop that parks the task between its attempts.
def retry (attempt : SysM φ (Option α)) : List (Wake φ) → SysM φ α
  | [] => do
    match ← attempt with
    | some a => pure a
    | none => Prog.lift (fail .blocked)
  | w :: ws => do
    match ← attempt with
    | some a => pure a
    | none => do
      Prog.modify w.run
      retry attempt ws

-- A call that parks the task once.
def park : List (Wake φ) → SysM φ Unit
  | [] => Prog.lift (fail .blocked)
  | w :: _ => Prog.modify w.run

namespace Kernel

def touch (k : Kernel φ) (write : Bool) (addr len : Nat) : Kernel φ :=
  { k with touched := k.touched ++ [⟨addr, len, write, k.space.pages⟩] }

end Kernel

-- A read through a pointer, which faults on a page that is not there, whoever owns it.
def loadUser (addr len : Nat) : SysM φ Bytes := do
  Prog.modify (·.touch false addr len)
  Prog.read fun k => require (∀ i, i < len → k.space.Mapped ((addr + i) / pageSize))
  Prog.read fun k => .ok ((List.range len).map fun i => k.space.memory (addr + i))

-- A write faults on a page that is not there or not writable.
def storeUser (addr : Nat) (data : Bytes) : SysM φ Unit := do
  Prog.modify (·.touch true addr data.length)
  inSpace (Userspace.store addr data)

def readVolatile (size addr : Nat) : SysM φ Nat := do
  Prog.lift (require (addr % size = 0 ∧ addr ≠ 0))
  let bytes ← loadUser addr size
  pure (Bytes.ofLe bytes)

def writeVolatile (size addr value : Nat) : SysM φ Unit := do
  Prog.lift (require (addr % size = 0 ∧ addr ≠ 0))
  storeUser addr (Bytes.toLe size value)

def userPtrMax : Nat := 0x100000000000

def walkPages (pageFlags : Nat → Result Blocked (Option PageFlags)) (write : Bool) : Nat → Nat → Result Blocked Bool
  | 0, _ => .ok true
  | n + 1, page => do
    require (Canonical page)
    match ← pageFlags (page / pageSize) with
    | none => .ok false
    | some f =>
      if !f.user || (write && !f.writable) then .ok false
      else do
        let next ← checked 64 (page + pageSize)
        walkPages pageFlags write n next

def userBufOk (pageFlags : Nat → Result Blocked (Option PageFlags)) (ptr len : Nat) (write : Bool) : Result Blocked Bool :=
  if len = 0 then .ok true
  else if 2 ^ 64 ≤ ptr + len then .ok false
  else if ptr < 0x1000 ∨ userPtrMax < ptr + len then .ok false
  else walkPages pageFlags write ((ptr + len - 1) / pageSize - ptr / pageSize + 1) (Userspace.pageDown ptr)

-- A pointer check of a handler, and what comes after it.
def checkBuf (ptr len : Nat) (write : Bool) (bad : SysM φ α) (good : SysM φ α) : SysM φ α := do
  let ok ← Prog.read fun k => userBufOk (fun p => .ok (k.space.pages p)) ptr len write
  if ok then good else bad

-- Descriptor tables.

def fdTable (id : Nat) : List TaskFds → Vector (Option FdEntry) maxFds
  | [] => Vector.replicate maxFds none
  | t :: ts => if t.id = id then t.fds else fdTable id ts

-- The table of a task is made when it is first asked for.
def setFdTable (id : Nat) (fds : Vector (Option FdEntry) maxFds) : List TaskFds → List TaskFds
  | [] => [⟨id, fds⟩]
  | t :: ts => if t.id = id then ⟨id, fds⟩ :: ts else t :: setFdTable id fds ts

def withTaskFds (f : Vector (Option FdEntry) maxFds → α × Vector (Option FdEntry) maxFds) : SysM φ α :=
  ⟨fun k =>
    let r := f (fdTable k.pid k.fds)
    (.ok r.1, { k with fds := setFdTable k.pid r.2 k.fds })⟩

def fdEntry (fd : Nat) : SysM φ (Option FdEntry) := withTaskFds fun fds => ((fds[fd]?).join, fds)

def setPos (fd pos : Nat) : SysM φ Unit :=
  withTaskFds fun fds => match (fds[fd]?).join with
    | some e => ((), fds.setIfInBounds fd (some { e with pos }))
    | none => ((), fds)

-- `e.pos += n`
def advance (fd n : Nat) : SysM φ Unit := do
  match ← fdEntry fd with
  | some e => do
    let pos ← Prog.lift (checked 64 (e.pos + n))
    setPos fd pos
  | none => pure ()

def dropFds (id : Nat) : SysM φ Unit := Prog.modify fun k => { k with fds := k.fds.filter (·.id ≠ id) }

end Syscall
