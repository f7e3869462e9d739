import Onyx.Syscall.Kernel

-- The handlers of the native table.

open Lib Bytes

namespace Syscall

open Userspace (negative linuxMemDrop)

variable {φ : Type}

namespace Errno

def enoent : Nat := 2
def esrch : Nat := 3
def eio : Nat := 5
def e2big : Nat := 7
def enoexec : Nat := 8
def ebadf : Nat := 9
def echild : Nat := 10
def enomem : Nat := 12
def efault : Nat := 14
def eexist : Nat := 17
def eisdir : Nat := 21
def einval : Nat := 22
def emfile : Nat := 24
def enospc : Nat := 28
def enametoolong : Nat := 36
def enosys : Nat := 38

end Errno

open Errno

-- `errno::err`
def err (e : Nat) : Nat := negative e

def fsErr : FsError → Nat
  | .notFound => err enoent
  | .alreadyExists => err eexist
  | .notSupported => err einval
  | .noSpace => err enospc
  | .badFs => err eio
  | .io _ => err eio
  | .isDir => err eisdir

-- `core::str::from_utf8`
def fromUtf8 (bytes : Bytes) : Option Text := (String.fromUTF8? ⟨bytes.toArray⟩).map String.toList

-- What `user_path` asks of the text of a path.
def checkPath (path : Text) : Except Nat Text :=
  if path.head? ≠ some '/' ∨ '\\' ∈ path then .error (err einval)
  else if ((path.drop 1).splitOn '/').any fun c => c = Vfs.dot ∨ c = Vfs.dotdot then .error (err einval)
  else .ok path

def userPath (ptr len : Nat) : SysM φ (Except Nat Text) :=
  if len = 0 then pure (.error (err enoent))
  else if 128 < len then pure (.error (err enametoolong))
  else checkBuf ptr len false (pure (.error (err efault))) do
    let bytes ← loadUser ptr len
    match fromUtf8 bytes with
    | none => pure (.error (err einval))
    | some path => pure (checkPath path)

def withPath (ptr len : Nat) (f : Text → SysM φ Nat) : SysM φ Nat := do
  match ← userPath ptr len with
  | .error e => pure e
  | .ok path => f path

-- The answer of a handler that only asks the file system.
def fsAnswer (call : φ → Except FsError Unit × φ) : SysM φ Nat := do
  match ← callOut call with
  | .ok _ => pure 0
  | .error e => pure (fsErr e)

section

variable (env : Env φ)

def fdWriteAt (fd : Nat) (buf : Bytes) : SysM φ Nat := do
  match ← fdEntry fd with
  | none => pure (err ebadf)
  | some e => do
    match ← callOut (env.vfs.writeAt e.name e.pos buf) with
    | .ok n => do
      advance fd n
      pure n
    | .error _ => pure (err eio)

def sysWrite (fd buf len : Nat) : SysM φ Nat :=
  if len = 0 then pure 0
  else checkBuf buf (min len 4096) false (pure (err efault)) do
    if fd = 1 ∨ fd = 2 then do
      let bytes ← loadUser buf (min len 4096)
      let n ← callOut (env.serialWrite bytes)
      tellOut (env.consoleBytes bytes)
      pure n
    else if 3 ≤ fd then do
      let bytes ← loadUser buf (min len 4096)
      fdWriteAt env fd bytes
    else pure (err ebadf)

-- The table gets an entry in its first free place from 3 on.
def firstFree (fds : Vector (Option FdEntry) maxFds) : Option Nat :=
  (List.range' 3 (maxFds - 3)).find? fun i => (fds[i]?).join.isNone

def allocFd (path : Text) : SysM φ Nat :=
  withTaskFds fun fds => match firstFree fds with
    | some i => (i, fds.setIfInBounds i (some ⟨path, 0⟩))
    | none => (err emfile, fds)

-- Only a missing file is created.
def creates (path : Text) : FsError → SysM φ Bool
  | .notFound => do
    match ← callOut (env.vfs.writeAt path 0 []) with
    | .ok _ => pure true
    | .error _ => pure false
  | _ => pure false

def sysOpen (ptr len : Nat) : SysM φ Nat :=
  withPath ptr len fun path => do
    match ← callOut (env.vfs.openPath path) with
    | .ok _ => allocFd path
    | .error e => do
      if ← creates env path e then allocFd path else pure (fsErr e)

def consoleLine (buf len : Nat) : SysM φ (Option Nat) := do
  let line ← callOut (env.takeLine len)
  if line.length = 0 then pure none
  else do
    storeUser buf line
    pure (some line.length)

def readFile (fd buf len : Nat) (e : FdEntry) : SysM φ Nat := do
  let r ← callOut (env.vfs.readAt e.name e.pos len)
  storeUser buf r.1
  match r.2 with
  | .ok n => do
    advance fd n
    pure n
  | .error _ => pure (err eio)

def sysRead (fd buf len : Nat) : SysM φ Nat :=
  if len = 0 then pure 0
  else if fd = 0 then
    checkBuf buf (min len 4096) true (pure (err efault)) (retry (consoleLine env buf (min len 4096)) env.wakes)
  else do
    match ← fdEntry fd with
    | none => pure (err ebadf)
    | some e => checkBuf buf (min len 4096) true (pure (err efault)) (readFile env fd buf (min len 4096) e)

def sysClose (fd : Nat) : SysM φ Nat :=
  if fd < 3 ∨ maxFds ≤ fd then pure (err ebadf)
  else withTaskFds fun fds => match (fds[fd]?).join with
    | some _ => (0, fds.setIfInBounds fd none)
    | none => (err ebadf, fds)

-- Both listings are printed; the second mount is allowed to have none.
def listBoth (target : Text) : SysM φ Nat := do
  match ← callOut (env.vfs.list target) with
  | .ok _ => do
    let _ ← callOut (env.vfs.list2 target)
    pure 0
  | .error _ => pure (err enoent)

def sysLs (ptr len : Nat) : SysM φ Nat :=
  if len = 0 then listBoth env ['/'] else withPath ptr len (listBoth env)

def sysMkdir (ptr len : Nat) : SysM φ Nat := withPath ptr len fun path => fsAnswer (env.vfs.mkdir path)

-- `char::is_whitespace`
def isWhitespace (c : Char) : Bool :=
  let n := c.toNat
  9 ≤ n ∧ n ≤ 13 ∨ n = 32 ∨ n = 0x85 ∨ n = 0xA0 ∨ n = 0x1680 ∨ 0x2000 ≤ n ∧ n ≤ 0x200A ∨ n = 0x2028 ∨ n = 0x2029 ∨
    n = 0x202F ∨ n = 0x205F ∨ n = 0x3000

def splitWhitespace (s : Text) : List Text := (s.splitOnP isWhitespace).filter (· ≠ [])

def spawnErr (e : String) : Nat :=
  err (if e = "no such file" ∨ e = "empty file" then enoent
    else if e = "image too large" then e2big
    else if e = "region overlaps an already-loaded program" then eexist
    else if e = "runtime mapper unavailable" ∨ e = "runtime frame allocator unavailable" then enomem
    else enoexec)

def spawnFrom (prog : Text) (argv : List Text) : SysM φ Nat :=
  ⟨fun k => match env.spawn prog argv (k.space, k.rest) with
    | (.ok pid, s, r) => (.ok pid, { k with space := s, rest := r })
    | (.error e, s, r) => (.ok (spawnErr e), { k with space := s, rest := r })⟩

def sysSpawn (ptr len : Nat) : SysM φ Nat :=
  withPath ptr len fun cmdline => match splitWhitespace cmdline with
    | [] => pure (2 ^ 64 - 1)
    | prog :: args => spawnFrom env prog (prog :: args)

-- `time::realtime_ns`
def realtimeNs (r : φ) : Result Blocked Nat := do
  let day ← checked 64 (env.bootSod r * 1000000000)
  checked 64 (day + env.nowNs r)

def sysGettime (clock : Nat) : SysM φ Nat :=
  if clock = 0 then Prog.read fun k => .ok (env.nowNs k.rest)
  else if clock = 1 then Prog.read fun k => realtimeNs env k.rest
  else pure (2 ^ 64 - 1)

def saturate (n : Nat) : Nat := min n (2 ^ 64 - 1)

def sysSleep (ns : Nat) : SysM φ Nat := do
  let pid ← Prog.read fun k => .ok k.pid
  let now ← Prog.read fun k => .ok (env.msSinceBoot k.rest)
  tellOut (env.sleepCurrent pid (saturate (now + max (ns / 1000000) 1)))
  park env.wakes
  pure 0

def sysYield : SysM φ Nat := do
  park env.wakes
  pure 0

def waitAttempt (pid : Nat) : SysM φ (Option Nat) := do
  let self ← Prog.read fun k => .ok k.pid
  match ← callOut (env.tryReap self pid) with
  | some (cpid, code) => pure (some (cpid * 2 ^ 32 % 2 ^ 64 ||| code))
  | none => do
    if ← Prog.read fun k => .ok (env.childWaitable self pid k.rest) then pure none else pure (some (err echild))

def sysWaitpid (pid : Nat) : SysM φ Nat := retry (waitAttempt env pid) env.wakes

def evSize : Nat := 24

def inputAttempt (buf len blocking : Nat) : SysM φ (Option Nat) := do
  let events ← callOut (env.drain len)
  if events.length = 0 then pure (if blocking = 0 then some 0 else none)
  else do
    storeUser buf events
    pure (some events.length)

def sysInputRead (buf len blocking : Nat) : SysM φ Nat :=
  if min len 4096 < evSize then pure (err einval)
  else checkBuf buf (min len 4096) true (pure (err efault)) (retry (inputAttempt env buf (min len 4096) blocking) env.wakes)

def statBytes (st : FileStat) : Bytes :=
  toLe 8 st.size ++ toLe 8 st.atime ++ toLe 8 st.mtime ++ toLe 8 st.ctime ++
    toLe 8 st.isDir.toNat

def statInto (out : Nat) (path : Text) : SysM φ Nat := do
  match ← callOut (env.vfs.stat path) with
  | .ok st => do
    storeUser out (statBytes st)
    pure 0
  | .error e => pure (fsErr e)

def sysStat (ptr len out : Nat) : SysM φ Nat :=
  withPath ptr len fun path => checkBuf out 40 true (pure (err efault)) (statInto env out path)

def sysFsync (fd : Nat) : SysM φ Nat :=
  if fd < 3 then pure (err ebadf)
  else do
    match ← fdEntry fd with
    | none => pure (err ebadf)
    | some e => fsAnswer (env.vfs.fsync e.name)

-- `as i64`
def signed (n : Nat) : Int := if n % 2 ^ 64 < 2 ^ 63 then (n % 2 ^ 64 : Nat) else (n % 2 ^ 64 : Nat) - 2 ^ 64

-- Where a seek counts from, or why it cannot.
def seekBase (e : FdEntry) (whence : Nat) : SysM φ (Except Nat Int) :=
  if whence = 0 then pure (.ok 0)
  else if whence = 1 then pure (.ok (signed e.pos))
  else if whence = 2 then do
    match ← callOut (env.vfs.stat e.name) with
    | .ok st => pure (.ok (signed st.size))
    | .error f => pure (.error (fsErr f))
  else pure (.error (err einval))

def seekTo (fd : Nat) (pos : Int) : SysM φ Nat :=
  if 0 ≤ pos ∧ pos < 2 ^ 63 then do
    setPos fd pos.toNat
    pure pos.toNat
  else pure (err einval)

def sysSeek (fd offset whence : Nat) : SysM φ Nat :=
  if fd < 3 then pure (err ebadf)
  else do
    match ← fdEntry fd with
    | none => pure (err ebadf)
    | some e => do
      match ← seekBase env e whence with
      | .error r => pure r
      | .ok base => seekTo fd (base + signed offset)

def report (act : φ → φ) : SysM φ Nat := do
  tellOut act
  pure 0

def sysUnlink (ptr len : Nat) : SysM φ Nat := withPath ptr len fun path => fsAnswer (env.vfs.unlink path)

def sysRename (fromPtr fromLen toPtr toLen : Nat) : SysM φ Nat :=
  withPath fromPtr fromLen fun source => withPath toPtr toLen fun target => fsAnswer (env.vfs.rename source target)

end

structure Frame where
  rax : UInt64
  rdi : UInt64
  rsi : UInt64
  rdx : UInt64
  r8 : UInt64
  rcx : UInt64
  r11 : UInt64
  deriving DecidableEq, Repr

def userTrampoline : UInt64 := 0x3FF000

namespace Frame

def answer (f : Frame) (r : Nat) : Frame := { f with rax := UInt64.ofNat r }

def answering (f : Frame) (p : SysM φ Nat) : SysM φ Frame := do
  let r ← p
  pure (f.answer r)

-- The task does not come back: it ends on the trampoline.
def dead (f : Frame) : Frame := { f with rcx := userTrampoline, r11 := 0x202 }

end Frame

inductive Native
  | write
  | exit
  | openFile
  | read
  | close
  | ls
  | mkdir
  | spawn
  | gettime
  | getpid
  | sleep
  | yield
  | lspci
  | flush
  | waitpid
  | kill
  | inputRead
  | perf
  | stat
  | seek
  | unlink
  | rename
  | fsync
  deriving DecidableEq, Repr

-- SYS_FSYNC and SYS_FDATASYNC share a handler.
def Native.ofNumber : Nat → Option Native
  | 0 => some write
  | 1 => some exit
  | 2 => some openFile
  | 3 => some read
  | 4 => some close
  | 5 => some ls
  | 6 => some mkdir
  | 7 => some spawn
  | 8 => some gettime
  | 9 => some getpid
  | 10 => some sleep
  | 11 => some yield
  | 12 => some lspci
  | 13 => some flush
  | 14 => some waitpid
  | 15 => some kill
  | 16 => some inputRead
  | 17 => some perf
  | 18 => some stat
  | 19 => some seek
  | 20 => some unlink
  | 21 => some rename
  | 22 => some fsync
  | 23 => some fsync
  | _ => none

variable (env : Env φ)

def sysExit (f : Frame) : SysM φ Frame := do
  let pid ← Prog.read fun k => .ok k.pid
  dropFds pid
  inSpace (linuxMemDrop pid)
  tellOut (env.recordExit pid (f.rdi.toNat % 2 ^ 32))
  pure f.dead

-- A task that kills itself keeps its brk and mmap cursors.
def sysKill (f : Frame) : SysM φ Frame := do
  let self ← Prog.read fun k => .ok k.pid
  if f.rdi.toNat = self then do
    dropFds self
    tellOut (env.recordExit self 137)
    pure f.dead
  else do
    if ← callOut (env.kill f.rdi.toNat) then do
      dropFds f.rdi.toNat
      pure (f.answer 0)
    else pure (f.answer (err esrch))

def Native.handle (f : Frame) : Native → SysM φ Frame
  | write => f.answering (sysWrite env f.rdi.toNat f.rsi.toNat f.rdx.toNat)
  | exit => sysExit env f
  | openFile => f.answering (sysOpen env f.rdi.toNat f.rsi.toNat)
  | read => f.answering (sysRead env f.rdi.toNat f.rsi.toNat f.rdx.toNat)
  | close => f.answering (sysClose f.rdi.toNat)
  | ls => f.answering (sysLs env f.rdi.toNat f.rsi.toNat)
  | mkdir => f.answering (sysMkdir env f.rdi.toNat f.rsi.toNat)
  | spawn => f.answering (sysSpawn env f.rdi.toNat f.rsi.toNat)
  | gettime => f.answering (sysGettime env f.rdi.toNat)
  | getpid => f.answering (Prog.read fun k => .ok k.pid)
  | sleep => f.answering (sysSleep env f.rdi.toNat)
  | yield => f.answering (sysYield env)
  | lspci => f.answering (report env.lspci)
  | flush => f.answering (report env.flush)
  | waitpid => f.answering (sysWaitpid env f.rdi.toNat)
  | kill => sysKill env f
  | inputRead => f.answering (sysInputRead env f.rdi.toNat f.rsi.toNat f.rdx.toNat)
  | perf => f.answering (report env.perf)
  | stat => f.answering (sysStat env f.rdi.toNat f.rsi.toNat f.rdx.toNat)
  | seek => f.answering (sysSeek env f.rdi.toNat f.rsi.toNat f.rdx.toNat)
  | unlink => f.answering (sysUnlink env f.rdi.toNat f.rsi.toNat)
  | rename => f.answering (sysRename env f.rdi.toNat f.rsi.toNat f.rdx.toNat f.r8.toNat)
  | fsync => f.answering (sysFsync env f.rdi.toNat)

-- The native half of `dispatch`.
def nativeDispatch (f : Frame) : SysM φ Frame :=
  match Native.ofNumber f.rax.toNat with
  | none => pure (f.answer (err enosys))
  | some call => call.handle env f

end Syscall
