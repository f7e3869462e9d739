import Onyx.Syscall.Native

-- The Linux table of kernel/src/syscall.rs, and the dispatcher over both tables.

open Lib

namespace Syscall

open Userspace (linuxBrk linuxMmapAnon pageSize Canonical)
open Errno

variable {φ : Type}

def linuxCstrLen : Nat → Nat → Nat → SysM φ (Option Nat)
  | 0, _, _ => pure none
  | left + 1, n, p => do
    Prog.lift (require (Canonical p))
    match ← Prog.read fun k => .ok (k.space.pages (p / pageSize)) with
    | none => pure none
    | some _ => do
      let b ← readVolatile 1 p
      if b = 0 then pure (some n)
      else do
        let p' ← Prog.lift (checked 64 (p + 1))
        linuxCstrLen left (n + 1) p'

def linuxZeroUser (start : Nat) : Nat → Nat → SysM φ Bool
  | 0, _ => pure true
  | left + 1, i => do
    let p ← Prog.lift (checked 64 (start + i))
    Prog.lift (require (Canonical p))
    match ← Prog.read fun k => .ok (k.space.pages (p / pageSize)) with
    | none => pure false
    | some _ => do
      writeVolatile 1 p 0
      linuxZeroUser start left (i + 1)

section

variable (env : Env φ)

-- The path is taken from rsi, for open as for openat.
def linuxOpen (path : Nat) : SysM φ Nat :=
  if path = 0 ∨ 2 ^ 64 ≤ path + 4096 then pure (err efault)
  else do
    match ← linuxCstrLen 4096 0 path with
    | some l => sysOpen env path l
    | none => pure (err efault)

def linuxFstat (buf : Nat) : SysM φ Nat :=
  if 2 ^ 64 ≤ buf + 144 then pure (err efault)
  else do
    if ← linuxZeroUser buf 144 0 then pure 0 else pure (err efault)

-- `linux_mem_call`
def linuxMemCall (f : Nat → Userspace.UserM Blocked Nat) : SysM φ Nat :=
  if env.paging then do
    let pid ← Prog.read fun k => .ok k.pid
    inSpace (f pid)
  else pure (err enomem)

def linuxMmap (len fd : Nat) : SysM φ Nat :=
  if (fd + 1) % 2 ^ 64 ≠ 0 then pure (err enomem)
  else linuxMemCall env fun pid => linuxMmapAnon pid len

def linuxBreak (addr : Nat) : SysM φ Nat := linuxMemCall env fun pid => linuxBrk pid addr

-- Where record `i` of the vector stands.
def iovec (iovs i : Nat) : Nat := if iovs + i * 16 < 2 ^ 64 then iovs + i * 16 else 2 ^ 64 - 1

-- The records from number `i` on, of which `left` are left.
def writevLoop (fd iovs : Nat) : Nat → Nat → Nat → SysM φ Nat
  | 0, _, total => pure total
  | left + 1, i, total =>
    checkBuf (iovec iovs i) 16 false (pure (err efault)) do
      let base ← readVolatile 8 (iovec iovs i)
      let len ← readVolatile 8 (iovec iovs i + 8)
      if len = 0 then writevLoop fd iovs left (i + 1) total
      else do
        let r ← sysWrite env fd base len
        if 2 ^ 63 ≤ r then pure r
        else do
          let sum ← Prog.lift (checked 64 (total + r))
          writevLoop fd iovs left (i + 1) sum

def linuxWritev (fd iovs cnt : Nat) : SysM φ Nat := writevLoop env fd iovs (min cnt 64) 0 0

def linuxNanosleep (req : Nat) : SysM φ Nat :=
  checkBuf req 16 false (pure (err efault)) do
    let sec ← readVolatile 8 req
    let nsec ← readVolatile 8 (req + 8)
    sysSleep env (saturate (saturate (sec * 1000000000) + nsec))

-- The fields of struct utsname, each at its offset.
def utsname : List (Nat × String) :=
  [(0, "OnyxOS"), (65, "onyx"), (130, "9.7.0"), (195, "(none)"), (260, "x86_64"), (325, "(none)")]

def putName (buf : Nat) (_ : Unit) (field : Nat × String) : SysM φ Unit := do
  let p ← Prog.lift (checked 64 (buf + field.1))
  storeUser p field.2.toUTF8.data.toList

def linuxUname (buf : Nat) : SysM φ Nat :=
  checkBuf buf (6 * 65) true (pure (err efault)) do
    storeUser buf (List.replicate (6 * 65) 0)
    utsname.foldlM (putName buf) ()
    pure 0

def linuxGetcwd (buf size : Nat) : SysM φ Nat :=
  if size < 2 then pure (err einval)
  else checkBuf buf 2 true (pure (err einval)) do
    writeVolatile 1 buf '/'.toNat
    writeVolatile 1 (buf + 1) 0
    pure 2

def archSetFs : Nat := 0x1002

def archGetFs : Nat := 0x1003

def setFsBase (addr : Nat) : SysM φ Nat := do
  Prog.modify fun k => { k with fsBase := addr }
  pure 0

def linuxArchPrctl (code addr : Nat) : SysM φ Nat :=
  if code = archSetFs then
    if addr = 0 then setFsBase addr else checkBuf addr 1 true (pure (err efault)) (setFsBase addr)
  else if code = archGetFs then
    checkBuf addr 8 true (pure (err efault)) do
      let v ← Prog.read fun k => .ok k.fsBase
      writeVolatile 8 addr v
      pure 0
  else pure (err einval)

def linuxClockGettime (clk out : Nat) : SysM φ Nat :=
  checkBuf out 16 true (pure (err efault)) do
    let t ← sysGettime env (if clk = 0 then 1 else 0)
    let ns := if t = 2 ^ 64 - 1 then 0 else t
    writeVolatile 8 out (ns / 1000000000)
    writeVolatile 8 (out + 8) (ns % 1000000000)
    pure 0

def xorshift (s : UInt64) : UInt64 :=
  let s := s ^^^ (s <<< 13)
  let s := s ^^^ (s >>> 7)
  s ^^^ (s <<< 17)

-- The bytes of the stream from a state on, and the state after them.
def randomBytes : Nat → UInt64 → Bytes × UInt64
  | 0, s => ([], s)
  | n + 1, s =>
    let s := xorshift s
    let r := randomBytes n s
    (s.toUInt8 :: r.1, r.2)

def linuxGetrandom (buf len : Nat) : SysM φ Nat :=
  if min len 256 = 0 then pure (err efault)
  else checkBuf buf (min len 256) true (pure (err efault)) do
    let r ← Prog.read fun k => .ok (randomBytes (min len 256) k.rng)
    storeUser buf r.1
    Prog.modify fun k => { k with rng := r.2 }
    pure (min len 256)

end

inductive Linux
  | read
  | write
  | openFile
  | close
  | fstat
  | lseek
  | mmap
  | munmap
  | brk
  | ignored          -- rt_sigaction, rt_sigprocmask, ioctl, access and futex only report success
  | pread64
  | writev
  | nanosleep
  | getpid
  | uname
  | getcwd
  | getppid
  | archPrctl
  | setTidAddress
  | clockGettime
  | exitGroup
  | getrandom
  deriving DecidableEq, Repr

def Linux.ofNumber : Nat → Option Linux
  | 0 => some read
  | 1 => some write
  | 2 => some openFile
  | 3 => some close
  | 5 => some fstat
  | 8 => some lseek
  | 9 => some mmap
  | 11 => some munmap
  | 12 => some brk
  | 13 => some ignored
  | 14 => some ignored
  | 16 => some ignored
  | 17 => some pread64
  | 20 => some writev
  | 21 => some ignored
  | 35 => some nanosleep
  | 39 => some getpid
  | 63 => some uname
  | 79 => some getcwd
  | 110 => some getppid
  | 158 => some archPrctl
  | 202 => some ignored
  | 218 => some setTidAddress
  | 228 => some clockGettime
  | 231 => some exitGroup
  | 257 => some openFile
  | 318 => some getrandom
  | _ => none

variable (env : Env φ)

def Linux.handle (f : Frame) : Linux → SysM φ Frame
  | read => f.answering (sysRead env f.rdi.toNat f.rsi.toNat f.rdx.toNat)
  | write => f.answering (sysWrite env f.rdi.toNat f.rsi.toNat f.rdx.toNat)
  | openFile => f.answering (linuxOpen env f.rsi.toNat)
  | close => f.answering (sysClose f.rdi.toNat)
  | fstat => f.answering (linuxFstat f.rsi.toNat)
  | lseek => f.answering (sysSeek env f.rdi.toNat f.rsi.toNat f.rdx.toNat)
  | mmap => f.answering (linuxMmap env f.rsi.toNat f.r8.toNat)
  | munmap => f.answering (pure 0)
  | brk => f.answering (linuxBreak env f.rdi.toNat)
  | ignored => f.answering (pure 0)
  -- The offset in r10 is not looked at.
  | pread64 => f.answering (sysRead env f.rdi.toNat f.rsi.toNat f.rdx.toNat)
  | writev => f.answering (linuxWritev env f.rdi.toNat f.rsi.toNat f.rdx.toNat)
  | nanosleep => f.answering (linuxNanosleep env f.rdi.toNat)
  | getpid => f.answering (Prog.read fun k => .ok k.pid)
  | uname => f.answering (linuxUname f.rdi.toNat)
  | getcwd => f.answering (linuxGetcwd f.rdi.toNat f.rsi.toNat)
  | getppid => f.answering (pure 0)
  | archPrctl => f.answering (linuxArchPrctl f.rdi.toNat f.rsi.toNat)
  | setTidAddress => f.answering (Prog.read fun k => .ok k.pid)
  | clockGettime => f.answering (linuxClockGettime env f.rdi.toNat f.rsi.toNat)
  | exitGroup => sysExit env f
  | getrandom => f.answering (linuxGetrandom f.rdi.toNat f.rsi.toNat)

-- `linux_dispatch` with its second and third tier.
def linuxDispatch (f : Frame) : SysM φ Frame :=
  match Linux.ofNumber f.rax.toNat with
  | none => pure (f.answer (err enosys))
  | some call => call.handle env f

def dispatch (f : Frame) : SysM φ Frame := do
  if ← Prog.read fun k => .ok k.linux then linuxDispatch env f else nativeDispatch env f

end Syscall
