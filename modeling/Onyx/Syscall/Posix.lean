import Onyx.Syscall.Descriptors
import Onyx.Lib.Simulation

-- The Linux file calls of one task against POSIX, with the documented limits of the shim.

open Lib

namespace Syscall

open Userspace (Space pageSize)
open Errno

namespace Posix

inductive Description
  | input
  | output
  | file (e : FdEntry)
  deriving DecidableEq

structure State (φ : Type) where
  table : Nat → Option Description
  rest : φ

inductive Call
  | openFile (path : Bytes)
  | read (fd len : Nat)
  | pread (fd len : Nat) (off : Int)
  | write (fd : Nat) (data : Bytes)
  | lseek (fd : Nat) (off : Int) (whence : Nat)
  | close (fd : Nat)

-- What is returned, and the bytes that are put into the buffer of the caller.
structure Answer where
  value : Nat
  data : Bytes

def espipe : Nat := 29

def State.set (s : State φ) (fd : Nat) (d : Option Description) : State φ :=
  { s with table := Function.update s.table fd d }

theorem State.set_self {s : State φ} : (s.set fd d).table fd = d := Function.update_self ..

theorem State.set_of_ne {s : State φ} (h : i ≠ fd) : (s.set fd d).table i = s.table i := Function.update_of_ne h ..

def State.lowest (s : State φ) : Option Nat := (List.range maxFds).find? fun fd => (s.table fd).isNone

def pathOf (bytes : Bytes) : Except Nat Text :=
  if bytes.length = 0 then .error (err enoent)
  else if 128 < bytes.length then .error (err enametoolong)
  else match fromUtf8 bytes with
    | none => .error (err einval)
    | some path => checkPath path

def answer (n : Nat) (s : State φ) : Option Answer × State φ := (some ⟨n, []⟩, s)

section

variable (env : Env φ) (s : State φ)

-- An open that fails has created nothing.
def openPath (path : Text) : Option Answer × State φ :=
  match s.lowest with
  | none => answer (err emfile) s
  | some fd =>
    match env.vfs.openPath path s.rest with
    | (.ok _, r) => answer fd ({ s with rest := r }.set fd (some (.file ⟨path, 0⟩)))
    | (.error .notFound, r) =>
      match env.vfs.writeAt path 0 [] r with
      | (.ok _, r') => answer fd ({ s with rest := r' }.set fd (some (.file ⟨path, 0⟩)))
      | (.error e, r') => answer (fsErr e) { s with rest := r' }
    | (.error e, r) => answer (fsErr e) { s with rest := r }

-- There is no answer while the console has no complete line.
def readLine (len : Nat) : Option Answer × State φ :=
  match env.takeLine len s.rest with
  | (line, r) => (if line.length = 0 then none else some ⟨line.length, line⟩, { s with rest := r })

def readFile (e : FdEntry) (off len : Nat) (moved : Nat → State φ → State φ) : Option Answer × State φ :=
  match env.vfs.readAt e.name off len s.rest with
  | ((data, .ok n), r) => (some ⟨n, data⟩, moved n { s with rest := r })
  | ((data, .error f), r) => (some ⟨fsErr f, data⟩, { s with rest := r })

def State.move (fd : Nat) (e : FdEntry) (n : Nat) (s : State φ) : State φ := s.set fd (some (.file (e.moved n)))

def read (fd len : Nat) : Option Answer × State φ :=
  if len = 0 then answer 0 s
  else match s.table fd with
    | some .input => readLine env s (min len 4096)
    | some (.file e) => readFile env s e e.pos (min len 4096) (State.move fd e)
    | _ => answer (err ebadf) s

-- The offset is the one of the call, and the cursor stays where it is.
def pread (fd len : Nat) (off : Int) : Option Answer × State φ :=
  if len = 0 then answer 0 s
  else match s.table fd with
    | some (.file e) =>
      if off < 0 then answer (err einval) s else readFile env s e off.toNat (min len 4096) fun _ s => s
    | some _ => answer (err espipe) s
    | none => answer (err ebadf) s

def writeFile (fd : Nat) (e : FdEntry) (data : Bytes) : Option Answer × State φ :=
  match env.vfs.writeAt e.name e.pos data s.rest with
  | (.ok n, r) => answer n ({ s with rest := r }.move fd e n)
  | (.error f, r) => answer (fsErr f) { s with rest := r }

def writeConsole (data : Bytes) : Option Answer × State φ :=
  match env.serialWrite data s.rest with
  | (n, r) => answer n { s with rest := env.consoleBytes data r }

def write (fd : Nat) (data : Bytes) : Option Answer × State φ :=
  if data.length = 0 then answer 0 s
  else match s.table fd with
    | some .output => writeConsole env s data
    | some (.file e) => writeFile env s fd e data
    | _ => answer (err ebadf) s

def seekTo (fd : Nat) (e : FdEntry) (pos : Int) : Option Answer × State φ :=
  if 0 ≤ pos ∧ pos < 2 ^ 63 then answer pos.toNat (s.set fd (some (.file { e with pos := pos.toNat })))
  else answer (err einval) s

def lseek (fd : Nat) (off : Int) (whence : Nat) : Option Answer × State φ :=
  match s.table fd with
  | some (.file e) =>
    if whence = 0 then seekTo s fd e off
    else if whence = 1 then seekTo s fd e (e.pos + off)
    else if whence = 2 then
      match env.vfs.stat e.name s.rest with
      | (.ok st, r) => seekTo { s with rest := r } fd e (st.size + off)
      | (.error f, r) => answer (fsErr f) { s with rest := r }
    else answer (err einval) s
  | some _ => answer (err espipe) s
  | none => answer (err ebadf) s

def close (fd : Nat) : Option Answer × State φ :=
  match s.table fd with
  | some _ => answer 0 (s.set fd none)
  | none => answer (err ebadf) s

def Call.step : Call → Option Answer × State φ
  | openFile bytes => match pathOf bytes with
    | .error e => answer e s
    | .ok path => openPath env s path
  | read fd len => Posix.read env s fd len
  | pread fd len off => Posix.pread env s fd len off
  | write fd data => Posix.write env s fd data
  | lseek fd off whence => Posix.lseek env s fd off whence
  | close fd => Posix.close s fd

end

end Posix

open Posix (Description State)

variable {φ : Type} {α β : Type} {env : Env φ}

section simulation

-- Descriptors 0 to 2 are the console, the others are those of the table.
def describe (fd : Nat) (e : Option FdEntry) : Option Description :=
  if fd = 0 then some .input else if fd < 3 then some .output else e.map .file

structure Tabled (s : State φ) (fds : Vector (Option FdEntry) maxFds) : Prop where
  table : ∀ fd, s.table fd = describe fd (fds[fd]?).join
  console : ∀ fd, fd < 3 → (fds[fd]?).join = none

-- The POSIX state behind a Linux task, with its memory.
structure Shows (k : Kernel φ) (t : State φ × Space) : Prop where
  linux : k.linux = true
  space : k.space = t.2
  rest : k.rest = t.1.rest
  fds : Tabled t.1 (fdTable k.pid k.fds)

variable {s s' : State φ} {sp : Space} {fds : Vector (Option FdEntry) maxFds}

theorem describe_of_le (h : 3 ≤ fd) : describe fd e = e.map .file := by
  rw [describe, if_neg (by omega), if_neg (by omega)]

theorem Tabled.kinds (h : Tabled s fds) (fd : Nat) : fd = 0 ∧ s.table fd = some .input ∨
    (fd = 1 ∨ fd = 2) ∧ s.table fd = some .output ∨ 3 ≤ fd ∧ s.table fd = (fds[fd]?).join.map .file := by
  rw [h.table, describe]
  split_ifs <;> grind

theorem Tabled.file (h : Tabled s fds) (he : s.table fd = some (.file e)) : 3 ≤ fd ∧ (fds[fd]?).join = some e := by
  have := h.kinds fd
  cases hj : (fds[fd]?).join <;> grind

theorem Tabled.closed (h : Tabled s fds) (he : s.table fd = none) : 3 ≤ fd ∧ (fds[fd]?).join = none := by
  have := h.kinds fd
  cases hj : (fds[fd]?).join <;> grind

theorem Tabled.input (h : Tabled s fds) (he : s.table fd = some .input) : fd = 0 := by
  have := h.kinds fd
  cases hj : (fds[fd]?).join <;> grind

theorem Tabled.output (h : Tabled s fds) (he : s.table fd = some .output) : fd = 1 ∨ fd = 2 := by
  have := h.kinds fd
  cases hj : (fds[fd]?).join <;> grind

theorem Tabled.set (h : Tabled s fds) (hlow : 3 ≤ fd) (hhigh : fd < maxFds) (e : Option FdEntry) :
    Tabled (s.set fd (e.map .file)) (fds.setIfInBounds fd e) where
  table i := by
    by_cases hi : i = fd
    · subst hi
      rw [State.set_self, Vector.getElem?_setIfInBounds_self, if_pos hhigh, describe_of_le hlow]
      rfl
    · rw [State.set_of_ne hi, Vector.getElem?_setIfInBounds_ne (Ne.symm hi), h.table]
  console i hi := by
    rw [Vector.getElem?_setIfInBounds_ne (by omega), h.console i hi]

theorem Tabled.of_rest (h : Tabled s fds) : Tabled { s with rest := r } fds := ⟨h.table, h.console⟩

open Prog (Simulates)

theorem shows_callOut (s : State φ) (sp : Space) (f : φ → α × φ) :
    Simulates Shows (callOut f) (s, sp) (.ok (f s.rest).1) ({ s with rest := (f s.rest).2 }, sp) := by
  intro k h
  have hrest : k.rest = s.rest := h.rest
  refine ⟨{ k with rest := (f s.rest).2 }, ?_, h.linux, h.space, rfl, h.fds.of_rest⟩
  rw [← hrest]
  rfl

theorem shows_tellOut {f : φ → φ} : Simulates Shows (tellOut f) (s, sp) (.ok ()) ({ s with rest := f s.rest }, sp) :=
  fun _ h => ⟨_, rfl, ⟨h.linux, h.space, congrArg f h.rest, h.fds.of_rest⟩⟩

theorem shows_withTaskFds {f : Vector (Option FdEntry) maxFds → α × Vector (Option FdEntry) maxFds}
    (h : ∀ fds, Tabled s fds → (f fds).1 = a ∧ Tabled s' (f fds).2) (hr : s'.rest = s.rest) :
    Simulates Shows (withTaskFds f) (s, sp) (.ok a) (s', sp) := by
  intro k hk
  have ⟨ha, ht⟩ := h _ hk.fds
  refine ⟨{ k with fds := setFdTable k.pid (f (fdTable k.pid k.fds)).2 k.fds }, ?_, hk.linux, hk.space, hk.rest.trans hr.symm, ?_⟩
  · rw [← ha]
    rfl
  · dsimp only
    rw [fdTable_setFdTable]
    exact ht

theorem shows_fdEntry_file (he : s.table fd = some (.file e)) :
    Simulates Shows (fdEntry fd : SysM φ (Option FdEntry)) (s, sp) (.ok (some e)) (s, sp) :=
  shows_withTaskFds (fun _ ht => ⟨(ht.file he).2, ht⟩) rfl

theorem shows_fdEntry_none (he : ∀ e, s.table fd ≠ some (.file e)) :
    Simulates Shows (fdEntry fd : SysM φ (Option FdEntry)) (s, sp) (.ok none) (s, sp) := by
  refine shows_withTaskFds (fun fds ht => ⟨?_, ht⟩) rfl
  by_cases hfd : fd < 3
  · exact ht.console fd hfd
  by_contra hne
  have ⟨e, hsome⟩ := Option.ne_none_iff_exists'.mp hne
  dsimp only at hsome
  refine he e ?_
  rw [ht.table, describe_of_le (by omega), hsome]
  rfl

theorem lt_of_join {fds : Vector (Option FdEntry) maxFds} (h : (fds[fd]?).join = some e) : fd < maxFds := by
  by_contra hn
  rw [Vector.getElem?_eq_none (by omega)] at h
  cases h

theorem shows_setPos (he : s.table fd = some (.file e)) :
    Simulates Shows (setPos fd pos : SysM φ Unit) (s, sp) (.ok ()) (s.set fd (some (.file { e with pos })), sp) := by
  refine shows_withTaskFds (fun fds ht => ?_) rfl
  have ⟨hlow, hjoin⟩ := ht.file he
  simp only [hjoin]
  exact ⟨trivial, ht.set hlow (lt_of_join hjoin) (some _)⟩

theorem shows_advance (he : s.table fd = some (.file e)) (hn : e.pos + n < 2 ^ 64) :
    Simulates Shows (advance fd n : SysM φ Unit) (s, sp) (.ok ()) (s.move fd e n, sp) := by
  refine .bind (shows_fdEntry_file he) ?_
  dsimp only
  rw [checked_of_lt hn]
  exact .bind .lift (shows_setPos he)

theorem shows_storeUser {data : Bytes} (h : UserBuf sp addr data.length true) :
    Simulates Shows (storeUser addr data : SysM φ Unit) (s, sp) (.ok ()) (s, sp.setMemory addr data) := by
  intro k hk
  have hbuf : UserBuf k.space addr data.length true := hk.space ▸ h
  exact ⟨_, storeUser_run hbuf, hk.linux, congrArg (Space.setMemory · addr data) hk.space, hk.rest, hk.fds⟩

theorem shows_loadUser (h : UserBuf sp addr len false) : Simulates Shows (loadUser addr len : SysM φ Bytes) (s, sp)
      (.ok ((List.range len).map fun i => sp.memory (addr + i))) (s, sp) := by
  intro k hk
  have hspace : k.space = sp := hk.space
  subst hspace
  exact ⟨_, loadUser_run h, hk.linux, rfl, hk.rest, hk.fds⟩

theorem shows_checkBuf {good bad : SysM φ α} (h : UserBuf sp ptr len write) (hg : Simulates Shows good (s, sp) r t) :
    Simulates Shows (checkBuf ptr len write bad good) (s, sp) r t := by
  refine .read_bind (a := true) (fun k hk => ?_) hg
  rw [userBufOk_eq, hk.space, decide_eq_true (.inr h)]

-- What the caller sees of an answer: the return value, and the buffer.
def Posix.result : Option Posix.Answer → Result Blocked Nat
  | some a => .ok a.value
  | none => fail .blocked

def Posix.deliver (sp : Space) (buf : Nat) : Option Posix.Answer → Space
  | some a => sp.setMemory buf a.data
  | none => sp

-- A program does what the model does.
def Follows (p : SysM φ Nat) (s : State φ) (sp : Space) (buf : Nat) (out : Option Posix.Answer × State φ) : Prop :=
  Simulates Shows p (s, sp) (Posix.result out.1) (out.2, Posix.deliver sp buf out.1)

theorem setMemory_nil : sp.setMemory buf [] = sp := by
  have hmem : (sp.setMemory buf []).memory = sp.memory := funext fun a => if_neg fun h => by simp at h; omega
  show { sp with memory := (sp.setMemory buf []).memory } = sp
  rw [hmem]

theorem follows_answer (h : Simulates Shows p (s, sp) (.ok n) (s', sp)) : Follows p s sp buf (Posix.answer n s') := by
  rw [Follows, Posix.answer, Posix.deliver, setMemory_nil]
  exact h

theorem follows_pure : Follows (pure n) s sp buf (Posix.answer n s) := follows_answer .pure

-- The file system answers a read with bytes or an I/O error.
def Readable (env : Env φ) (s : State φ) (e : FdEntry) (len : Nat) : Prop :=
  ∀ f, (env.vfs.readAt e.name e.pos len s.rest).1.2 = .error f → fsErr f = err eio

theorem shows_readFile (env : Env φ) (he : s.table fd = some (.file e)) (hbuf : UserBuf sp buf len true)
    (hio : Readable env s e len) :
    Follows (readFile env fd buf len e) s sp buf (Posix.readFile env s e e.pos len (State.move fd e)) := by
  have hdata : UserBuf sp buf (env.vfs.readAt e.name e.pos len s.rest).1.1.length true := hbuf.take env.vfs.filled
  have hsum {n : Nat} (h : (env.vfs.readAt e.name e.pos len s.rest).1.2 = .ok n) := env.vfs.read h
  have hcall := shows_callOut s sp (env.vfs.readAt e.name e.pos len)
  rw [Follows, Posix.readFile]
  unfold Readable at hio
  generalize env.vfs.readAt e.name e.pos len s.rest = r at hio hdata hsum hcall ⊢
  obtain ⟨⟨data, res⟩, rest⟩ := r
  refine .bind hcall (.bind (shows_storeUser hdata) ?_)
  cases res with
  | ok n => exact .bind (shows_advance he (hsum rfl).2) .pure
  | error f =>
    rw [show Posix.result (some ⟨fsErr f, data⟩) = .ok (err eio) by rw [Posix.result, hio f rfl]]
    exact .pure

theorem shows_console (env : Env φ) (hbuf : UserBuf sp buf len true) :
    Follows (retry (consoleLine env buf len) []) s sp buf (Posix.readLine env s len) := by
  have hline : UserBuf sp buf (env.takeLine len s.rest).1.length true := hbuf.take env.lineTaken
  have hcall := shows_callOut s sp (env.takeLine len)
  rw [Follows, Posix.readLine]
  generalize env.takeLine len s.rest = r at hline hcall ⊢
  obtain ⟨line, rest⟩ := r
  dsimp only at hline hcall ⊢
  by_cases h : line.length = 0
  · rw [if_pos h]
    refine .bind (a := none) (.bind hcall ?_) .lift
    rw [if_pos h]
    exact .pure
  · rw [if_neg h]
    refine .bind (a := some line.length) (.bind hcall ?_) .pure
    rw [if_neg h]
    exact .bind (shows_storeUser hline) .pure

theorem Follows.of_tabled (h : ∀ fds, Tabled s fds → Follows p s sp buf out) : Follows p s sp buf out :=
  fun k hk => h _ hk.fds k hk

theorem not_input (h : Tabled s fds) (he : s.table fd ≠ some .input) : fd ≠ 0 := by
  rintro rfl
  exact he (h.table 0)

theorem follows_read (hbuf : len ≠ 0 → UserBuf sp buf (min len 4096) true)
    (hio : ∀ e, s.table fd = some (.file e) → Readable env s e (min len 4096)) :
    Follows (sysRead env.unwoken fd buf len) s sp buf (Posix.read env s fd len) := by
  refine .of_tabled fun fds ht => ?_
  unfold sysRead
  rw [Posix.read]
  by_cases hlen : len = 0
  · rw [if_pos hlen, if_pos hlen]
    exact follows_pure
  rw [if_neg hlen, if_neg hlen]
  have hbuf := hbuf hlen
  match he : s.table fd with
  | some .input =>
    rw [if_pos (ht.input he)]
    exact shows_checkBuf hbuf (shows_console env.unwoken hbuf)
  | some .output =>
    rw [if_neg (not_input ht (by rw [he]; nofun))]
    exact follows_answer (.bind (shows_fdEntry_none (by rw [he]; nofun)) .pure)
  | some (.file e) =>
    rw [if_neg (not_input ht (by rw [he]; nofun))]
    exact .bind (shows_fdEntry_file he) (shows_checkBuf hbuf (shows_readFile env.unwoken he hbuf (hio e he)))
  | none =>
    rw [if_neg (not_input ht (by rw [he]; nofun))]
    exact follows_answer (.bind (shows_fdEntry_none (by rw [he]; nofun)) .pure)

-- A read that leaves the cursor where it is.
def Still (env : Env φ) (s : State φ) (e : FdEntry) (len : Nat) : Prop :=
  ∀ n, (env.vfs.readAt e.name e.pos len s.rest).1.2 = .ok n → n = 0

theorem move_zero (he : s.table fd = some (.file e)) : State.move fd e 0 { s with rest := r } = { s with rest := r } := by
  have hset : Function.update s.table fd (some (.file (e.moved 0))) = s.table := by
    rw [Function.update_eq_self_iff, he]
    rfl
  rw [State.move, State.set, hset]

theorem readFile_still (he : s.table fd = some (.file e)) (h : Still env s e len) :
    Posix.readFile env s e e.pos len (State.move fd e) = Posix.readFile env s e e.pos len fun _ s => s := by
  unfold Posix.readFile
  have hn := h
  unfold Still at hn
  generalize env.vfs.readAt e.name e.pos len s.rest = r at hn
  obtain ⟨⟨data, res⟩, rest⟩ := r
  cases res with
  | error f => rfl
  | ok n =>
    cases hn n rfl
    dsimp only
    rw [move_zero he]

theorem pread_eq_read {off : Int}
    (hs : s.table fd = none ∨ ∃ e, s.table fd = some (.file e) ∧ off = e.pos ∧ Still env s e (min len 4096)) :
    Posix.pread env s fd len off = Posix.read env s fd len := by
  unfold Posix.pread Posix.read
  by_cases hlen : len = 0
  · rw [if_pos hlen, if_pos hlen]
  rw [if_neg hlen, if_neg hlen]
  obtain he | ⟨e, he, rfl, hstill⟩ := hs
  · rw [he]
  rw [he]
  dsimp only
  rw [if_neg (by omega), readFile_still he hstill]
  rfl

-- Reads at an offset on which the shim, which reads at the cursor and moves it, is right.
def AtCursor (env : Env φ) (s : State φ) (fd len : Nat) (off : Int) : Prop :=
  s.table fd = none ∨ ∃ e, s.table fd = some (.file e) ∧ off = e.pos ∧ Still env s e (min len 4096) ∧ Readable env s e (min len 4096)

theorem follows_pread {off : Int} (hbuf : len ≠ 0 → UserBuf sp buf (min len 4096) true) (hat : len ≠ 0 → AtCursor env s fd len off) :
    Follows (sysRead env.unwoken fd buf len) s sp buf (Posix.pread env s fd len off) := by
  by_cases hlen : len = 0
  · unfold sysRead Posix.pread
    rw [if_pos hlen, if_pos hlen]
    exact follows_pure
  obtain he | ⟨e, he, hoff, hstill, hread⟩ := hat hlen
  · rw [pread_eq_read (.inl he)]
    exact follows_read hbuf (by rw [he]; nofun)
  rw [pread_eq_read (.inr ⟨e, he, hoff, hstill⟩)]
  refine follows_read hbuf fun e' he' => ?_
  cases he.symm.trans he'
  exact hread

def Writable (env : Env φ) (s : State φ) (e : FdEntry) (data : Bytes) : Prop :=
  ∀ f, (env.vfs.writeAt e.name e.pos data s.rest).1 = .error f → fsErr f = err eio

theorem shows_fdWriteAt (env : Env φ) {data : Bytes} (he : s.table fd = some (.file e)) (hio : Writable env s e data) :
    Follows (fdWriteAt env fd data) s sp buf (Posix.writeFile env s fd e data) := by
  have hsum {n : Nat} (h : (env.vfs.writeAt e.name e.pos data s.rest).1 = .ok n) := env.vfs.written h
  have hcall := shows_callOut s sp (env.vfs.writeAt e.name e.pos data)
  rw [Posix.writeFile]
  unfold Writable at hio
  generalize env.vfs.writeAt e.name e.pos data s.rest = r at hio hsum hcall ⊢
  obtain ⟨res, rest⟩ := r
  cases res with
  | ok n => exact follows_answer (.bind (shows_fdEntry_file he) (.bind hcall (.bind (shows_advance he (hsum rfl).2) .pure)))
  | error f =>
    dsimp only
    rw [hio f rfl]
    exact follows_answer (.bind (shows_fdEntry_file he) (.bind hcall .pure))

theorem shows_writeConsole {data : Bytes} :
    Follows (do
      let n ← callOut (env.serialWrite data)
      tellOut (env.consoleBytes data)
      pure n) s sp buf (Posix.writeConsole env s data) :=
  follows_answer (.bind (shows_callOut _ _ _) (.bind shows_tellOut .pure))

theorem follows_write (hbuf : len ≠ 0 → UserBuf sp buf (min len 4096) false)
    (hio : ∀ e, s.table fd = some (.file e) → Writable env s e (bytesOf sp buf (min len 4096))) :
    Follows (sysWrite env.unwoken fd buf len) s sp addr (Posix.write env s fd (bytesOf sp buf (min len 4096))) := by
  refine .of_tabled fun fds ht => ?_
  have hzero : (bytesOf sp buf (min len 4096)).length = 0 ↔ len = 0 := by
    unfold bytesOf
    rw [List.length_map, List.length_range]
    omega
  unfold sysWrite Posix.write
  by_cases hlen : len = 0
  · rw [if_pos hlen, if_pos (hzero.mpr hlen)]
    exact follows_pure
  rw [if_neg hlen, if_neg (mt hzero.mp hlen)]
  have hbuf := hbuf hlen
  refine shows_checkBuf hbuf ?_
  match he : s.table fd with
  | some .input =>
    have hfd := ht.input he
    rw [if_neg (by omega), if_neg (by omega)]
    exact follows_pure
  | some .output =>
    rw [if_pos (ht.output he)]
    exact .bind (shows_loadUser hbuf) shows_writeConsole
  | some (.file e) =>
    have hfd := (ht.file he).1
    rw [if_neg (by omega), if_pos hfd]
    exact .bind (shows_loadUser hbuf) (shows_fdWriteAt env.unwoken he (hio e he))
  | none =>
    have hfd := (ht.closed he).1
    rw [if_neg (by omega), if_pos hfd]
    exact follows_answer (.bind (shows_loadUser hbuf) (.bind (shows_fdEntry_none (by rw [he]; nofun)) .pure))

theorem signed_of_lt (h : n < 2 ^ 63) : signed n = n := by
  have hmod : n % 2 ^ 64 = n := Nat.mod_eq_of_lt (by omega)
  rw [signed, hmod, if_pos h]

theorem shows_seekTo {pos : Int} (he : s.table fd = some (.file e)) : Follows (seekTo fd pos) s sp buf (Posix.seekTo s fd e pos) := by
  rw [seekTo, Posix.seekTo]
  split_ifs
  · exact follows_answer (.bind (shows_setPos he) .pure)
  · exact follows_pure

-- Offsets are signed 64-bit numbers: the base that a seek counts from has to be one.
def Seekable (env : Env φ) (s : State φ) (e : FdEntry) (whence : Nat) : Prop :=
  (whence = 1 → e.pos < 2 ^ 63) ∧ (whence = 2 → ∀ st, (env.vfs.stat e.name s.rest).1 = .ok st → st.size < 2 ^ 63)

theorem shows_seek (env : Env φ) (he : s.table fd = some (.file e)) (hb : Seekable env s e whence) :
    Follows (do
      match ← seekBase env e whence with
      | .error r => pure r
      | .ok base => seekTo fd (base + signed offset)) s sp buf (Posix.lseek env s fd (signed offset) whence) := by
  unfold Posix.lseek seekBase
  rw [he]
  dsimp only
  by_cases h0 : whence = 0
  · rw [if_pos h0, if_pos h0, show Posix.seekTo s fd e (signed offset) = Posix.seekTo s fd e (0 + signed offset) by rw [Int.zero_add]]
    exact .bind .pure (shows_seekTo he)
  rw [if_neg h0, if_neg h0]
  by_cases h1 : whence = 1
  · rw [if_pos h1, if_pos h1, ← signed_of_lt (hb.1 h1)]
    exact .bind .pure (shows_seekTo he)
  rw [if_neg h1, if_neg h1]
  by_cases h2 : whence = 2
  · rw [if_pos h2, if_pos h2]
    have hsize := hb.2 h2
    have hcall := shows_callOut s sp (env.vfs.stat e.name)
    generalize env.vfs.stat e.name s.rest = r at hsize hcall ⊢
    obtain ⟨res, rest⟩ := r
    cases res with
    | ok st =>
      dsimp only
      rw [← signed_of_lt (hsize st rfl)]
      exact .bind (.bind hcall .pure) (shows_seekTo he)
    | error f => exact follows_answer (.bind (.bind hcall .pure) .pure)
  · rw [if_neg h2, if_neg h2]
    exact follows_answer (.bind .pure .pure)

def Posix.State.Console (s : State φ) (fd : Nat) : Prop := s.table fd = some .input ∨ s.table fd = some .output

theorem follows_lseek (hc : ¬s.Console fd) (hb : ∀ e, s.table fd = some (.file e) → Seekable env s e whence) :
    Follows (sysSeek env.unwoken fd offset whence) s sp buf (Posix.lseek env s fd (signed offset) whence) := by
  refine .of_tabled fun fds ht => ?_
  unfold sysSeek
  match he : s.table fd with
  | some .input => exact absurd (.inl he) hc
  | some .output => exact absurd (.inr he) hc
  | some (.file e) =>
    have hfd := (ht.file he).1
    rw [if_neg (by omega)]
    exact .bind (shows_fdEntry_file he) (shows_seek env.unwoken he (hb e he))
  | none =>
    have hfd := (ht.closed he).1
    unfold Posix.lseek
    rw [if_neg (by omega), he]
    exact follows_answer (.bind (shows_fdEntry_none (by rw [he]; nofun)) .pure)

theorem follows_close (hc : ¬s.Console fd) : Follows (sysClose fd) s sp buf (Posix.close s fd) := by
  refine .of_tabled fun fds ht => ?_
  unfold sysClose Posix.close
  match he : s.table fd with
  | some .input => exact absurd (.inl he) hc
  | some .output => exact absurd (.inr he) hc
  | some (.file e) =>
    obtain ⟨hlow, hjoin⟩ := ht.file he
    have hhigh := lt_of_join hjoin
    rw [if_neg (by omega)]
    refine follows_answer (shows_withTaskFds (fun fds ht => ?_) rfl)
    simp only [(ht.file he).2]
    exact ⟨trivial, ht.set hlow hhigh none⟩
  | none =>
    have hlow := (ht.closed he).1
    by_cases hhigh : maxFds ≤ fd
    · rw [if_pos (.inr hhigh)]
      exact follows_pure
    rw [if_neg (by omega)]
    refine follows_answer (shows_withTaskFds (fun fds ht => ?_) rfl)
    simp only [(ht.closed he).2]
    exact ⟨trivial, ht⟩

-- The NUL-terminated string at an address, of whose bytes `left` are looked at.
def cstring (sp : Space) : Nat → Nat → Bytes
  | 0, _ => []
  | left + 1, p => if sp.memory p = 0 then [] else sp.memory p :: cstring sp left (p + 1)

structure IsString (sp : Space) (left p : Nat) : Prop where
  short : (cstring sp left p).length < left
  buf : UserBuf sp p ((cstring sp left p).length + 1) false

theorem IsString.tail (h : IsString sp (left + 1) p) (hb : sp.memory p ≠ 0) : IsString sp left (p + 1) := by
  have ⟨hs, hbuf⟩ := h
  rw [cstring, if_neg hb, List.length_cons] at hs hbuf
  exact ⟨by omega, hbuf.sub (by omega)⟩

theorem shows_cstrLen (h : IsString sp left p) :
    Simulates Shows (linuxCstrLen left n p : SysM φ (Option Nat)) (s, sp) (.ok (some (n + (cstring sp left p).length))) (s, sp) := by
  induction left generalizing n p with
  | zero => exact absurd h.short (Nat.not_lt_zero _)
  | succ left hi =>
    intro k hk
    have hspace : k.space = sp := hk.space
    have hlow := h.buf.low
    have hhigh : p + ((cstring sp (left + 1) p).length + 1) ≤ 0x100000000000 := h.buf.high
    have hm : k.space.Mapped (p / pageSize) := hspace ▸ (h.buf.pages 0 (by omega)).mapped
    have hc : Userspace.Canonical p := .inl (by omega)
    rw [cstr_present hc hm (by omega) (by omega), hspace, cstring]
    by_cases hb : sp.memory p = 0
    · rw [if_pos hb, if_pos hb]
      exact ⟨_, rfl, hk.linux, hk.space, hk.rest, hk.fds⟩
    have hcount : n + ((cstring sp left (p + 1)).length + 1) = n + 1 + (cstring sp left (p + 1)).length := by omega
    rw [if_neg hb, if_neg hb, List.length_cons, hcount]
    exact hi (h.tail hb) _ ⟨hk.linux, hk.space, hk.rest, hk.fds⟩

theorem bytesOf_cstring (left p : Nat) : bytesOf sp p (cstring sp left p).length = cstring sp left p := by
  induction left generalizing p with
  | zero => rfl
  | succ left hi =>
    rw [cstring]
    split_ifs
    · rfl
    rw [List.length_cons, bytesOf, List.range_succ_eq_map, List.map_cons, List.map_map, add_zero]
    refine congrArg _ ((List.map_congr_left fun i _ => ?_).trans (hi (p + 1)))
    rw [Function.comp_apply, add_assoc, add_comm 1]

theorem shows_userPath (h : IsString sp left p) :
    Simulates Shows (userPath p (cstring sp left p).length : SysM φ (Except Nat Text)) (s, sp)
      (.ok (Posix.pathOf (cstring sp left p))) (s, sp) := by
  rw [userPath, Posix.pathOf]
  split_ifs
  · exact .pure
  · exact .pure
  have hbuf := h.buf.take (Nat.le_succ _)
  refine shows_checkBuf hbuf (.bind (shows_loadUser hbuf) ?_)
  rw [show (List.range _).map _ = cstring sp left p from bytesOf_cstring left p]
  cases fromUtf8 (cstring sp left p) with
  | none => exact .pure
  | some path => exact .pure

theorem Tabled.lowest (h : Tabled s fds) : s.lowest = firstFree fds := by
  have hsplit : List.range maxFds = [0, 1, 2] ++ List.range' 3 (maxFds - 3) := rfl
  have hconsole : [0, 1, 2].find? (fun fd => (s.table fd).isNone) = none := by
    simp [h.table, describe]
  have hfiles : ∀ i ∈ List.range' 3 (maxFds - 3), (s.table i).isNone = (fds[i]?).join.isNone := by
    intro i hi
    rw [h.table, describe_of_le (List.mem_range'_1.mp hi).1, Option.isNone_map]
  rw [State.lowest, firstFree, hsplit, List.find?_append, hconsole, Option.none_or, List.find?_congr hfiles]

theorem shows_allocFd (h : s.lowest = some fd) :
    Simulates Shows (allocFd path : SysM φ Nat) (s, sp) (.ok fd) (s.set fd (some (.file ⟨path, 0⟩)), sp) := by
  refine shows_withTaskFds (fun fds ht => ?_) rfl
  have hfree : firstFree fds = some fd := ht.lowest ▸ h
  have ⟨hlow, hhigh, _⟩ := firstFree_eq_some hfree
  simp only [hfree]
  exact ⟨trivial, ht.set hlow hhigh (some ⟨path, 0⟩)⟩

theorem shows_allocFd_full (h : s.lowest = none) :
    Simulates Shows (allocFd path : SysM φ Nat) (s, sp) (.ok (err emfile)) (s, sp) := by
  refine shows_withTaskFds (fun fds ht => ?_) rfl
  simp only [show firstFree fds = none from ht.lowest ▸ h]
  exact ⟨trivial, ht⟩

def Openable (env : Env φ) (s : State φ) (path : Text) : Prop :=
  s.lowest ≠ none ∧ (∀ r e r', env.vfs.openPath path s.rest = (.error .notFound, r) →
    env.vfs.writeAt path 0 [] r = (.error e, r') → fsErr e = err enoent) ∨
  env.vfs.openPath path s.rest = (.ok (), s.rest)

theorem shows_creates (h : env.vfs.writeAt path 0 [] s.rest = (res, r)) :
    Simulates Shows (creates env path .notFound) (s, sp) (.ok res.isOk) ({ s with rest := r }, sp) := by
  have hcall := shows_callOut s sp (env.vfs.writeAt path 0 [])
  rw [h] at hcall
  cases res <;> exact .bind hcall .pure

theorem shows_openPath (env : Env φ) (h : Openable env s path) :
    Follows (do
      match ← callOut (env.vfs.openPath path) with
      | .ok _ => allocFd path
      | .error e => do
        if ← creates env path e then allocFd path else pure (fsErr e)) s sp buf (Posix.openPath env s path) := by
  have hcall := shows_callOut s sp (env.vfs.openPath path)
  unfold Posix.openPath
  cases hl : s.lowest with
  | none =>
    have hopen := h.resolve_left fun h => h.1 hl
    rw [hopen] at hcall
    exact follows_answer (.bind hcall (shows_allocFd_full hl))
  | some fd =>
    have hfree {r : φ} : State.lowest { s with rest := r } = some fd := hl
    match ho : env.vfs.openPath path s.rest with
    | (.ok _, r) =>
      rw [ho] at hcall
      exact follows_answer (.bind hcall (shows_allocFd hfree))
    | (.error e, r) =>
      rw [ho] at hcall
      cases e with
      | notFound =>
        dsimp only
        match hw : env.vfs.writeAt path 0 [] r with
        | (.ok n, r') => exact follows_answer (.bind hcall (.bind (shows_creates hw) (shows_allocFd hfree)))
        | (.error e, r') =>
          have hopen : env.vfs.openPath path s.rest ≠ (.ok (), s.rest) := by rw [ho]; nofun
          have he := (h.resolve_right hopen).2 r e r' ho hw
          dsimp only
          rw [he]
          exact follows_answer (.bind hcall (.bind (shows_creates hw) .pure))
      | _ => exact follows_answer (.bind hcall (.bind .pure .pure))

theorem follows_open (hstr : IsString sp 4096 p) (hopen : ∀ path, Posix.pathOf (cstring sp 4096 p) = .ok path → Openable env s path) :
    Follows (linuxOpen env.unwoken p) s sp buf ((Posix.Call.openFile (cstring sp 4096 p)).step env s) := by
  have hlow := hstr.buf.low
  have hhigh : p + ((cstring sp 4096 p).length + 1) ≤ 0x100000000000 := hstr.buf.high
  unfold linuxOpen
  rw [if_neg (by omega), Posix.Call.step]
  have hlen := shows_cstrLen (φ := φ) (s := s) (n := 0) hstr
  rw [zero_add] at hlen
  refine .bind hlen (.bind (shows_userPath hstr) ?_)
  match hp : Posix.pathOf (cstring sp 4096 p) with
  | .error e => exact follows_pure
  | .ok path => exact shows_openPath env.unwoken (hopen path hp)

end simulation

section runs

-- A call as the registers carry it, with what the task has put into its memory by then.
structure Request where
  frame : Frame
  r10 : UInt64
  memory : Nat → UInt8

namespace Request

variable (r : Request)

def seen (sp : Space) : Space := { sp with memory := r.memory }

def call (sp : Space) : Option Posix.Call :=
  match r.frame.rax.toNat with
  | 0 => some (.read r.frame.rdi.toNat r.frame.rdx.toNat)
  | 1 => some (.write r.frame.rdi.toNat (bytesOf sp r.frame.rsi.toNat (min r.frame.rdx.toNat 4096)))
  | 2 => some (.openFile (cstring sp 4096 r.frame.rdi.toNat))
  | 3 => some (.close r.frame.rdi.toNat)
  | 8 => some (.lseek r.frame.rdi.toNat (signed r.frame.rsi.toNat) r.frame.rdx.toNat)
  | 17 => some (.pread r.frame.rdi.toNat r.frame.rdx.toNat (signed r.r10.toNat))
  | 257 => some (.openFile (cstring sp 4096 r.frame.rsi.toNat))
  | _ => none

def Proper (sp : Space) : Prop :=
  match r.frame.rax.toNat with
  | 0 => r.frame.rdx.toNat ≠ 0 → UserBuf sp r.frame.rsi.toNat (min r.frame.rdx.toNat 4096) true
  | 1 => r.frame.rdx.toNat ≠ 0 → UserBuf sp r.frame.rsi.toNat (min r.frame.rdx.toNat 4096) false
  | 2 => IsString sp 4096 r.frame.rdi.toNat
  | 17 => r.frame.rdx.toNat ≠ 0 → UserBuf sp r.frame.rsi.toNat (min r.frame.rdx.toNat 4096) true
  | 257 => IsString sp 4096 r.frame.rsi.toNat
  | _ => True

-- An open has its path behind the flags as well: that is where the shim looks for it.
def Doubled (sp : Space) : Prop :=
  r.frame.rax.toNat = 2 → IsString sp 4096 r.frame.rsi.toNat ∧
    cstring sp 4096 r.frame.rsi.toNat = cstring sp 4096 r.frame.rdi.toNat

def exec (env : Env φ) : SysM φ Frame := do
  Prog.modify fun k => { k with space := r.seen k.space }
  dispatch env.unwoken r.frame

end Request

-- Calls that the shim serves as POSIX has it.
def Posix.Call.Plain (env : Env φ) (s : State φ) : Posix.Call → Prop
  | openFile bytes => ∀ path, pathOf bytes = .ok path → Openable env s path
  | read fd len => ∀ e, s.table fd = some (.file e) → Readable env s e (min len 4096)
  | pread fd len off => len ≠ 0 → AtCursor env s fd len off
  | write fd data => ∀ e, s.table fd = some (.file e) → Writable env s e data
  | lseek fd _ whence => ¬s.Console fd ∧ ∀ e, s.table fd = some (.file e) → Seekable env s e whence
  | close fd => ¬s.Console fd

def Met (env : Env φ) : List Request → State φ → Space → Prop
  | [], _, _ => True
  | r :: rs, s, sp => ∃ c, r.call (r.seen sp) = some c ∧ r.Proper (r.seen sp) ∧ r.Doubled (r.seen sp) ∧ c.Plain env s ∧
    Met env rs (c.step env s).2 (Posix.deliver (r.seen sp) r.frame.rsi.toNat (c.step env s).1)

def Conforms (env : Env φ) : List Request → Kernel φ → State φ → Space → Prop
  | [], _, _, _ => True
  | r :: rs, k, s, sp => ∃ c, r.call (r.seen sp) = some c ∧
    ((r.exec env).run k).1 = (Posix.result (c.step env s).1).map r.frame.answer ∧
    Shows ((r.exec env).run k).2 ((c.step env s).2, Posix.deliver (r.seen sp) r.frame.rsi.toNat (c.step env s).1) ∧
    Conforms env rs ((r.exec env).run k).2 (c.step env s).2 (Posix.deliver (r.seen sp) r.frame.rsi.toNat (c.step env s).1)

open Prog (Simulates)

variable {s : State φ} {sp : Space} {r : Request} {c : Posix.Call}

theorem follows_answering {p : SysM φ Nat} {f : Frame} (h : Follows p s sp buf out) :
    Simulates Shows (f.answering p) (s, sp) ((Posix.result out.1).map f.answer) (out.2, Posix.deliver sp buf out.1) := by
  obtain ⟨a, s'⟩ := out
  cases a with
  | some a => exact .bind h .pure
  | none => exact .bind_error h

theorem shows_dispatch {f : Frame} (call : Linux) (hn : Linux.ofNumber f.rax.toNat = some call)
    (h : Simulates Shows (call.handle env f) (s, sp) res t) : Simulates Shows (dispatch env f) (s, sp) res t := by
  refine .read_bind (a := true) (fun k hk => congrArg Except.ok hk.linux) ?_
  rw [if_pos rfl, linuxDispatch, hn]
  exact h

theorem follows_handle (hc : r.call sp = some c) (hp : r.Proper sp) (hd : r.Doubled sp) (hplain : c.Plain env s) :
    Simulates Shows (dispatch env.unwoken r.frame) (s, sp) ((Posix.result (c.step env s).1).map r.frame.answer)
      ((c.step env s).2, Posix.deliver sp r.frame.rsi.toNat (c.step env s).1) := by
  unfold Request.call at hc
  unfold Request.Proper at hp
  unfold Request.Doubled at hd
  split at hc
  case h_1 hn =>
    cases hc
    rw [hn] at hp
    exact shows_dispatch .read (by rw [hn]; rfl) (follows_answering (follows_read hp hplain))
  case h_2 hn =>
    cases hc
    rw [hn] at hp
    exact shows_dispatch .write (by rw [hn]; rfl) (follows_answering (follows_write hp hplain))
  case h_3 hn =>
    cases hc
    have ⟨hstr, heq⟩ := hd hn
    unfold Posix.Call.Plain at hplain
    rw [← heq] at hplain ⊢
    exact shows_dispatch .openFile (by rw [hn]; rfl) (follows_answering (follows_open hstr hplain))
  case h_4 hn =>
    cases hc
    exact shows_dispatch .close (by rw [hn]; rfl) (follows_answering (follows_close hplain))
  case h_5 hn =>
    cases hc
    exact shows_dispatch .lseek (by rw [hn]; rfl) (follows_answering (follows_lseek hplain.1 hplain.2))
  case h_6 hn =>
    cases hc
    rw [hn] at hp
    exact shows_dispatch .pread64 (by rw [hn]; rfl) (follows_answering (follows_pread hp hplain))
  case h_7 hn =>
    cases hc
    rw [hn] at hp
    exact shows_dispatch .openFile (by rw [hn]; rfl) (follows_answering (follows_open hp hplain))
  case h_8 => cases hc

theorem Request.simulated (hk : Shows k (s, sp)) (hc : r.call (r.seen sp) = some c) (hp : r.Proper (r.seen sp))
    (hd : r.Doubled (r.seen sp)) (hplain : c.Plain env s) :
    ((r.exec env).run k).1 = (Posix.result (c.step env s).1).map r.frame.answer ∧
      Shows ((r.exec env).run k).2 ((c.step env s).2, Posix.deliver (r.seen sp) r.frame.rsi.toNat (c.step env s).1) := by
  have hk' : Shows { k with space := r.seen k.space } (s, r.seen sp) :=
    ⟨hk.linux, congrArg r.seen hk.space, hk.rest, hk.fds⟩
  have ⟨k', hrun, hshows⟩ := follows_handle hc hp hd hplain _ hk'
  have hexec : (r.exec env).run k = _ := hrun
  rw [hexec]
  exact ⟨rfl, hshows⟩

theorem conforms_of_met (hk : Shows k (s, sp)) (hm : Met env rs s sp) : Conforms env rs k s sp := by
  induction rs generalizing k s sp with
  | nil => trivial
  | cons r rs hi =>
    have ⟨c, hc, hp, hd, hplain, hrest⟩ := hm
    have ⟨hres, hshows⟩ := r.simulated hk hc hp hd hplain
    exact ⟨c, hc, hres, hshows, hi hshows hrest⟩

def Kernel.posix (k : Kernel φ) : State φ := ⟨fun fd => describe fd (k.entry fd), k.rest⟩

-- A run of file calls is one of POSIX as long as the shim serves each when its turn comes.
theorem linux_files_conform (hl : k.linux = true) (hc : ∀ fd, fd < 3 → k.entry fd = none) (hm : Met env rs k.posix k.space) :
    Conforms env rs k k.posix k.space :=
  conforms_of_met ⟨hl, rfl, rfl, fun _ => rfl, hc⟩ hm

-- The volume of one file, on which every path opens.
def openEnv : Env AtaDrive :=
  { oneFileEnv with vfs := { oneFileEnv.vfs with openPath := fun _ d => (.ok (), d) } }

def linuxReader : Kernel AtaDrive := { reader with fds := [] }

def withPathF (a : Nat) : UInt8 := if a = 0x200000 then '/'.toUInt8 else if a = 0x200001 then 'F'.toUInt8 else 0

def requestOf (rax rdi rsi rdx r10 : UInt64) : Request := ⟨⟨rax, rdi, rsi, rdx, 0, 0, 0⟩, r10, withPathF⟩

-- openat(AT_FDCWD, "/F", ..), read(3, buf, 2), open("/F", O_RDWR), pread64(3, buf, 2, 3)
def openatF : Request := requestOf 257 (2 ^ 64 - 100) 0x200000 2 0
def readF : Request := requestOf 0 3 0x200100 2 0
def openF : Request := requestOf 2 0x200000 2 0 0
def preadF : Request := requestOf 17 3 0x200100 2 3

theorem userBuf_page (hlow : 0x200000 ≤ p) (hhigh : p + len ≤ 0x201000) : UserBuf (readF.seen linuxReader.space) p len write := by
  refine ⟨by omega, by unfold userPtrMax; omega, fun i hi => ⟨⟨true, true, false⟩, ?_, rfl, fun _ => rfl⟩⟩
  have hpage : (p + i) / pageSize = 0x200 := by
    rw [Userspace.pageSize_eq]
    omega
  show (if (p + i) / pageSize = 0x200 then _ else _) = _
  rw [if_pos hpage]

theorem isString_f : IsString (readF.seen linuxReader.space) 4096 0x200000 where
  short := by decide
  buf := userBuf_page (by decide) (by decide)

theorem openat_read_conforms : Conforms openEnv [openatF, readF] linuxReader linuxReader.posix linuxReader.space := by
  refine linux_files_conform rfl (by decide) ⟨_, rfl, isString_f, nofun, ?_, _, rfl, ?_, nofun, ?_, trivial⟩
  · exact fun path _ => .inr rfl
  · exact fun _ => userBuf_page (by decide) (by decide)
  · intro e he f hf
    have hopened : (((Posix.Call.openFile (cstring (openatF.seen linuxReader.space) 4096 0x200000)).step openEnv linuxReader.posix).2).table 3 =
        some (.file ⟨['/', 'F'], 0⟩) := by
      decide
    cases hopened.symm.trans he
    have hfailed : Except.isOk _ = false := congrArg Except.isOk hf
    exact absurd hfailed (by decide +kernel)

theorem open_pread_differ :
    openF.Proper (openF.seen linuxReader.space) ∧ preadF.Proper (preadF.seen linuxReader.space) ∧
      ¬Conforms openEnv [openF] linuxReader linuxReader.posix linuxReader.space ∧
      ¬Conforms openEnv [openatF, preadF] linuxReader linuxReader.posix linuxReader.space := by
  refine ⟨isString_f, fun _ => userBuf_page (by decide) (by decide), ?_, ?_⟩
  · rintro ⟨c, hc, hres, _⟩
    cases hc
    have hrax : ((openF.exec openEnv).run linuxReader).1.toOption.map Frame.rax = some (UInt64.ofNat (err efault)) := by
      decide +kernel
    rw [hres] at hrax
    exact absurd hrax (by decide)
  · rintro ⟨c, hc, _, _, c', hc', _, hshows, _⟩
    cases hc
    cases hc'
    have hspace := congrArg (Space.memory · 0x200100) hshows.space
    exact absurd hspace (by decide +kernel)

end runs

end Syscall
