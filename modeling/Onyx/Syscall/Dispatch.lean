import Onyx.Syscall.Unchecked
import Onyx.Userspace.Cursors

-- The dispatcher over both tables: which calls keep to user memory, and which calls panic.

open Lib

namespace Syscall

open Userspace (Space pageSize pageMask Canonical BrkMoves heapPages mmapPages linuxMmapEnd)
open Errno

variable {φ α : Type} {k k' k1 : Kernel φ} {env : Env φ} {f : Frame}

-- What a call did to memory was allowed, and it wrote nothing if it answers EFAULT.
structure Tidy (k : Kernel φ) (r : Result Blocked Nat) (k' : Kernel φ) : Prop where
  log : Extends true k k'
  fault : ∀ n, r = .ok n → n % 2 ^ 64 = err efault → Extends false k k'

theorem Tidy.of_calm (h : Extends false k k') : Tidy k r k' := ⟨h.mono, fun _ _ _ => h⟩

-- The exact conditions under which a handler does not panic, and under which it is tidy.
structure Judged (p : SysM φ Nat) (k : Kernel φ) (safe proper : Prop) : Prop where
  safe : ¬p.Panics k ↔ safe
  proper : p.Ensures k (Tidy k) ↔ proper

theorem Needs.judged {p : SysM φ Nat} {cond : Prop} (h : Needs p k cond) : Judged p k cond True where
  safe := by
    constructor
    · exact fun ht => Classical.byContradiction fun hn => ht (h.panic hn).1
    · exact fun hc => (h.clean hc).total
  proper := by
    refine iff_of_true ?_ trivial
    by_cases hc : cond
    · exact ⟨(h.clean hc).log, (h.clean hc).fault⟩
    · exact .of_calm (h.panic hc).2

theorem Judged.congr (h : Judged p k a b) (hs : a ↔ c) (hp : b ↔ d) : Judged p k c d :=
  ⟨h.safe.trans hs, h.proper.trans hp⟩

section unchecked

-- No byte that the scan of a path comes to has an address that is not canonical.
def PathSafe (s : Space) (path : Nat) : Prop :=
  path ≠ 0 → path + 4096 < 2 ^ 64 → ∀ i, i < 4096 → (∀ j, j < i → GoesOn s (path + j)) → Canonical (path + i)

-- No byte that it comes to lies on a page of the kernel.
def PathProper (s : Space) (path : Nat) : Prop :=
  path ≠ 0 → path + 4096 < 2 ^ 64 → ∀ i, i < 4096 → (∀ j, j < i → GoesOn s (path + j)) → Canonical (path + i) →
    s.Mapped ((path + i) / pageSize) → UserPage s.pages false ((path + i) / pageSize)

-- After the scan the path goes through the pointer check like any other.
theorem calm_openScanned (o : Option Nat) : Calm (match o with
    | some l => sysOpen env path l
    | none => pure (err efault)) := by
  cases o with
  | none => exact .pure
  | some _ => exact calm_sysOpen

theorem judged_linuxOpen : Judged (linuxOpen env path) k (PathSafe k.space path) (PathProper k.space path) := by
  unfold linuxOpen
  by_cases hbad : path = 0 ∨ 2 ^ 64 ≤ path + 4096
  · rw [if_pos hbad]
    refine (Needs.of_clean clean_pure).judged.congr (iff_of_true trivial ?_) (iff_of_true trivial ?_)
    · exact fun h0 h1 => absurd hbad (not_or.mpr ⟨h0, Nat.not_le.mpr h1⟩)
    · exact fun h0 h1 => absurd hbad (not_or.mpr ⟨h0, Nat.not_le.mpr h1⟩)
  rw [if_neg hbad]
  obtain ⟨h0, h1⟩ := not_or.mp hbad
  have h2 := Nat.lt_of_not_le h1
  constructor
  · unfold PathSafe
    rw [forall_prop_of_true h0, forall_prop_of_true h2, ← not_panics_linuxCstrLen h0 h2]
    refine not_congr (Prog.panics_bind.trans (or_iff_left ?_))
    rintro ⟨o, k1, _, hp⟩
    exact (calm_openScanned o k1).total hp
  · unfold PathProper
    rw [forall_prop_of_true h0, forall_prop_of_true h2]
    have hlog := cstr_logged (φ := φ) (k := k) (n := 0) h0 h2
    have hscan (writes : Bool) : Extends writes k ((linuxCstrLen 4096 0 path).run k).2 ↔ _ := extends_linuxCstrLen h0 h2
    unfold Prog.Ensures
    rcases hrun : (linuxCstrLen 4096 0 path).run k with ⟨e | o, k1⟩
    · rw [bind_run_error hrun]
      rw [hrun] at hscan
      exact ⟨fun h => (hscan true).mp h.log, fun h => .of_calm ((hscan false).mpr h)⟩
    rw [bind_run_ok hrun]
    rw [hrun] at hscan hlog
    obtain ⟨rest, hrest, hallowed⟩ := (calm_openScanned o k1).log
    refine ⟨fun h => ?_, fun h => ?_⟩
    · exact (hscan true).mp (h.log.before hlog ⟨rest, hrest.symm⟩)
    · exact .of_calm (((hscan false).mpr h).trans ⟨rest, hrest, hallowed⟩)

def StatSafe (s : Space) (buf : Nat) : Prop :=
  buf + 144 < 2 ^ 64 → ∀ i, i < 144 → (∀ j, j < i → s.Mapped ((buf + j) / pageSize)) → Canonical (buf + i) ∧
    (s.Mapped ((buf + i) / pageSize) → buf + i ≠ 0 ∧ s.Writable ((buf + i) / pageSize))

def StatProper (s : Space) (buf : Nat) : Prop :=
  buf + 144 < 2 ^ 64 → buf ≠ 0 → Canonical buf → s.Mapped (buf / pageSize) →
    ∀ i, i < 144 → (∀ j, j < i → Zeroes s (buf + j)) → Canonical (buf + i) → UserPage s.pages true ((buf + i) / pageSize)

theorem zero_first (h64 : buf + (left + 1) ≤ 2 ^ 64) : if buf ≠ 0 ∧ Canonical buf ∧ k.space.Mapped (buf / pageSize) then
      (k.touch true buf 1).touched <+: ((linuxZeroUser buf (left + 1) 0 : SysM φ Bool).run k).2.touched
    else ((linuxZeroUser buf (left + 1) 0 : SysM φ Bool).run k).2 = k := by
  have hlog := @zero_logged φ (k.stored buf (Bytes.toLe 1 0)) buf 1 left (by omega)
  have hstep : ZeroStep k buf ((linuxZeroUser buf left 1).run (k.stored buf (Bytes.toLe 1 0)))
      ((linuxZeroUser buf (left + 1) 0).run k) := @zeroStep φ k buf 0 left (by omega)
  generalize (linuxZeroUser buf (left + 1) 0 : SysM φ Bool).run k = r at hstep ⊢
  cases hstep with
  | noncanonical hc => rw [if_neg fun h => hc h.2.1]
  | absent hc hm => rw [if_neg fun h => hm h.2.2]
  | null hc hm hp => rw [if_neg fun h => h.1 hp]
  | fault hc hm hp hw =>
    simp [if_pos (And.intro hp (And.intro hc hm))]
  | next hc hm hp hw =>
    rw [if_pos ⟨hp, hc, hm⟩]
    exact hlog

theorem judged_linuxFstat : Judged (linuxFstat buf : SysM φ Nat) k (StatSafe k.space buf) (StatProper k.space buf) := by
  unfold linuxFstat
  by_cases hbad : 2 ^ 64 ≤ buf + 144
  · rw [if_pos hbad]
    refine (Needs.of_clean clean_pure).judged.congr (iff_of_true trivial ?_) (iff_of_true trivial ?_)
    · exact fun h => absurd hbad (Nat.not_le.mpr h)
    · exact fun h => absurd hbad (Nat.not_le.mpr h)
  rw [if_neg hbad]
  have h64 := Nat.lt_of_not_le hbad
  have hanswer : ∀ b : Bool, Calm (if b = true then pure 0 else pure (err efault) : SysM φ Nat) := fun b => match b with
    | true => .pure
    | false => .pure
  constructor
  · have hzero : ¬(linuxZeroUser buf 144 0 : SysM φ Bool).Panics k ↔ _ := not_panics_linuxZeroUser (by omega)
    unfold StatSafe
    rw [forall_prop_of_true h64]
    refine Iff.trans (not_congr (Prog.panics_bind.trans (or_iff_left ?_))) hzero
    rintro ⟨b, k1, _, hp⟩
    exact (hanswer b k1).total hp
  · unfold StatProper
    rw [forall_prop_of_true h64]
    have hfirst := @zero_first φ k buf 143 (by omega)
    have hzero := fun h => @extends_linuxZeroUser φ k buf 0 144 h (by omega)
    -- The answer is EFAULT exactly if the zeroing gave up.
    have htidy : (linuxZeroUser buf 144 0 >>= fun b => if b = true then pure 0 else pure (err efault)).Ensures k (Tidy k) ↔
        Extends true k ((linuxZeroUser buf 144 0).run k).2 ∧
          (((linuxZeroUser buf 144 0).run k).1 = .ok false → Extends false k ((linuxZeroUser buf 144 0).run k).2) := by
      unfold Prog.Ensures
      match hrun : (linuxZeroUser buf 144 0).run k with
      | (.error e, k1) =>
        rw [bind_run_error hrun]
        exact ⟨fun h => ⟨h.log, nofun⟩, fun h => ⟨h.1, nofun⟩⟩
      | (.ok true, k1) =>
        rw [bind_run_ok hrun]
        exact ⟨fun h => ⟨h.log, nofun⟩, fun h => ⟨h.1, fun n hn he => by cases hn; cases he⟩⟩
      | (.ok false, k1) =>
        rw [bind_run_ok hrun]
        exact ⟨fun h => ⟨h.log, fun _ => h.fault _ rfl (by decide)⟩, fun h => ⟨h.1, fun _ _ _ => h.2 rfl⟩⟩
    rw [htidy]
    by_cases hgo : buf ≠ 0 ∧ Canonical buf ∧ k.space.Mapped (buf / pageSize)
    · rw [if_pos hgo] at hfirst
      have hwrites := not_extends_of_write hfirst
      rw [forall_prop_of_true hgo.1, forall_prop_of_true hgo.2.1, forall_prop_of_true hgo.2.2]
      refine Iff.trans ?_ (hzero hgo.1)
      exact and_congr_right fun _ => ⟨fun h heq => hwrites (h heq), fun h heq => absurd heq h⟩
    · rw [if_neg hgo] at hfirst
      rw [hfirst]
      exact iff_of_true ⟨.refl, fun _ => .refl⟩ fun h0 hc hm => absurd ⟨h0, hc, hm⟩ hgo

end unchecked

section cursors

theorem needs_inSpace : Needs (inSpace p : SysM φ Nat) k (¬p.Panics k.space) where
  clean hc := .of_peek ⟨hc, .of_eq rfl⟩
  panic hc := ⟨Classical.not_not.mp hc, .of_eq rfl⟩

theorem needs_linuxMemCall :
    Needs (linuxMemCall env g) k (env.paging → ¬(g k.pid).Panics k.space) := by
  unfold linuxMemCall
  by_cases hp : env.paging
  · rw [if_pos hp, forall_prop_of_true hp]
    exact ⟨needs_inSpace.clean, needs_inSpace.panic⟩
  · rw [if_neg hp]
    exact ⟨fun _ => clean_pure, fun h => absurd (fun h' => absurd h' hp) h⟩

-- A break that moves up starts on a page boundary, and the pages it takes are free.
def BrkSafe (s : Space) (pid addr : Nat) : Prop :=
  BrkMoves s pid addr → (s.entry pid).brk % pageSize = 0 ∧ ∀ p ∈ heapPages s pid addr, ¬s.Mapped p

-- The mapping ends below 2^64, and if it fits the arena its pages are aligned and free.
def MmapSafe (s : Space) (pid len : Nat) : Prop :=
  len ≠ 0 → len + pageMask < 2 ^ 64 ∧ (s.entry pid).mmap + (len + pageMask) / pageSize * pageSize < 2 ^ 64 ∧
    ((s.entry pid).mmap + (len + pageMask) / pageSize * pageSize ≤ linuxMmapEnd →
      (s.entry pid).mmap % pageSize = 0 ∧ ∀ p ∈ mmapPages s pid len, ¬s.Mapped p)

theorem judged_linuxBreak : Judged (linuxBreak env addr) k (env.paging → BrkSafe k.space k.pid addr) True :=
  needs_linuxMemCall.judged.congr (forall_congr' fun _ => Userspace.not_panics_linuxBrk) Iff.rfl

theorem judged_linuxMmap :
    Judged (linuxMmap env len fd) k ((fd + 1) % 2 ^ 64 = 0 → env.paging → MmapSafe k.space k.pid len) True := by
  unfold linuxMmap
  by_cases hfd : (fd + 1) % 2 ^ 64 = 0
  · rw [if_neg (not_not_intro hfd), forall_prop_of_true hfd]
    exact needs_linuxMemCall.judged.congr (forall_congr' fun _ => Userspace.not_panics_linuxMmapAnon) Iff.rfl
  · rw [if_pos hfd]
    exact (Needs.of_clean clean_pure).judged.congr (iff_of_true trivial fun h => absurd h hfd) Iff.rfl

end cursors

-- As `Tidy`, for a call that answers in the frame.
structure Confined (k : Kernel φ) (r : Result Blocked Frame) (k' : Kernel φ) : Prop where
  log : Extends true k k'
  fault : ∀ f, r = .ok f → f.rax = UInt64.ofNat (err efault) → Extends false k k'

structure Served (q : SysM φ Frame) (k : Kernel φ) (safe proper : Prop) : Prop where
  safe : ¬q.Panics k ↔ safe
  proper : q.Ensures k (Confined k) ↔ proper

theorem Served.of_calm (h : Calm q) : Served q k True True :=
  ⟨iff_of_true (h k).total trivial, iff_of_true ⟨(h k).log.mono, fun _ _ _ => (h k).log⟩ trivial⟩

theorem answer_efault : (f.answer n).rax = UInt64.ofNat (err efault) ↔ n % 2 ^ 64 = err efault := by
  rw [Frame.answer, ← UInt64.toNat_inj, UInt64.toNat_ofNat', UInt64.toNat_ofNat']
  rfl

theorem Judged.answering (h : Judged p k a b) : Served (f.answering p) k a b := by
  suffices hsame : (¬(f.answering p).Panics k ↔ ¬p.Panics k) ∧ ((f.answering p).Ensures k (Confined k) ↔ p.Ensures k (Tidy k)) from
    ⟨hsame.1.trans h.safe, hsame.2.trans h.proper⟩
  unfold Frame.answering Prog.Panics Prog.Ensures
  match hrun : p.run k with
  | (.ok n, k1) =>
    rw [bind_run_ok hrun]
    refine ⟨iff_of_true nofun nofun, fun h => ⟨h.log, fun m hm he => ?_⟩, fun h => ⟨h.log, fun f' hf he => ?_⟩⟩
    · cases hm
      exact h.fault _ rfl (answer_efault.mpr he)
    · cases hf
      exact h.fault n rfl (answer_efault.mp he)
  | (.error e, k1) =>
    rw [bind_run_error hrun]
    exact ⟨not_congr (panics_error.trans panics_error.symm), fun h => ⟨h.log, nofun⟩, fun h => ⟨h.log, nofun⟩⟩

theorem Needs.answering {p : SysM φ Nat} {cond : Prop} (h : Needs p k cond) : Served (f.answering p) k cond True :=
  h.judged.answering

theorem served_calm {p : SysM φ Nat} (h : Calm p) : Served (f.answering p) k True True := (Needs.of_calm h).answering

theorem served_clean {p : SysM φ Nat} (h : p.Ensures k (Clean k)) : Served (f.answering p) k True True :=
  (Needs.of_clean h).answering

theorem served_sysExit : Served (sysExit env f) k True True :=
  .of_calm (.bind .read fun _ => .bind .dropFds fun _ => .bind (fun _ => ⟨nofun, .of_eq rfl⟩) fun _ => .bind .tellOut fun _ => .pure)

theorem served_sysKill : Served (sysKill env f) k True True := by
  refine .of_calm (.bind .read fun self => ?_)
  split
  · exact .bind .dropFds fun _ => .bind .tellOut fun _ => .pure
  refine .bind .callOut fun found => ?_
  split
  · exact .bind .dropFds fun _ => .pure
  · exact .pure

def Native.Safe (env : Env φ) (k : Kernel φ) (f : Frame) : Native → Prop
  | gettime => f.rdi.toNat = 1 → wallNs env k < 2 ^ 64
  | _ => True

def Linux.Safe (env : Env φ) (k : Kernel φ) (f : Frame) : Linux → Prop
  | openFile => PathSafe k.space f.rsi.toNat
  | fstat => StatSafe k.space f.rsi.toNat
  | mmap => (f.r8.toNat + 1) % 2 ^ 64 = 0 → env.paging → MmapSafe k.space k.pid f.rsi.toNat
  | brk => env.paging → BrkSafe k.space k.pid f.rdi.toNat
  | writev => f.rdx.toNat ≠ 0 → UserBuf k.space f.rsi.toNat 16 false → f.rsi.toNat % 8 = 0
  | nanosleep => UserBuf k.space f.rdi.toNat 16 false → f.rdi.toNat % 8 = 0
  | archPrctl => f.rdi.toNat = archGetFs → UserBuf k.space f.rsi.toNat 8 true → f.rsi.toNat % 8 = 0
  | clockGettime => UserBuf k.space f.rsi.toNat 16 true →
    (f.rdi.toNat = 0 → wallNs env k < 2 ^ 64) ∧ f.rsi.toNat % 8 = 0
  | _ => True

def Linux.Proper (k : Kernel φ) (f : Frame) : Linux → Prop
  | openFile => PathProper k.space f.rsi.toNat
  | fstat => StatProper k.space f.rsi.toNat
  | _ => True

theorem Native.served (env : Env φ) (k : Kernel φ) (f : Frame) (call : Native) : Served (call.handle env f) k (call.Safe env k f) True := by
  cases call with
  | write => exact served_calm calm_sysWrite
  | exit => exact served_sysExit
  | openFile => exact served_calm calm_sysOpen
  | read => exact served_clean clean_sysRead
  | close => exact served_calm calm_sysClose
  | ls => exact served_calm calm_sysLs
  | mkdir => exact served_calm (.withPath fun _ => calm_fsAnswer)
  | spawn => exact served_clean clean_sysSpawn
  | gettime => exact needs_sysGettime.answering
  | getpid => exact served_calm .read
  | sleep => exact served_calm calm_sysSleep
  | yield => exact served_calm (.bind (.park _) fun _ => .pure)
  | lspci => exact served_calm (.bind .tellOut fun _ => .pure)
  | flush => exact served_calm (.bind .tellOut fun _ => .pure)
  | waitpid => exact served_calm calm_sysWaitpid
  | kill => exact served_sysKill
  | inputRead => exact served_clean clean_sysInputRead
  | perf => exact served_calm (.bind .tellOut fun _ => .pure)
  | stat => exact served_clean clean_sysStat
  | seek => exact served_calm calm_sysSeek
  | unlink => exact served_calm (.withPath fun _ => calm_fsAnswer)
  | rename => exact served_calm (.withPath fun _ => .withPath fun _ => calm_fsAnswer)
  | fsync => exact served_calm calm_sysFsync

theorem Linux.served (env : Env φ) (k : Kernel φ) (f : Frame) (call : Linux) : Served (call.handle env f) k (call.Safe env k f) (call.Proper k f) := by
  cases call with
  | read => exact served_clean clean_sysRead
  | write => exact served_calm calm_sysWrite
  | openFile => exact judged_linuxOpen.answering
  | close => exact served_calm calm_sysClose
  | fstat => exact judged_linuxFstat.answering
  | lseek => exact served_calm calm_sysSeek
  | mmap => exact judged_linuxMmap.answering
  | munmap => exact served_calm .pure
  | brk => exact judged_linuxBreak.answering
  | ignored => exact served_calm .pure
  | pread64 => exact served_clean clean_sysRead
  | writev => exact (needs_linuxWritev f.rsi.toNat_lt).answering
  | nanosleep => exact needs_linuxNanosleep.answering
  | getpid => exact served_calm .read
  | uname => exact served_clean clean_linuxUname
  | getcwd => exact served_clean clean_linuxGetcwd
  | getppid => exact served_calm .pure
  | archPrctl => exact needs_linuxArchPrctl.answering
  | setTidAddress => exact served_calm .read
  | clockGettime => exact needs_linuxClockGettime.answering
  | exitGroup => exact served_sysExit
  | getrandom => exact served_clean clean_linuxGetrandom

-- Numbers that are in no table are answered ENOSYS.
def CallSafe (env : Env φ) (k : Kernel φ) (f : Frame) : Prop :=
  if k.linux then ∀ call, Linux.ofNumber f.rax.toNat = some call → call.Safe env k f
  else ∀ call, Native.ofNumber f.rax.toNat = some call → call.Safe env k f

def CallProper (k : Kernel φ) (f : Frame) : Prop :=
  k.linux → ∀ call, Linux.ofNumber f.rax.toNat = some call → call.Proper k f

theorem forall_some_iff {γ : Type} {o : Option γ} {a : γ} {P : γ → Prop} (h : o = some a) : P a ↔ ∀ b, o = some b → P b := by
  subst h
  exact ⟨fun hp b hb => by cases hb; exact hp, fun hp => hp a rfl⟩

theorem served_linuxDispatch : Served (linuxDispatch env f) k
    (∀ call, Linux.ofNumber f.rax.toNat = some call → call.Safe env k f)
    (∀ call, Linux.ofNumber f.rax.toNat = some call → call.Proper k f) := by
  unfold linuxDispatch
  match hn : Linux.ofNumber f.rax.toNat with
  | none =>
    have ⟨h1, h2⟩ := @Served.of_calm φ k _ (Calm.pure (a := f.answer (err enosys)))
    exact ⟨h1.trans (iff_of_true trivial nofun), h2.trans (iff_of_true trivial nofun)⟩
  | some call =>
    have ⟨h1, h2⟩ := call.served env k f
    exact ⟨h1.trans (forall_some_iff rfl), h2.trans (forall_some_iff rfl)⟩

theorem served_nativeDispatch : Served (nativeDispatch env f) k
    (∀ call, Native.ofNumber f.rax.toNat = some call → call.Safe env k f) True := by
  unfold nativeDispatch
  match hn : Native.ofNumber f.rax.toNat with
  | none =>
    have ⟨h1, h2⟩ := @Served.of_calm φ k _ (Calm.pure (a := f.answer (err enosys)))
    exact ⟨h1.trans (iff_of_true trivial nofun), h2⟩
  | some call =>
    have ⟨h1, h2⟩ := call.served env k f
    exact ⟨h1.trans (forall_some_iff rfl), h2⟩

theorem served_dispatch : Served (dispatch env f) k (CallSafe env k f) (CallProper k f) := by
  have hread : (dispatch env f).run k = (if k.linux then linuxDispatch env f else nativeDispatch env f).run k := rfl
  unfold CallSafe CallProper
  cases hl : k.linux with
  | true =>
    rw [hl, if_pos rfl] at hread
    obtain ⟨h1, h2⟩ := @served_linuxDispatch φ k env f
    rw [if_pos rfl, forall_prop_of_true rfl]
    exact ⟨by rwa [Prog.Panics, hread], by rwa [Prog.Ensures, hread]⟩
  | false =>
    rw [hl, if_neg Bool.false_ne_true] at hread
    obtain ⟨h1, h2⟩ := @served_nativeDispatch φ k env f
    rw [if_neg Bool.false_ne_true]
    exact ⟨by rwa [Prog.Panics, hread], by rw [Prog.Ensures, hread]; exact h2.trans (iff_of_true trivial (by rintro ⟨⟩))⟩

theorem dispatch_confined_iff : (dispatch env f).Ensures k (Confined k) ↔ CallProper k f := served_dispatch.proper

theorem dispatch_not_panics_iff : ¬(dispatch env f).Panics k ↔ CallSafe env k f := served_dispatch.safe

section

-- A system without files, programs and input.
def bareVfs : Vfs φ where
  openPath _ s := (.error .notFound, s)
  readAt _ _ _ s := (([], .error .notFound), s)
  writeAt _ _ _ s := (.error .notFound, s)
  mkdir _ s := (.error .notFound, s)
  list _ s := (.error .notFound, s)
  list2 _ s := (.error .notFound, s)
  stat _ s := (.error .notFound, s)
  unlink _ s := (.error .notFound, s)
  rename _ _ s := (.error .notFound, s)
  fsync _ s := (.error .notFound, s)
  filled := Nat.zero_le _
  read := nofun
  written := nofun

def bareEnv : Env φ where
  vfs := bareVfs
  spawn _ _ s := (.error "no program", s)
  paging := true
  serialWrite b s := (b.length, s)
  consoleBytes _ s := s
  takeLine _ s := ([], s)
  drain _ s := ([], s)
  tryReap _ _ s := (none, s)
  childWaitable _ _ _ := false
  kill _ s := (false, s)
  recordExit _ _ s := s
  sleepCurrent _ _ s := s
  flush s := s
  lspci s := s
  perf s := s
  msSinceBoot _ := 0
  nowNs _ := 0
  bootSod _ := 0
  wakes := []
  serialWritten := Nat.le_refl _
  lineTaken := Nat.zero_le _
  drained := Nat.zero_le _

-- A Linux task; the one page that is there, at 2 MiB, is the kernel's.
def linuxTask (rest : φ) : Kernel φ where
  space := {
    pages := fun p => if p = 0x200 then some ⟨true, false, false⟩ else none
    memory := fun _ => 7
    regions := []
    slots := 0
    linuxMem := []
    nextPid := 2
    tasks := []
    doubled := false }
  fds := []
  rest := rest
  pid := 1
  linux := true
  fsBase := 0
  rng := 1
  touched := []

def callOf (rax rsi : UInt64) : Frame := ⟨rax, 3, rsi, 0, 0, 0, 0⟩

end

-- fstat with its buffer on the kernel's page.
theorem fstat_not_confined : ¬(dispatch bareEnv (callOf 5 0x200000)).Ensures (linuxTask ()) (Confined (linuxTask ())) := by
  have hpage : (linuxTask ()).space.pages (0x200000 / pageSize) = some ⟨true, false, false⟩ := by
    rw [Userspace.pageSize_eq]
    rfl
  have hmapped : (linuxTask ()).space.Mapped (0x200000 / pageSize) := Option.isSome_of_eq_some hpage
  rw [served_dispatch.proper]
  intro hproper
  have hstat : StatProper (linuxTask ()).space 0x200000 := hproper rfl .fstat rfl
  have hfirst := hstat (by decide) (by decide) (by decide) hmapped 0 (by decide) nofun (by decide)
  exact (userPage_iff hpage).mp hfirst rfl

-- open with the first address that is not canonical as its path.
theorem open_panics : (dispatch bareEnv (callOf 2 0x800000000000)).Panics (linuxTask ()) := rfl

end Syscall
