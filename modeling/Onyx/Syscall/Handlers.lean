import Onyx.Syscall.Linux
import Onyx.Syscall.Buffers

-- What the handlers do to memory and whether they panic, for those that never do anything wrong.

open Lib Bytes

namespace Syscall

open Userspace (Space pageSize)
open Errno

variable {φ α β : Type} {k k' k1 : Kernel φ} {env : Env φ}

-- A step that does not panic and at most reads user memory.
structure Peek (k : Kernel φ) (r : Result Blocked α) (k' : Kernel φ) : Prop where
  total : ¬Panics r
  log : Extends false k k'

structure Clean (k : Kernel φ) (r : Result Blocked Nat) (k' : Kernel φ) : Prop where
  total : ¬Panics r
  log : Extends true k k'
  fault : ∀ n, r = .ok n → n % 2 ^ 64 = err efault → Extends false k k'

theorem Clean.of_peek (h : Peek k r k') : Clean k r k' :=
  ⟨h.total, h.log.mono, fun _ _ _ => h.log⟩

theorem Clean.of_small (ht : ¬Panics r) (hl : Extends true k k') (hs : ∀ n, r = .ok n → n < 2 ^ 63) :
    Clean k r k' := by
  refine ⟨ht, hl, fun n hr hn => ?_⟩
  have := hs n hr
  unfold err efault Userspace.negative at hn
  omega

def Calm (p : SysM φ α) : Prop := ∀ k, p.Ensures k (Peek k)

namespace Calm

theorem pure : Calm (Pure.pure a : SysM φ α) := fun _ => ⟨nofun, .refl⟩

theorem fail : Calm (Prog.lift (Lib.fail e) : SysM φ α) := fun _ => ⟨nofun, .refl⟩

theorem read {g : Kernel φ → α} : Calm (Prog.read fun k => .ok (g k)) := fun _ => ⟨nofun, .refl⟩

theorem callOut : Calm (callOut f) := fun _ => ⟨nofun, .of_eq rfl⟩

theorem tellOut : Calm (tellOut f) := fun _ => ⟨nofun, .of_eq rfl⟩

theorem withTaskFds :
    Calm (withTaskFds f : SysM φ α) := fun _ => ⟨nofun, .of_eq rfl⟩

theorem dropFds : Calm (dropFds pid : SysM φ Unit) := fun _ => ⟨nofun, .of_eq rfl⟩

theorem wake {w : Wake φ} : Calm (Prog.modify w.run) := fun k => ⟨nofun, .of_eq (w.kept k).touched⟩

end Calm

theorem Peek.bind {p : SysM φ α} {f : α → SysM φ β} (hp : p.Ensures k (Peek k))
    (hf : ∀ a k', p.run k = (.ok a, k') → (f a).Ensures k' (Peek k')) : (p >>= f).Ensures k (Peek k) := by
  refine hp.with_run.bind (fun a k1 ⟨hrun, hk⟩ => ?_) fun e k1 ⟨_, hk⟩ => ?_
  · exact (hf a k1 hrun).mono fun _ _ h => ⟨h.total, hk.log.trans h.log⟩
  · exact ⟨fun hpanic => hk.total (by cases hpanic; rfl), hk.log⟩

theorem Calm.bind {p : SysM φ α} {f : α → SysM φ β} (hp : Calm p) (hf : ∀ a, Calm (f a)) : Calm (p >>= f) :=
  fun k => Peek.bind (hp k) fun a k' _ => hf a k'

theorem Clean.bind (hp : Calm p)
    (hf : ∀ a k', p.run k = (.ok a, k') → (f a).Ensures k' (Clean k')) : (p >>= f).Ensures k (Clean k) := by
  refine (hp k).with_run.bind (fun a k1 ⟨hrun, hk⟩ => ?_) fun e k1 ⟨_, hk⟩ => ?_
  · exact (hf a k1 hrun).mono fun _ _ h => ⟨h.total, hk.log.mono.trans h.log, fun n hr hn => hk.log.trans (h.fault n hr hn)⟩
  · exact ⟨fun hpanic => hk.total (by cases hpanic; rfl), hk.log.mono, nofun⟩

theorem checkBuf_ensures
    (hbad : len ≠ 0 → ¬UserBuf k.space ptr len write → bad.Ensures k Q)
    (hgood : len = 0 ∨ UserBuf k.space ptr len write → good.Ensures k Q) :
    (checkBuf ptr len write bad good).Ensures k Q := by
  unfold Prog.Ensures
  rw [checkBuf, read_bind_run, userBufOk_eq, lift_ok_bind_run]
  by_cases h : len = 0 ∨ UserBuf k.space ptr len write
  · rw [decide_eq_true h, if_pos rfl]
    exact hgood h
  rw [decide_eq_false h, if_neg Bool.false_ne_true]
  obtain ⟨h1, h2⟩ := not_or.mp h
  exact hbad h1 h2

theorem retry_ensures {attempt : SysM φ (Option α)} {I : Kernel φ → Prop} {P : α → Prop}
    (hatt : ∀ k, I k → attempt.Ensures k fun r k' =>
      ¬Panics r ∧ Extends writes k k' ∧ ∀ o, r = .ok o → I k' ∧ ∀ a, o = some a → P a)
    (hwake : ∀ (w : Wake φ) k, I k → I (w.run k)) (ws : List (Wake φ)) (hk : I k) :
    (retry attempt ws).Ensures k fun r k' => ¬Panics r ∧ Extends writes k k' ∧ ∀ a, r = .ok a → P a := by
  induction ws generalizing k with
  | nil =>
    have h := hatt k hk
    rw [retry]
    refine h.bind (fun o k' ⟨_, hlog, hok⟩ => ?_) fun e k' ⟨ht, hlog, _⟩ => ⟨fun hp => ht (by cases hp; rfl), hlog, nofun⟩
    cases o with
    | none => exact ⟨nofun, hlog, nofun⟩
    | some a => exact ⟨nofun, hlog, fun _ heq => by cases heq; exact (hok _ rfl).2 a rfl⟩
  | cons w ws hi =>
    have h := hatt k hk
    rw [retry]
    refine h.bind (fun o k' ⟨_, hlog, hok⟩ => ?_) fun e k' ⟨ht, hlog, _⟩ => ⟨fun hp => ht (by cases hp; rfl), hlog, nofun⟩
    cases o with
    | none =>
      have ⟨h1, h2, h3⟩ := hi (hwake w k' (hok _ rfl).1)
      exact ⟨h1, hlog.trans (Extends.trans (.of_eq (w.kept k').touched) h2), h3⟩
    | some a => exact ⟨nofun, hlog, fun _ heq => by cases heq; exact (hok _ rfl).2 a rfl⟩

theorem Calm.retry {attempt : SysM φ (Option α)} (h : Calm attempt) (ws : List (Wake φ)) : Calm (retry attempt ws) := by
  intro k
  have hatt : ∀ k, True → attempt.Ensures k fun r k' =>
      ¬Panics r ∧ Extends false k k' ∧ ∀ o, r = .ok o → True ∧ ∀ a : α, o = some a → True :=
    fun k _ => (h k).mono fun _ _ hp => ⟨hp.total, hp.log, fun _ _ => ⟨trivial, fun _ _ => trivial⟩⟩
  exact (retry_ensures hatt (fun _ _ => id) ws trivial).mono fun _ _ ⟨h1, h2, _⟩ => ⟨h1, h2⟩

theorem Calm.park (ws : List (Wake φ)) : Calm (park ws) := by
  cases ws with
  | nil => exact .fail
  | cons w ws => exact .wake

theorem Calm.checkBuf {bad good : SysM φ α} (hbad : Calm bad)
    (hgood : ∀ k, len = 0 ∨ UserBuf k.space ptr len write → good.Ensures k (Peek k)) :
    Calm (checkBuf ptr len write bad good) :=
  fun k => checkBuf_ensures (fun _ _ => hbad k) (hgood k)

theorem Peek.loadUser_bind {f : Bytes → SysM φ β} (h : UserBuf k.space addr len false)
    (hf : ∀ bytes k', bytes.length = len → (f bytes).Ensures k' (Peek k')) : (loadUser addr len >>= f).Ensures k (Peek k) := by
  unfold Prog.Ensures
  rw [bind_run_ok (loadUser_run h)]
  obtain ⟨h1, h2⟩ := hf ((List.range len).map fun i => k.space.memory (addr + i)) (k.touch false addr len) (by simp)
  exact ⟨h1, (Extends.touch h.pages (by rintro ⟨⟩)).trans h2⟩

theorem calm_userPath : Calm (userPath ptr len : SysM φ (Except Nat Text)) := by
  unfold userPath
  split
  · exact .pure
  rename_i h0
  split
  · exact .pure
  refine .checkBuf .pure fun k hb => Peek.loadUser_bind (hb.resolve_left h0) fun bytes k' _ => ?_
  split
  · exact Calm.pure k'
  · exact Calm.pure k'

theorem Calm.withPath (h : ∀ path, Calm (f path)) : Calm (withPath ptr len f) :=
  .bind calm_userPath fun r => match r with
    | .error _ => .pure
    | .ok path => h path

theorem Clean.withPath (h : ∀ path k', (f path).Ensures k' (Clean k')) :
    (withPath ptr len f).Ensures k (Clean k) := by
  refine Clean.bind calm_userPath fun r k' _ => ?_
  cases r with
  | error e => exact Clean.of_peek (Calm.pure k')
  | ok path => exact h path k'

theorem calm_fsAnswer : Calm (fsAnswer call) :=
  .bind .callOut fun r => match r with
    | .ok _ => .pure
    | .error _ => .pure

section descriptors

theorem fdTable_setFdTable : ∀ {l : List TaskFds}, fdTable pid (setFdTable pid fds l) = fds
  | [] => by simp [setFdTable, fdTable]
  | t :: l => by
    rw [setFdTable]
    split
    · simp [fdTable]
    case isFalse h => rw [fdTable, if_neg h, fdTable_setFdTable]

def Kernel.entry (k : Kernel φ) (fd : Nat) : Option FdEntry := ((fdTable k.pid k.fds)[fd]?).join

theorem fdEntry_eq_ok (h : (fdEntry fd : SysM φ (Option FdEntry)).run k = (.ok o, k')) :
    k.entry fd = o ∧ k'.entry fd = o ∧ k'.rest = k.rest ∧ k'.space = k.space := by
  cases h
  exact ⟨rfl, congrArg (fun fds : Vector (Option FdEntry) maxFds => (fds[fd]?).join) fdTable_setFdTable, rfl, rfl⟩

theorem callOut_eq_ok (h : (callOut f).run k = (.ok a, k')) :
    a = (f k.rest).1 ∧ k'.space = k.space ∧ k'.entry = k.entry := by
  cases h
  exact ⟨rfl, rfl, rfl⟩

theorem advance_peek (h : ∀ e, k.entry fd = some e → e.pos + n < 2 ^ 64) :
    (advance fd n : SysM φ Unit).Ensures k (Peek k) := by
  refine Peek.bind (Calm.withTaskFds k) fun o k1 hrun => ?_
  cases o with
  | none => exact Calm.pure k1
  | some e =>
    dsimp only
    rw [checked_of_lt (h e (fdEntry_eq_ok hrun).1), Prog.Ensures, lift_ok_bind_run]
    exact Calm.withTaskFds k1

end descriptors

theorem calm_fdWriteAt {bytes : Bytes} : Calm (fdWriteAt env fd bytes) := by
  intro k
  refine Peek.bind (Calm.withTaskFds k) fun o k1 hrun => ?_
  have ⟨_, hentry, _⟩ := fdEntry_eq_ok hrun
  cases o with
  | none => exact Calm.pure k1
  | some e =>
    refine Peek.bind (Calm.callOut k1) fun r k2 hcall => ?_
    obtain ⟨rfl, _, hkeep⟩ := callOut_eq_ok hcall
    cases hok : (env.vfs.writeAt e.name e.pos bytes k1.rest).1 with
    | error f => exact Calm.pure _
    | ok n =>
      refine Peek.bind (advance_peek fun e' he' => ?_) fun _ k3 _ => Calm.pure k3
      have heq : some e' = some e := he'.symm.trans ((congrFun hkeep fd).trans hentry)
      cases heq
      exact (env.vfs.written hok).2

theorem calm_sysWrite : Calm (sysWrite env fd buf len) := by
  unfold sysWrite
  split
  · exact .pure
  rename_i h0
  refine .checkBuf .pure fun k hb => ?_
  have hb := hb.resolve_left (by omega)
  split
  · refine Peek.loadUser_bind hb fun bytes k' _ => ?_
    exact (Calm.bind .callOut fun n => .bind .tellOut fun _ => .pure) k'
  split
  · exact Peek.loadUser_bind hb fun bytes k' _ => calm_fdWriteAt k'
  · exact Calm.pure k

theorem calm_creates : Calm (creates env path e) := by
  cases e with
  | notFound => exact .bind .callOut fun r => match r with
    | .ok _ => .pure
    | .error _ => .pure
  | _ => exact .pure

theorem calm_sysOpen : Calm (sysOpen env ptr len) := by
  refine .withPath fun path => .bind .callOut fun r => ?_
  cases r with
  | ok _ => exact .withTaskFds
  | error e =>
    refine .bind calm_creates fun b => ?_
    split
    · exact .withTaskFds
    · exact .pure

theorem calm_sysClose : Calm (sysClose fd : SysM φ Nat) := by
  unfold sysClose
  split
  · exact .pure
  · exact .withTaskFds

theorem calm_listBoth : Calm (listBoth env target) :=
  .bind .callOut fun r => match r with
    | .ok _ => .bind .callOut fun _ => .pure
    | .error _ => .pure

theorem calm_sysLs : Calm (sysLs env ptr len) := by
  unfold sysLs
  split
  · exact calm_listBoth
  · exact .withPath fun _ => calm_listBoth

theorem calm_sysSleep : Calm (sysSleep env ns) :=
  .bind .read fun _ => .bind .read fun _ => .bind .tellOut fun _ => .bind (.park _) fun _ => .pure

theorem calm_sysWaitpid : Calm (sysWaitpid env pid) := by
  refine .retry (.bind .read fun self => .bind .callOut fun r => ?_) _
  cases r with
  | some c => exact .pure
  | none =>
    refine .bind .read fun b => ?_
    split
    · exact .pure
    · exact .pure

theorem calm_sysFsync : Calm (sysFsync env fd) := by
  unfold sysFsync
  split
  · exact .pure
  refine .bind .withTaskFds fun e => ?_
  cases e with
  | none => exact .pure
  | some e => exact calm_fsAnswer

theorem calm_sysSeek : Calm (sysSeek env fd offset whence) := by
  have hbase : ∀ e, Calm (seekBase env e whence) := by
    intro e
    unfold seekBase
    split
    · exact .pure
    split
    · exact .pure
    split
    · exact .bind .callOut fun r => match r with
        | .ok _ => .pure
        | .error _ => .pure
    · exact .pure
  have hto : ∀ pos, Calm (seekTo fd pos : SysM φ Nat) := by
    intro pos
    unfold seekTo
    split
    · exact .bind .withTaskFds fun _ => .pure
    · exact .pure
  unfold sysSeek
  split
  · exact .pure
  refine .bind .withTaskFds fun e => ?_
  cases e with
  | none => exact .pure
  | some e =>
    refine .bind (hbase e) fun r => ?_
    cases r with
    | error _ => exact .pure
    | ok base => exact hto _

def Fills (buf room : Nat) (k : Kernel φ) (r : Result Blocked (Option Nat)) (k' : Kernel φ) : Prop :=
  ¬Panics r ∧ Extends true k k' ∧ ∀ o, r = .ok o → UserBuf k'.space buf room true ∧ ∀ n, o = some n → n < 2 ^ 63

theorem fills_store (h : UserBuf k.space buf room true) (hle : data.length ≤ room) :
    (do storeUser buf data; pure (some data.length) : SysM φ (Option Nat)).Ensures k (Fills buf room k) := by
  have hbuf := h.take hle
  unfold Prog.Ensures
  rw [bind_run_ok (storeUser_run hbuf)]
  refine ⟨nofun, .stored hbuf, fun o ho => ?_⟩
  cases ho
  refine ⟨h.stored, fun n hn => ?_⟩
  cases hn
  have := h.high
  unfold userPtrMax at this
  omega

theorem fills_none (h : UserBuf k.space buf room true) (ho : ∀ n, o = some n → n < 2 ^ 63) :
    (pure o : SysM φ (Option Nat)).Ensures k (Fills buf room k) := by
  refine ⟨nofun, .refl, fun o' heq => ?_⟩
  cases heq
  exact ⟨h, ho⟩

theorem fills_callOut {f : φ → Bytes × φ} (hg : ∀ r, (g (f k.rest).1).Ensures { k with rest := r }
    (Fills buf room { k with rest := r })) : (callOut f >>= g).Ensures k (Fills buf room k) := by
  have ⟨h1, h2, h3⟩ := hg (f k.rest).2
  exact ⟨h1, Extends.trans (.of_eq rfl) h2, h3⟩

theorem Clean.retry {attempt : SysM φ (Option Nat)} (h : UserBuf k.space buf room true)
    (hatt : ∀ k, UserBuf k.space buf room true → attempt.Ensures k (Fills buf room k)) (ws : List (Wake φ)) :
    (retry attempt ws).Ensures k (Clean k) := by
  refine (retry_ensures hatt (fun w k hk => ?_) ws h).mono fun r k' ⟨h1, h2, h3⟩ => .of_small h1 h2 h3
  exact hk.of_pages (w.kept k).pages

theorem clean_pure : (pure n : SysM φ Nat).Ensures k (Clean k) := .of_peek (Calm.pure k)

-- Once a handler has begun to write, it does not answer EFAULT any more.
structure Stores (k : Kernel φ) (r : Result Blocked Nat) (k' : Kernel φ) : Prop where
  total : ¬Panics r
  log : Extends true k k'
  answer : ∀ n, r = .ok n → n % 2 ^ 64 ≠ err efault

namespace Stores

theorem clean (h : Stores k r k') : Clean k r k' :=
  ⟨h.total, h.log, fun n hr hn => absurd hn (h.answer n hr)⟩

theorem pure (h : n % 2 ^ 64 ≠ err efault) : (Pure.pure n : SysM φ Nat).Ensures k (Stores k) := by
  refine ⟨nofun, .refl, fun m hm => ?_⟩
  cases hm
  exact h

theorem peek_bind {p : SysM φ α} (hp : p.Ensures k (Peek k))
    (hf : ∀ a k', p.run k = (.ok a, k') → (f a).Ensures k' (Stores k')) : (p >>= f).Ensures k (Stores k) := by
  refine hp.with_run.bind (fun a k1 ⟨hrun, hk⟩ => ?_) fun e k1 ⟨_, hk⟩ => ?_
  · exact (hf a k1 hrun).mono fun _ _ ⟨h1, h2, h3⟩ => ⟨h1, hk.log.mono.trans h2, h3⟩
  · exact ⟨fun hpanic => hk.total (by cases hpanic; rfl), hk.log.mono, nofun⟩

theorem storeUser_bind (h : UserBuf k.space addr data.length true)
    (hf : (f ()).Ensures (k.stored addr data) (Stores (k.stored addr data))) :
    (storeUser addr data >>= f).Ensures k (Stores k) := by
  rw [Prog.Ensures, bind_run_ok (storeUser_run h)]
  exact ⟨hf.total, (Extends.stored h).trans hf.log, hf.answer⟩

theorem writeVolatile_bind (h : UserBuf k.space addr size true) (ha : addr % size = 0)
    (hf : ∀ k', k'.space.pages = k.space.pages → (f ()).Ensures k' (Stores k')) :
    (writeVolatile size addr v >>= f).Ensures k (Stores k) := by
  have hbuf : UserBuf k.space addr (toLe size v).length true := by rwa [length_toLe]
  have ⟨h1, h2, h3⟩ := hf (k.stored addr (toLe size v)) rfl
  rw [Prog.Ensures, bind_run_ok (writeVolatile_run h ha)]
  exact ⟨h1, (Extends.stored hbuf).trans h2, h3⟩

end Stores

theorem small_ne_efault (h : n < 2 ^ 63) : n % 2 ^ 64 ≠ err efault := by
  unfold err efault Userspace.negative
  omega

theorem clean_readFile (hbuf : UserBuf k.space buf len true) (hentry : k.entry fd = some e) :
    (readFile env fd buf len e).Ensures k (Clean k) := by
  refine Clean.bind Calm.callOut fun r k1 hcall => ?_
  obtain ⟨rfl, hspace, hkeep⟩ := callOut_eq_ok hcall
  have hdata : UserBuf k1.space buf (env.vfs.readAt e.name e.pos len k.rest).1.1.length true :=
    hspace ▸ hbuf.take env.vfs.filled
  refine (Stores.storeUser_bind hdata ?_).mono fun _ _ => Stores.clean
  cases hok : (env.vfs.readAt e.name e.pos len k.rest).1.2 with
  | error f => exact Stores.pure (by decide)
  | ok n =>
    have ⟨hle, hsum⟩ := env.vfs.read hok
    have hhigh := hbuf.high
    refine Stores.peek_bind (advance_peek fun e' he' => ?_) fun _ _ _ => Stores.pure (small_ne_efault ?_)
    · have heq : some e' = some e := he'.symm.trans ((congrFun hkeep fd).trans hentry)
      cases heq
      exact hsum
    · unfold userPtrMax at hhigh
      omega

theorem clean_sysRead : (sysRead env fd buf len).Ensures k (Clean k) := by
  unfold sysRead
  split
  · exact clean_pure
  rename_i h0
  split
  · refine checkBuf_ensures (fun _ _ => clean_pure) fun hb => ?_
    have hbuf := hb.resolve_left (by omega)
    refine Clean.retry hbuf (fun k hk => ?_) _
    refine fills_callOut fun r => ?_
    split
    · exact fills_none hk nofun
    · exact fills_store hk env.lineTaken
  · refine Clean.bind Calm.withTaskFds fun o k' hrun => ?_
    cases o with
    | none => exact clean_pure
    | some e =>
      refine checkBuf_ensures (fun _ _ => clean_pure) fun hb => ?_
      exact clean_readFile (hb.resolve_left (by omega)) (fdEntry_eq_ok hrun).2.1

theorem clean_sysInputRead : (sysInputRead env buf len blocking).Ensures k (Clean k) := by
  unfold sysInputRead
  split
  · exact clean_pure
  rename_i h0
  refine checkBuf_ensures (fun _ _ => clean_pure) fun hb => ?_
  have hbuf := hb.resolve_left (by unfold evSize at h0; omega)
  refine Clean.retry hbuf (fun k hk => ?_) _
  refine fills_callOut fun r => ?_
  split
  · refine fills_none hk fun n hn => ?_
    split at hn
    · cases hn
      decide
    · cases hn
  · exact fills_store hk env.drained

theorem length_statBytes : (statBytes st).length = 40 := by
  simp [statBytes, length_toLe]

theorem clean_sysStat : (sysStat env ptr len out).Ensures k (Clean k) := by
  refine Clean.withPath fun path k => checkBuf_ensures (fun _ _ => clean_pure) fun hb => ?_
  have hbuf := hb.resolve_left nofun
  refine Clean.bind Calm.callOut fun r k1 hcall => ?_
  have ⟨_, hspace, _⟩ := callOut_eq_ok hcall
  cases r with
  | error e => exact clean_pure
  | ok st =>
    refine (Stores.storeUser_bind ?_ (Stores.pure (by decide))).mono fun _ _ => Stores.clean
    rw [length_statBytes, hspace]
    exact hbuf

theorem clean_sysSpawn : (sysSpawn env ptr len).Ensures k (Clean k) := by
  refine Clean.withPath fun path k => ?_
  split
  · exact clean_pure
  rename_i prog args _
  refine Clean.of_peek ?_
  unfold spawnFrom
  dsimp only
  split
  · exact ⟨nofun, .of_eq rfl⟩
  · exact ⟨nofun, .of_eq rfl⟩

end Syscall
