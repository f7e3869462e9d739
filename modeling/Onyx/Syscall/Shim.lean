import Onyx.Syscall.Handlers

-- The handlers of the Linux table, and exactly when those that can panic do so.

open Lib List

namespace Syscall

open Userspace (Space pageSize)
open Errno

variable {φ α β : Type} {k k' k1 : Kernel φ} {env : Env φ}

structure Needs (p : SysM φ Nat) (k : Kernel φ) (cond : Prop) : Prop where
  clean : cond → p.Ensures k (Clean k)
  panic : ¬cond → p.Ensures k fun r k' => Panics r ∧ Extends false k k'

theorem Needs.of_clean (h : p.Ensures k (Clean k)) : Needs p k True :=
  ⟨fun _ => h, fun hn => absurd trivial hn⟩

theorem Needs.of_calm (h : Calm p) : Needs p k True :=
  .of_clean ((h k).mono fun _ _ => .of_peek)

theorem Needs.checkBuf {good : SysM φ Nat} {cond : Prop} (hlen : len ≠ 0)
    (h : UserBuf k.space ptr len write → Needs good k cond) :
    Needs (checkBuf ptr len write (pure n) good) k (UserBuf k.space ptr len write → cond) where
  clean hc := by
    refine checkBuf_ensures (fun _ _ => clean_pure) fun hb => ?_
    have hbuf := hb.resolve_left hlen
    exact (h hbuf).clean (hc hbuf)
  panic hc := by
    have ⟨hbuf, hn⟩ := Classical.not_imp.mp hc
    exact checkBuf_ensures (fun _ hbad => absurd hbuf hbad) fun _ => (h hbuf).panic hn

theorem misaligned_read (h : addr % size ≠ 0) :
    (readVolatile size addr >>= f).run k = (.error .panic, k) := by
  have hr : require (addr % size = 0 ∧ addr ≠ 0) = (.error .panic : Result Blocked Unit) := if_neg fun hc => h hc.1
  refine bind_run_error ?_
  rw [readVolatile, hr]
  rfl

theorem misaligned_write (h : addr % size ≠ 0) :
    (writeVolatile size addr v >>= f).run k = (.error .panic, k) := by
  have hr : require (addr % size = 0 ∧ addr ≠ 0) = (.error .panic : Result Blocked Unit) := if_neg fun hc => h hc.1
  refine bind_run_error ?_
  rw [writeVolatile, hr]
  rfl

theorem Peek.readVolatile_bind {f : Nat → SysM φ β} (h : UserBuf k.space addr size false) (ha : addr % size = 0)
    (hf : ∀ v k', k'.space = k.space → (f v).Ensures k' (Peek k')) :
    (readVolatile size addr >>= f).Ensures k (Peek k) := by
  obtain ⟨v, hrun⟩ := readVolatile_run h ha
  obtain ⟨h1, h2⟩ := hf v (k.touch false addr size) rfl
  unfold Prog.Ensures
  rw [bind_run_ok hrun]
  exact ⟨h1, (Extends.touch h.pages (by rintro ⟨⟩)).trans h2⟩

theorem needs_linuxNanosleep : Needs (linuxNanosleep env req) k (UserBuf k.space req 16 false → req % 8 = 0) := by
  refine .checkBuf nofun fun hbuf => ⟨fun ha => ?_, fun ha => ?_⟩
  · refine Prog.Ensures.mono ?_ fun _ _ => Clean.of_peek
    refine Peek.readVolatile_bind (hbuf.take (by decide)) ha fun sec k1 h1 => ?_
    refine Peek.readVolatile_bind (h1 ▸ hbuf.sub (by decide)) (by omega) fun nsec k2 _ => ?_
    exact calm_sysSleep k2
  · rw [Prog.Ensures, misaligned_read ha]
    exact ⟨rfl, .refl⟩

theorem clean_linuxGetcwd : (linuxGetcwd buf size : SysM φ Nat).Ensures k (Clean k) := by
  unfold linuxGetcwd
  split
  · exact clean_pure
  refine checkBuf_ensures (fun _ _ => clean_pure) fun hb => ?_
  have hbuf := hb.resolve_left nofun
  refine Prog.Ensures.mono ?_ fun _ _ => Stores.clean
  refine Stores.writeVolatile_bind (hbuf.take (by decide)) (Nat.mod_one _) fun k1 h1 => ?_
  refine Stores.writeVolatile_bind (hbuf.of_pages (h1 ▸ id) |>.sub (by decide)) (Nat.mod_one _) fun k2 _ => ?_
  exact Stores.pure (by decide)

theorem length_randomBytes (n : Nat) (s : UInt64) : (randomBytes n s).1.length = n := by
  induction n generalizing s with
  | zero => rfl
  | succ n hi => simp [randomBytes, hi]

theorem clean_linuxGetrandom : (linuxGetrandom buf len : SysM φ Nat).Ensures k (Clean k) := by
  unfold linuxGetrandom
  split
  · exact clean_pure
  rename_i h0
  refine checkBuf_ensures (fun _ _ => clean_pure) fun hb => ?_
  have hbuf := hb.resolve_left h0
  refine Prog.Ensures.mono ?_ fun _ _ => Stores.clean
  unfold Prog.Ensures
  rw [read_bind_run, lift_ok_bind_run]
  refine Stores.storeUser_bind ?_ ?_
  · rw [length_randomBytes]
    exact hbuf
  · refine Stores.peek_bind ⟨nofun, .of_eq rfl⟩ fun _ _ _ => Stores.pure (small_ne_efault ?_)
    omega

theorem putName_run (h : UserBuf k.space buf room true) (hf : field.1 + field.2.toUTF8.data.toList.length ≤ room) :
    (putName buf () field : SysM φ Unit).run k = (.ok (), k.stored (buf + field.1) field.2.toUTF8.data.toList) := by
  have hsum : buf + field.1 < 2 ^ 64 := by
    have := h.high
    unfold userPtrMax at this
    omega
  rw [putName, checked_of_lt hsum, lift_ok_bind_run]
  exact storeUser_run (h.sub hf)

theorem putNames_run {fields : List (Nat × String)} (h : UserBuf k.space buf room true)
    (hf : ∀ f ∈ fields, f.1 + f.2.toUTF8.data.toList.length ≤ room) :
    ∃ k', (fields.foldlM (putName buf) () : SysM φ Unit).run k = (.ok (), k') ∧ Extends true k k' := by
  induction fields generalizing k with
  | nil => exact ⟨k, rfl, .refl⟩
  | cons f fields hi =>
    have hone := hf f (mem_cons_self ..)
    obtain ⟨k', hrun, hlog⟩ := hi h.stored fun f' hmem => hf f' (mem_cons_of_mem _ hmem)
    refine ⟨k', ?_, (Extends.stored (h.sub hone)).trans hlog⟩
    rw [foldlM_cons, bind_run_ok (putName_run h hone), hrun]

theorem clean_linuxUname : (linuxUname buf : SysM φ Nat).Ensures k (Clean k) := by
  refine checkBuf_ensures (fun _ _ => clean_pure) fun hb => ?_
  have hbuf := hb.resolve_left nofun
  refine Prog.Ensures.mono ?_ fun _ _ => Stores.clean
  refine Stores.storeUser_bind (by rwa [length_replicate]) ?_
  have hroom : ∀ f ∈ utsname, f.1 + f.2.toUTF8.data.toList.length ≤ 6 * 65 := by decide
  obtain ⟨k', hrun, hlog⟩ := putNames_run (hbuf.stored : UserBuf (k.stored buf (replicate (6 * 65) 0)).space buf (6 * 65) true) hroom
  unfold Prog.Ensures
  rw [bind_run_ok hrun]
  refine ⟨nofun, hlog, fun n hn => ?_⟩
  cases hn
  decide

def wallNs (env : Env φ) (k : Kernel φ) : Nat := env.bootSod k.rest * 1000000000 + env.nowNs k.rest

theorem realtimeNs_of_lt (h : wallNs env k < 2 ^ 64) : realtimeNs env k.rest = .ok (wallNs env k) := by
  have h1 : env.bootSod k.rest * 1000000000 < 2 ^ 64 := Nat.lt_of_le_of_lt (Nat.le_add_right ..) h
  rw [realtimeNs, checked_of_lt h1, ok_bind]
  exact checked_of_lt h

theorem realtimeNs_of_not_lt (h : ¬wallNs env k < 2 ^ 64) : realtimeNs env k.rest = .error .panic := by
  by_cases h1 : env.bootSod k.rest * 1000000000 < 2 ^ 64
  · rw [realtimeNs, checked_of_lt h1, ok_bind]
    exact checked_of_not_lt h
  · rw [realtimeNs, checked_of_not_lt h1]
    rfl

theorem sysGettime_run (h : clock = 1 → wallNs env k < 2 ^ 64) : ∃ t, (sysGettime env clock).run k = (.ok t, k) := by
  unfold sysGettime
  split
  · exact ⟨_, rfl⟩
  split
  · rename_i h1
    rw [Prog.read_run, realtimeNs_of_lt (h h1)]
    exact ⟨_, rfl⟩
  · exact ⟨_, rfl⟩

theorem sysGettime_panic (h : ¬(clock = 1 → wallNs env k < 2 ^ 64)) : (sysGettime env clock).run k = (.error .panic, k) := by
  have ⟨hc, hbig⟩ := Classical.not_imp.mp h
  rw [sysGettime, if_neg (by omega), if_pos hc, Prog.read_run, realtimeNs_of_not_lt hbig]

theorem needs_sysGettime : Needs (sysGettime env clock) k (clock = 1 → wallNs env k < 2 ^ 64) where
  clean hc := by
    obtain ⟨t, hrun⟩ := sysGettime_run hc
    unfold Prog.Ensures
    rw [hrun]
    exact .of_peek ⟨nofun, .refl⟩
  panic hc := by
    unfold Prog.Ensures
    rw [sysGettime_panic hc]
    exact ⟨rfl, .refl⟩

theorem needs_linuxClockGettime : Needs (linuxClockGettime env clk out) k
    (UserBuf k.space out 16 true → (clk = 0 → wallNs env k < 2 ^ 64) ∧ out % 8 = 0) := by
  have hclock : (clk = 0 → wallNs env k < 2 ^ 64) ↔ ((if clk = 0 then 1 else 0) = 1 → wallNs env k < 2 ^ 64) := by
    split <;> simp_all
  refine .checkBuf nofun fun hbuf => ⟨fun ⟨hwall, ha⟩ => ?_, fun hbad => ?_⟩
  · obtain ⟨t, hrun⟩ := sysGettime_run (hclock.mp hwall)
    refine Prog.Ensures.mono ?_ fun _ _ => Stores.clean
    rw [Prog.Ensures, bind_run_ok hrun]
    refine Stores.writeVolatile_bind (hbuf.take (by decide)) ha fun k2 h2 => ?_
    refine Stores.writeVolatile_bind (hbuf.of_pages (h2 ▸ id) |>.sub (by decide)) (by omega) fun k3 _ => ?_
    exact Stores.pure (by decide)
  · by_cases hwall : clk = 0 → wallNs env k < 2 ^ 64
    · have ha : out % 8 ≠ 0 := fun ha => hbad ⟨hwall, ha⟩
      obtain ⟨t, hrun⟩ := sysGettime_run (hclock.mp hwall)
      rw [Prog.Ensures, bind_run_ok hrun, misaligned_write ha]
      exact ⟨rfl, .refl⟩
    · rw [Prog.Ensures, bind_run_error (sysGettime_panic (mt hclock.mpr hwall))]
      exact ⟨rfl, .refl⟩

theorem clean_setFsBase : (setFsBase addr : SysM φ Nat).Ensures k (Clean k) :=
  .of_peek ⟨nofun, .of_eq rfl⟩

theorem needs_linuxArchPrctl : Needs (linuxArchPrctl code addr : SysM φ Nat) k
    (code = archGetFs → UserBuf k.space addr 8 true → addr % 8 = 0) := by
  by_cases hget : code = archGetFs
  · have hset : ¬code = archSetFs := by rw [hget]; decide
    rw [linuxArchPrctl, if_neg hset, if_pos hget, forall_prop_of_true hget]
    refine .checkBuf nofun fun hbuf => ⟨fun ha => ?_, fun ha => ?_⟩
    · refine Prog.Ensures.mono ?_ fun _ _ => Stores.clean
      rw [Prog.Ensures, read_bind_run, lift_ok_bind_run]
      exact Stores.writeVolatile_bind hbuf ha fun k1 _ => Stores.pure (by decide)
    · rw [Prog.Ensures, read_bind_run, lift_ok_bind_run, misaligned_write ha]
      exact ⟨rfl, .refl⟩
  · refine ⟨fun _ => ?_, fun hbad => absurd (fun h => absurd h hget) hbad⟩
    unfold linuxArchPrctl
    split
    · split
      · exact clean_setFsBase
      · exact checkBuf_ensures (fun _ _ => clean_pure) fun _ => clean_setFsBase
    · exact clean_pure

section writev

theorem checkBuf_eq_ok (h : (checkBuf ptr len write bad good).run k = (.ok a, k')) :
    bad.run k = (.ok a, k') ∨ good.run k = (.ok a, k') := by
  have ⟨ok, _, hrun⟩ := read_bind_eq_ok.mp h
  split at hrun
  · exact .inr hrun
  · exact .inl hrun

theorem length_of_loadUser (h : (loadUser addr len : SysM φ Bytes).run k = (.ok bytes, k')) : bytes.length = len := by
  have ⟨_, k1, _, h1⟩ := bind_eq_ok.mp h
  have ⟨_, _, h2⟩ := read_bind_eq_ok.mp h1
  cases h2
  simp

theorem err_ge (h : e ≤ 2 ^ 63) : 2 ^ 63 ≤ err e := by
  unfold err Userspace.negative
  omega

theorem fdWriteAt_answer (h : (fdWriteAt env fd bytes).run k = (.ok n, k')) :
    n ≤ bytes.length ∨ 2 ^ 63 ≤ n := by
  have ⟨o, k1, _, h1⟩ := bind_eq_ok.mp h
  cases o with
  | none =>
    cases h1
    exact .inr (err_ge (by decide))
  | some e =>
    have ⟨r, k2, hcall, h2⟩ := bind_eq_ok.mp h1
    have hr := (callOut_eq_ok hcall).1
    cases r with
    | error f =>
      cases h2
      exact .inr (err_ge (by decide))
    | ok m =>
      have ⟨_, k3, _, h3⟩ := bind_eq_ok.mp h2
      cases h3
      exact .inl (env.vfs.written hr.symm).1

theorem sysWrite_answer (h : (sysWrite env fd buf len).run k = (.ok n, k')) : n ≤ 4096 ∨ 2 ^ 63 ≤ n := by
  unfold sysWrite at h
  split at h
  · cases h
    exact .inl (by decide)
  rcases checkBuf_eq_ok h with h | h
  · cases h
    exact .inr (err_ge (by decide))
  split at h
  · have ⟨bytes, k1, hload, h1⟩ := bind_eq_ok.mp h
    have ⟨m, k2, hcall, h2⟩ := bind_eq_ok.mp h1
    have hm : m ≤ bytes.length := (callOut_eq_ok hcall).1 ▸ env.serialWritten
    have hlen := length_of_loadUser hload
    cases h2
    exact .inl (by omega)
  · split at h
    · have ⟨bytes, k1, hload, h1⟩ := bind_eq_ok.mp h
      have hlen := length_of_loadUser hload
      exact (fdWriteAt_answer h1).imp_left fun hle => by omega
    · cases h
      exact .inr (err_ge (by decide))

theorem iovec_aligned (ha : iovs % 8 = 0) (hbuf : UserBuf s (iovec iovs i) 16 false) : iovec iovs i % 8 = 0 := by
  have hhigh := hbuf.high
  unfold iovec userPtrMax at *
  split
  · omega
  rename_i hbig
  rw [if_neg hbig] at hhigh
  omega

theorem calm_writevLoop (ha : iovs % 8 = 0) : ∀ {left i total}, i + left ≤ 64 → total ≤ i * 4096 →
    Calm (writevLoop env fd iovs left i total)
  | 0, _, _, _, _ => .pure
  | left + 1, i, total, hleft, hsum => by
    refine .checkBuf .pure fun k hb => ?_
    have hbuf := hb.resolve_left nofun
    have hrec := iovec_aligned ha hbuf
    refine Peek.readVolatile_bind (hbuf.take (by decide)) hrec fun base k1 h1 => ?_
    refine Peek.readVolatile_bind (h1 ▸ hbuf.sub (by decide)) (by omega) fun len k2 _ => ?_
    split
    · have hnext : total ≤ (i + 1) * 4096 := Nat.le_trans hsum (Nat.mul_le_mul_right _ (Nat.le_succ i))
      exact calm_writevLoop ha (by omega) hnext k2
    refine Peek.bind (calm_sysWrite k2) fun r k3 hrun => ?_
    split
    · exact Calm.pure k3
    rename_i hr
    have hle := (sysWrite_answer hrun).resolve_right hr
    have hlt : total + r < 2 ^ 64 := by omega
    have hnext : total + r ≤ (i + 1) * 4096 := by omega
    rw [checked_of_lt hlt, Prog.Ensures, lift_ok_bind_run]
    exact calm_writevLoop ha (by omega) hnext k3

theorem needs_linuxWritev (hreg : iovs < 2 ^ 64) : Needs (linuxWritev env fd iovs cnt) k
    (cnt ≠ 0 → UserBuf k.space iovs 16 false → iovs % 8 = 0) := by
  have hfirst : iovec iovs 0 = iovs := if_pos (by omega)
  unfold linuxWritev
  match hm : min cnt 64 with
  | 0 => exact ⟨fun _ => clean_pure, fun hbad => absurd (fun h => absurd h (by omega)) hbad⟩
  | left + 1 =>
    have hcnt : cnt ≠ 0 := by omega
    rw [forall_prop_of_true hcnt]
    by_cases ha : iovs % 8 = 0
    · have hcalm : Calm (writevLoop env fd iovs (left + 1) 0 0) := calm_writevLoop ha (by omega) (Nat.zero_le _)
      exact ⟨fun _ => (hcalm k).mono fun _ _ => .of_peek, fun hbad => absurd (fun _ => ha) hbad⟩
    -- The first record is misaligned: it is refused by the check, or it panics.
    rw [writevLoop, hfirst]
    refine .checkBuf nofun fun _ => ⟨fun hc => absurd hc ha, fun _ => ?_⟩
    rw [Prog.Ensures, misaligned_read ha]
    exact ⟨rfl, .refl⟩

end writev

end Syscall
