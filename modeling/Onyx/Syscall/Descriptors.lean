import Onyx.Syscall.Dispatch
import Onyx.Fat.Image
import Onyx.Fat.Reads

-- The descriptor tables of all tasks under the system calls on files, and what the reads of a descriptor return.

open Lib List

namespace Syscall

open Userspace (Space pageSize)
open Errno

variable {φ α β : Type} {k k' : Kernel φ} {env : Env φ}

def Kernel.slot (k : Kernel φ) (t fd : Nat) : Option FdEntry := ((fdTable t k.fds)[fd]?).join

section tables

theorem fdTable_setFdTable_of_ne (h : t ≠ pid) : ∀ {l : List TaskFds}, fdTable t (setFdTable pid fds l) = fdTable t l
  | [] => by simp [setFdTable, fdTable, h.symm]
  | u :: l => by
    rw [setFdTable]
    split
    case isTrue hu => simp [fdTable, hu, h.symm]
    case isFalse hu => rw [fdTable, fdTable, fdTable_setFdTable_of_ne h]

theorem fdTable_drop (h : t ≠ pid) : ∀ {l : List TaskFds}, fdTable t (l.filter (·.id ≠ pid)) = fdTable t l
  | [] => rfl
  | u :: l => by
    by_cases hu : u.id = pid
    · rw [filter_cons_of_neg (by simpa using hu), fdTable_drop h, fdTable, if_neg (hu ▸ h.symm)]
    · rw [filter_cons_of_pos (by simpa using hu), fdTable, fdTable, fdTable_drop h]

end tables

section spared

-- What a program leaves alone: the descriptors that `S`, given the caller, names.
structure Spares (S : Nat → Nat → Nat → Prop) (k : Kernel φ) (_ : Bool) (k' : Kernel φ) : Prop where
  pid : k'.pid = k.pid
  slot : ∀ {t fd}, S k.pid t fd → k'.slot t fd = k.slot t fd

variable {S : Nat → Nat → Nat → Prop}

instance : Transit (Spares (φ := φ) S) where
  refl := ⟨rfl, fun _ => rfl⟩
  trans := fun h1 h2 => ⟨h2.pid.trans h1.pid, fun hs => (h2.slot (h1.pid.symm ▸ hs)).trans (h1.slot hs)⟩

theorem spares_of_fds (hp : ∀ k, (g k).2.pid = k.pid)
    (hf : ∀ k, (g k).2.fds = k.fds) : (⟨g⟩ : SysM φ α).Within (Spares S) :=
  fun k => ⟨hp k, fun _ => by simp [Kernel.slot, hf]⟩

theorem spares_callOut : (callOut f).Within (Spares S) := spares_of_fds (fun _ => rfl) fun _ => rfl

theorem spares_tellOut : (tellOut f).Within (Spares S) := spares_of_fds (fun _ => rfl) fun _ => rfl

theorem spares_inSpace : (inSpace p : SysM φ α).Within (Spares S) :=
  spares_of_fds (fun _ => rfl) fun _ => rfl

theorem spares_touch : (Prog.modify (·.touch write addr len) : SysM φ Unit).Within (Spares S) :=
  spares_of_fds (fun _ => rfl) fun _ => rfl

theorem spares_loadUser : (loadUser addr len : SysM φ Bytes).Within (Spares S) :=
  .bind spares_touch fun _ => .read_bind fun _ => .read

theorem spares_storeUser : (storeUser addr data : SysM φ Unit).Within (Spares S) :=
  .bind spares_touch fun _ => spares_inSpace

theorem spares_checkBuf (hb : bad.Within (Spares S)) (hg : good.Within (Spares S)) :
    (checkBuf ptr len write bad good).Within (Spares S) := by
  refine .read_bind fun ok => ?_
  cases ok with
  | false => exact hb
  | true => exact hg

theorem spares_withTaskFds
    (h : ∀ k : Kernel φ, ∀ {fd}, S k.pid k.pid fd → ((f (fdTable k.pid k.fds)).2[fd]?).join = k.slot k.pid fd) :
    (withTaskFds f : SysM φ α).Within (Spares S) := by
  refine fun k => ⟨rfl, fun {t fd} hs => ?_⟩
  show ((fdTable t (setFdTable k.pid _ k.fds))[fd]?).join = _
  by_cases ht : t = k.pid
  · subst ht
    rw [fdTable_setFdTable]
    exact h k hs
  · rw [fdTable_setFdTable_of_ne ht, Kernel.slot]

theorem spares_fdEntry : (fdEntry fd : SysM φ (Option FdEntry)).Within (Spares S) :=
  spares_withTaskFds fun _ _ _ => rfl

theorem spares_userPath : (userPath ptr len : SysM φ (Except Nat Text)).Within (Spares S) := by
  rw [userPath]
  split_ifs
  · exact .pure
  · exact .pure
  refine spares_checkBuf .pure (.bind spares_loadUser fun bytes => ?_)
  split
  · exact .pure
  · exact .pure

theorem spares_creates : (creates env path e).Within (Spares S) := by
  cases e with
  | notFound =>
    refine .bind spares_callOut fun r => ?_
    cases r <;> exact .pure
  | _ => exact .pure

-- All descriptors but one of the caller's.
def Others (fd : Nat) (p t fd' : Nat) : Prop := t ≠ p ∨ fd' ≠ fd

theorem spares_setPos : (setPos fd pos : SysM φ Unit).Within (Spares (Others fd)) := by
  refine spares_withTaskFds fun k fd' hs => ?_
  have hne : fd' ≠ fd := hs.resolve_left (not_not_intro rfl)
  split
  · rw [Vector.getElem?_setIfInBounds_ne hne.symm]
    rfl
  · rfl

theorem spares_advance : (advance fd n : SysM φ Unit).Within (Spares (Others fd)) := by
  refine .bind spares_fdEntry fun o => ?_
  cases o with
  | none => exact .pure
  | some e => exact .lift_bind fun _ => spares_setPos

theorem spares_sysWrite : (sysWrite env fd buf len).Within (Spares (Others fd)) := by
  rw [sysWrite]
  split
  · exact .pure
  refine spares_checkBuf .pure ?_
  split_ifs
  · exact .bind spares_loadUser fun _ => .bind spares_callOut fun _ => .bind spares_tellOut fun _ => .pure
  · refine .bind spares_loadUser fun bytes => .bind spares_fdEntry fun o => ?_
    cases o with
    | none => exact .pure
    | some e =>
      refine .bind spares_callOut fun r => ?_
      cases r with
      | error _ => exact .pure
      | ok n => exact .bind spares_advance fun _ => .pure
  · exact .pure

theorem spares_sysSeek : (sysSeek env fd offset whence).Within (Spares (Others fd)) := by
  rw [sysSeek]
  split_ifs
  · exact .pure
  refine .bind spares_fdEntry fun o => ?_
  cases o with
  | none => exact .pure
  | some e =>
    refine .bind ?_ fun base => ?_
    · rw [seekBase]
      split_ifs
      · exact .pure
      · exact .pure
      · refine .bind spares_callOut fun r => ?_
        cases r <;> exact .pure
      · exact .pure
    · cases base with
      | error _ => exact .pure
      | ok base =>
        by_cases hp : 0 ≤ base + signed offset ∧ base + signed offset < 2 ^ 63
        · simp only [seekTo, hp]
          exact .bind spares_setPos fun _ => .pure
        · simp only [seekTo, hp]
          exact .pure

theorem spares_sysClose : (sysClose fd : SysM φ Nat).Within (Spares (Others fd)) := by
  rw [sysClose]
  split_ifs
  · exact .pure
  refine spares_withTaskFds fun k fd' hs => ?_
  have hne : fd' ≠ fd := hs.resolve_left (not_not_intro rfl)
  split
  · rw [Vector.getElem?_setIfInBounds_ne hne.symm]
    rfl
  · rfl

theorem spares_sysRead (hw : env.wakes = []) : (sysRead env fd buf len).Within (Spares (Others fd)) := by
  rw [sysRead]
  split_ifs
  · exact .pure
  · rw [hw, retry]
    refine spares_checkBuf .pure (.bind (.bind spares_callOut fun line => ?_) fun o => ?_)
    · split_ifs
      · exact .pure
      · exact .bind spares_storeUser fun _ => .pure
    · cases o with
      | none => exact .lift
      | some n => exact .pure
  · refine .bind spares_fdEntry fun o => ?_
    cases o with
    | none => exact .pure
    | some e =>
      refine spares_checkBuf .pure (.bind spares_callOut fun r => .bind spares_storeUser fun _ => ?_)
      split
      · exact .bind spares_advance fun _ => .pure
      · exact .pure

end spared

section opening

-- What an open does to the tables: a free descriptor of the caller is taken, or none.
structure Opened (k : Kernel φ) (r : Result Blocked Nat) (k' : Kernel φ) : Prop where
  pid : k'.pid = k.pid
  kept : ∀ {t fd}, t ≠ k.pid ∨ (k.slot t fd).isSome → k'.slot t fd = k.slot t fd
  fresh : ∀ n, r = .ok n → n < 2 ^ 63 → 3 ≤ n ∧ n < maxFds ∧ k.slot k.pid n = none ∧ ∃ path, k'.slot k.pid n = some ⟨path, 0⟩

def All (_ _ _ : Nat) : Prop := True

theorem Opened.after (h : Spares All k c k1) (ho : Opened k1 r k') : Opened k r k' where
  pid := ho.pid.trans h.pid
  kept := fun {t fd} hs => by
    have hk : k1.slot t fd = k.slot t fd := h.slot trivial
    rw [← hk] at hs ⊢
    exact ho.kept (h.pid ▸ hs)
  fresh := fun n hr hn => by
    have ⟨h1, h2, h3, path, h4⟩ := ho.fresh n hr hn
    rw [h.pid] at h3 h4
    exact ⟨h1, h2, (h.slot trivial).symm.trans h3, path, h4⟩

theorem Opened.nothing (h : Spares All k c k') (hr : ∀ n, r = .ok n → 2 ^ 63 ≤ n) : Opened k r k' where
  pid := h.pid
  kept := fun _ => h.slot trivial
  fresh := fun n hn hlt => absurd hlt (not_lt.mpr (hr n hn))

theorem Opened.bind {p : SysM φ α} (hp : p.Within (Spares All))
    (hf : ∀ a k1, p.run k = (.ok a, k1) → (f a).Ensures k1 (Opened k1)) : (p >>= f).Ensures k (Opened k) := by
  refine .bind (Q := fun r k1 => p.run k = (r, k1)) rfl (fun a k1 hr => ?_) fun e k1 hr => ?_
  · exact (hf a k1 hr).mono fun _ _ ho => .after (hp.of_run hr) ho
  · exact .nothing (hp.of_run hr) nofun

theorem Opened.failed (h : 2 ^ 63 ≤ n) : (pure n : SysM φ Nat).Ensures k (Opened k) :=
  .nothing (c := false) ⟨rfl, fun _ => rfl⟩ fun m hm => by cases hm; exact h

theorem firstFree_eq_some (h : firstFree fds = some i) :
    3 ≤ i ∧ i < maxFds ∧ (fds[i]?).join = none := by
  have hmem := mem_of_find?_eq_some h
  have hnone := find?_some h
  rw [mem_range'_1] at hmem
  exact ⟨hmem.1, by simp only [maxFds] at hmem ⊢; omega, by simpa using hnone⟩

theorem slot_setFdTable : Kernel.slot { k with fds := setFdTable k.pid fds k.fds } t fd =
    if t = k.pid then (fds[fd]?).join else k.slot t fd := by
  unfold Kernel.slot
  split_ifs with ht
  · rw [ht, fdTable_setFdTable]
  · rw [fdTable_setFdTable_of_ne ht]

theorem allocFd_opened (path : Text) : (allocFd path : SysM φ Nat).Ensures k (Opened k) := by
  unfold Prog.Ensures allocFd withTaskFds
  dsimp only
  cases hi : firstFree (fdTable k.pid k.fds) with
  | none =>
    refine .nothing (c := false) ⟨rfl, fun {t fd} _ => ?_⟩ fun n hn => ?_
    · rw [slot_setFdTable]
      split_ifs with ht
      · rw [ht, Kernel.slot]
      · rfl
    · cases hn
      exact err_ge (by decide)
  | some i =>
    have ⟨hlow, hhigh, hfree⟩ := firstFree_eq_some hi
    refine ⟨rfl, fun {t fd} hs => ?_, fun n hn _ => ?_⟩
    · rw [slot_setFdTable]
      split_ifs with ht
      · have hne : i ≠ fd := by
          rintro rfl
          have hsome := hs.resolve_left (not_not_intro ht)
          rw [ht, Kernel.slot, hfree] at hsome
          cases hsome
        rw [Vector.getElem?_setIfInBounds_ne hne, ht, Kernel.slot]
      · rfl
    · cases hn
      refine ⟨hlow, hhigh, hfree, path, ?_⟩
      rw [slot_setFdTable, if_pos rfl, Vector.getElem?_setIfInBounds_self, if_pos hhigh]
      rfl

theorem fsErr_ge : 2 ^ 63 ≤ fsErr e := by
  cases e <;> exact err_ge (by decide)

theorem checkPath_error (h : checkPath path = .error e) : 2 ^ 63 ≤ e := by
  unfold checkPath at h
  split_ifs at h <;> cases h <;> exact err_ge (by decide)

theorem userPath_error (h : (userPath ptr len : SysM φ (Except Nat Text)).run k = (.ok (.error e), k')) : 2 ^ 63 ≤ e := by
  rw [userPath] at h
  split at h
  · cases h
    exact err_ge (by decide)
  split at h
  · cases h
    exact err_ge (by decide)
  rcases checkBuf_eq_ok h with h | h
  · cases h
    exact err_ge (by decide)
  have ⟨bytes, k1, _, h⟩ := bind_eq_ok.mp h
  split at h
  · cases h
    exact err_ge (by decide)
  · exact checkPath_error (Except.ok.inj (congrArg Prod.fst h))

theorem sysOpen_opened : (sysOpen env ptr len).Ensures k (Opened k) := by
  refine Opened.bind spares_userPath fun r k1 hr => ?_
  cases r with
  | error e => exact Opened.failed (userPath_error hr)
  | ok path =>
    refine Opened.bind spares_callOut fun r k2 _ => ?_
    cases r with
    | ok _ => exact allocFd_opened path
    | error e =>
      refine Opened.bind spares_creates fun made k3 _ => ?_
      cases made with
      | true => exact allocFd_opened path
      | false => exact Opened.failed fsErr_ge

theorem spares_cstrLen : (linuxCstrLen left n p : SysM φ (Option Nat)).Within (Spares S) := by
  induction left generalizing n p with
  | zero => exact .pure
  | succ left hi =>
    refine .lift_bind fun _ => .read_bind fun o => ?_
    cases o with
    | none => exact .pure
    | some _ =>
      refine .bind (.lift_bind fun _ => .bind spares_loadUser fun _ => .pure) fun b => ?_
      split_ifs
      · exact .pure
      · exact .lift_bind fun _ => hi

theorem linuxOpen_opened : (linuxOpen env path).Ensures k (Opened k) := by
  rw [linuxOpen]
  split_ifs
  · exact Opened.failed (err_ge (by decide))
  refine Opened.bind spares_cstrLen fun o k1 _ => ?_
  cases o with
  | none => exact Opened.failed (err_ge (by decide))
  | some l => exact sysOpen_opened

end opening

section reading

structure View (vfs : Vfs φ) where
  content : Text → φ → Bytes
  read : ∀ {path off len s n}, (vfs.readAt path off len s).1.2 = .ok n →
    n ≤ (vfs.readAt path off len s).1.1.length ∧ (vfs.readAt path off len s).1.1.take n <+: (content path s).drop off

def View.ofFat {vfs : Vfs φ} (vol : φ → Fat32 × AtaDrive) (hp : ∀ s, 0 < (vol s).1.clusterBytes)
    (hr : ∀ {path off len s n}, (vfs.readAt path off len s).1.2 = .ok n → n = (vfs.readAt path off len s).1.1.length ∧
      (vol s).1.readAt (vol s).2 path off len = .ok (vfs.readAt path off len s).1.1) : View vfs where
  content path s := (vol s).1.fileBytes (vol s).2 path
  read {path off len s n} h := by
    have ⟨hn, hread⟩ := hr h
    rw [hn, take_length]
    exact ⟨le_refl _, (Fat32.readAt_within (hp s) hread).1⟩

def Kernel.bytesAt (k : Kernel φ) (addr n : Nat) : Bytes := (range n).map fun i => k.space.memory (addr + i)

theorem bytesAt_stored (h : n ≤ data.length) : (k.stored addr data).bytesAt addr n = data.take n := by
  apply ext_getElem?
  intro i
  by_cases hi : i < n
  · have hlt : i < data.length := by omega
    simp [Kernel.bytesAt, Kernel.stored, Space.setMemory, hi, hlt]
  · rw [getElem?_eq_none (by simp [Kernel.bytesAt]; omega), getElem?_eq_none (by simp; omega)]

structure Advanced (view : View env.vfs) (fd buf : Nat) (e : FdEntry) (k : Kernel φ) (r : Result Blocked Nat) (k' : Kernel φ) :
    Prop where
  returned : ∀ n, r = .ok n → n < 2 ^ 63 → k'.slot k.pid fd = some { e with pos := e.pos + n } ∧
    k'.bytesAt buf n <+: (view.content e.name k.rest).drop e.pos
  failed : (∀ n, r = .ok n → 2 ^ 63 ≤ n) → k'.slot k.pid fd = some e

theorem Advanced.unread (hs : k'.slot k.pid fd = some e) (hn : 2 ^ 63 ≤ n) :
    Advanced view fd buf e k (.ok n) k' where
  returned := fun m hm hlt => by
    cases hm
    omega
  failed := fun _ => hs

theorem fdEntry_run : (fdEntry fd : SysM φ (Option FdEntry)).run k =
    (.ok (k.entry fd), { k with fds := setFdTable k.pid (fdTable k.pid k.fds) k.fds }) :=
  rfl

theorem lt_of_slot (h : k.slot t fd = some e) : fd < maxFds := by
  by_contra hn
  rw [Kernel.slot, Vector.getElem?_eq_none (by omega)] at h
  cases h

theorem advance_run (he : k.entry fd = some e) (hn : e.pos + n < 2 ^ 64) :
    ∃ k', (advance fd n : SysM φ Unit).run k = (.ok (), k') ∧ k'.slot k.pid fd = some { e with pos := e.pos + n } ∧
      k'.space = k.space ∧ k'.rest = k.rest ∧ k'.pid = k.pid := by
  have hslot : k.slot k.pid fd = some e := he
  have hlt := lt_of_slot hslot
  rw [advance, bind_run_ok fdEntry_run, he]
  simp only [checked_of_lt hn, lift_ok_bind_run]
  have hfds : ((fdTable k.pid (setFdTable k.pid (fdTable k.pid k.fds) k.fds))[fd]?).join = some e := by
    rw [fdTable_setFdTable]
    exact he
  simp only [setPos, withTaskFds, hfds]
  refine ⟨_, rfl, ?_, rfl, rfl, rfl⟩
  simp only [Kernel.slot, fdTable_setFdTable]
  rw [Vector.getElem?_setIfInBounds_self, if_pos hlt]
  rfl

theorem readFile_advanced (view : View env.vfs) (he : k.slot k.pid fd = some e) (hbuf : UserBuf k.space buf len true) :
    (readFile env fd buf len e).Ensures k (Advanced view fd buf e k) := by
  have hdata : UserBuf k.space buf (env.vfs.readAt e.name e.pos len k.rest).1.1.length true := hbuf.take env.vfs.filled
  have hcall : (callOut (env.vfs.readAt e.name e.pos len)).run k =
      (.ok (env.vfs.readAt e.name e.pos len k.rest).1, { k with rest := (env.vfs.readAt e.name e.pos len k.rest).2 }) := rfl
  have hview {n : Nat} (h : (env.vfs.readAt e.name e.pos len k.rest).1.2 = .ok n) := view.read h
  have hsum {n : Nat} (h : (env.vfs.readAt e.name e.pos len k.rest).1.2 = .ok n) := env.vfs.read h
  generalize env.vfs.readAt e.name e.pos len k.rest = r at hdata hcall hview hsum
  obtain ⟨⟨data, res⟩, s'⟩ := r
  have hstore : (storeUser buf data).run { k with rest := s' } = _ := storeUser_run hdata
  rw [Prog.Ensures, readFile, bind_run_ok hcall, bind_run_ok hstore]
  cases res with
  | error f => exact .unread he (err_ge (by decide))
  | ok n =>
    obtain ⟨hlen, hpre⟩ := hview rfl
    have hentry : (Kernel.stored { k with rest := s' } buf data).entry fd = some e := he
    obtain ⟨k', hadv, hslot, hspace, _⟩ := advance_run hentry (hsum rfl).2
    simp only
    rw [bind_run_ok hadv]
    refine ⟨fun m hm _ => ?_, fun hn => ?_⟩
    · cases hm
      refine ⟨hslot, ?_⟩
      have hb : k'.bytesAt buf n = data.take n := by
        rw [Kernel.bytesAt, hspace]
        exact bytesAt_stored hlen
      exact hb ▸ hpre
    · have hhigh := hbuf.high
      have := hn n rfl
      have := (hsum rfl).1
      unfold userPtrMax at hhigh
      omega

theorem sysRead_advanced (view : View env.vfs) (hfd : fd ≠ 0) (he : k.slot k.pid fd = some e) :
    (sysRead env fd buf len).Ensures k (Advanced view fd buf e k) := by
  rw [sysRead]
  by_cases hlen : len = 0
  case pos =>
    rw [if_pos hlen]
    refine ⟨fun n hn _ => ?_, fun hn => absurd (hn 0 rfl) (by decide)⟩
    cases hn
    exact ⟨he, nil_prefix⟩
  rw [if_neg hlen, if_neg hfd, Prog.Ensures, bind_run_ok fdEntry_run, show k.entry fd = some e from he]
  have hslot : Kernel.slot { k with fds := setFdTable k.pid (fdTable k.pid k.fds) k.fds } k.pid fd = some e := by
    rw [slot_setFdTable, if_pos rfl]
    exact he
  refine checkBuf_ensures (fun _ _ => .unread hslot (err_ge (by decide))) fun hb => ?_
  refine (readFile_advanced view hslot (hb.resolve_left (by omega))).mono fun r k' h => ?_
  exact ⟨h.returned, h.failed⟩

end reading

section runs

inductive FileCall
  | openFile (ptr len : Nat)
  | linuxOpen (path : Nat)
  | read (fd buf len : Nat)
  | write (fd buf len : Nat)
  | seek (fd offset whence : Nat)
  | close (fd : Nat)
  | exit (code : UInt64)
  | kill (pid : UInt64)
  deriving DecidableEq

def argument (rdi : UInt64) : Frame := ⟨0, rdi, 0, 0, 0, 0, 0⟩

def FileCall.exec (env : Env φ) : FileCall → SysM φ Nat
  | openFile ptr len => sysOpen env ptr len
  | linuxOpen path => Syscall.linuxOpen env path
  | read fd buf len => sysRead env fd buf len
  | write fd buf len => sysWrite env fd buf len
  | seek fd offset whence => sysSeek env fd offset whence
  | close fd => sysClose fd
  | exit code => do
    let f ← sysExit env (argument code)
    pure f.rax.toNat
  | kill pid => do
    let f ← sysKill env (argument pid)
    pure f.rax.toNat

structure Event where
  task : Nat
  call : FileCall

def Env.unwoken (env : Env φ) : Env φ := { env with wakes := [] }

def Event.run (env : Env φ) (e : Event) (k : Kernel φ) : Result Blocked Nat × Kernel φ :=
  (e.call.exec env.unwoken).run { k with pid := e.task }

variable {e : Event} {t fd : Nat}

theorem slot_dropFds (h : t ≠ pid) : ((dropFds pid).run k).2.slot t fd = k.slot t fd := by
  show ((fdTable t (k.fds.filter (·.id ≠ pid)))[fd]?).join = _
  rw [fdTable_drop h, Kernel.slot]

theorem slot_sysExit (h : t ≠ k.pid) : ((sysExit env f).run k).2.slot t fd = k.slot t fd :=
  slot_dropFds h

theorem slot_sysKill (ht : t ≠ f.rdi.toNat) : ((sysKill env f).run k).2.slot t fd = k.slot t fd := by
  have hcall : (callOut (env.kill f.rdi.toNat)).run k = (.ok (env.kill f.rdi.toNat k.rest).1, _) := rfl
  rw [sysKill, read_bind_run, lift_ok_bind_run]
  split_ifs with hself
  · exact slot_dropFds (hself ▸ ht)
  rw [bind_run_ok hcall]
  cases (env.kill f.rdi.toNat k.rest).1 with
  | false => rfl
  | true => exact slot_dropFds ht

theorem run_answer {p : SysM φ Frame} : ((do let f ← p; pure f.rax.toNat : SysM φ Nat).run k).2 = (p.run k).2 := by
  match hp : p.run k with
  | (.ok f, k1) => rw [bind_run_ok hp]; rfl
  | (.error e, k1) => rw [bind_run_error hp]

theorem Event.isolated (ht : t ≠ e.task) (hk : ∀ p, e.call = .kill p → t ≠ p.toNat) :
    (e.run env k).2.slot t fd = k.slot t fd := by
  obtain ⟨task, call⟩ := e
  cases call with
  | openFile ptr len => exact (sysOpen_opened (k := { k with pid := task })).kept (.inl ht)
  | linuxOpen path => exact (linuxOpen_opened (k := { k with pid := task })).kept (.inl ht)
  | read fd buf len => exact (spares_sysRead rfl { k with pid := task }).slot (.inl ht)
  | write fd buf len => exact (spares_sysWrite { k with pid := task }).slot (.inl ht)
  | seek fd offset whence => exact (spares_sysSeek { k with pid := task }).slot (.inl ht)
  | close fd => exact (spares_sysClose { k with pid := task }).slot (.inl ht)
  | exit code =>
    show Kernel.slot (Prog.run _ _).2 t fd = _
    rw [FileCall.exec, run_answer]
    exact slot_sysExit (k := { k with pid := task }) ht
  | kill p =>
    show Kernel.slot (Prog.run _ _).2 t fd = _
    rw [FileCall.exec, run_answer]
    exact slot_sysKill (k := { k with pid := task }) (hk p rfl)

-- Nothing but reads is done with the descriptor, and its task goes on.
def Event.Leaves (t fd : Nat) (e : Event) : Prop :=
  match e.call with
  | .write fd' _ _ => ¬(e.task = t ∧ fd' = fd)
  | .seek fd' _ _ => ¬(e.task = t ∧ fd' = fd)
  | .close fd' => ¬(e.task = t ∧ fd' = fd)
  | .exit _ => e.task ≠ t
  | .kill p => p.toNat ≠ t
  | _ => True

-- The bytes that the event has returned if it is a read of the descriptor.
def Event.returned (env : Env φ) (t fd : Nat) (e : Event) (k : Kernel φ) : Bytes :=
  match e.call, (e.run env k).1 with
  | .read fd' buf _, .ok n => if e.task = t ∧ fd' = fd ∧ n < 2 ^ 63 then (e.run env k).2.bytesAt buf n else []
  | _, _ => []

def FdEntry.moved (o : FdEntry) (n : Nat) : FdEntry := { o with pos := o.pos + n }

theorem moved_moved (o : FdEntry) : (o.moved m).moved n = o.moved (m + n) := by
  simp [FdEntry.moved, add_assoc]

theorem Event.kept (ho : k.slot t fd = some o) (hl : e.Leaves t fd)
    (hr : ∀ buf len, e.call = .read fd buf len → e.task ≠ t) : (e.run env k).2.slot t fd = k.slot t fd := by
  by_cases ht : t = e.task
  case neg =>
    refine e.isolated ht fun p hp => ?_
    rw [Event.Leaves, hp] at hl
    exact hl.symm
  case pos =>
    obtain ⟨task, call⟩ := e
    subst ht
    have hsome : ((Kernel.slot { k with pid := t } t fd)).isSome := by
      rw [show Kernel.slot { k with pid := t } t fd = some o from ho]
      rfl
    cases call with
    | openFile ptr len => exact (sysOpen_opened (k := { k with pid := t })).kept (.inr hsome)
    | linuxOpen path => exact (linuxOpen_opened (k := { k with pid := t })).kept (.inr hsome)
    | read fd' buf len =>
      refine (spares_sysRead rfl { k with pid := t }).slot (.inr ?_)
      rintro rfl
      exact hr buf len rfl rfl
    | write fd' buf len => exact (spares_sysWrite { k with pid := t }).slot (.inr fun h => hl ⟨rfl, h.symm⟩)
    | seek fd' offset whence => exact (spares_sysSeek { k with pid := t }).slot (.inr fun h => hl ⟨rfl, h.symm⟩)
    | close fd' => exact (spares_sysClose { k with pid := t }).slot (.inr fun h => hl ⟨rfl, h.symm⟩)
    | exit code => exact absurd rfl hl
    | kill p =>
      show Kernel.slot (Prog.run _ _).2 t fd = _
      rw [FileCall.exec, run_answer]
      exact slot_sysKill (k := { k with pid := t }) (Ne.symm hl)

theorem Event.returned_eq_nil (h : ∀ buf len, e.call = .read fd buf len → e.task ≠ t) : e.returned env t fd k = [] := by
  unfold Event.returned
  split
  case h_2 => rfl
  case h_1 fd' buf len n hcall _ =>
    rw [if_neg]
    rintro ⟨rfl, rfl, _⟩
    exact h buf len hcall rfl

theorem length_bytesAt : (k.bytesAt addr n).length = n := by
  simp [Kernel.bytesAt]

theorem Event.cursor (view : View env.vfs) (hfd : fd ≠ 0) (ho : k.slot t fd = some o) (hl : e.Leaves t fd) :
    (e.run env k).2.slot t fd = some (o.moved (e.returned env t fd k).length) ∧
      e.returned env t fd k <+: (view.content o.name k.rest).drop o.pos := by
  by_cases hread : ∃ buf len, e.call = .read fd buf len ∧ e.task = t
  case neg =>
    have hr : ∀ buf len, e.call = .read fd buf len → e.task ≠ t := fun buf len hc ht => hread ⟨buf, len, hc, ht⟩
    rw [e.kept ho hl hr, e.returned_eq_nil hr]
    exact ⟨ho, nil_prefix⟩
  case pos =>
    obtain ⟨buf, len, hcall, rfl⟩ := hread
    obtain ⟨task, call⟩ := e
    subst hcall
    let unwoken : View env.unwoken.vfs := view
    have hadv : (sysRead env.unwoken fd buf len).Ensures { k with pid := task } _ := sysRead_advanced unwoken hfd ho
    have hrun : Event.run env ⟨task, .read fd buf len⟩ k = (sysRead env.unwoken fd buf len).run { k with pid := task } := rfl
    match hr : (sysRead env.unwoken fd buf len).run { k with pid := task } with
    | (.error f, k') =>
      rw [Event.returned, hrun, hr]
      exact ⟨(hadv.of_run hr).failed nofun, nil_prefix⟩
    | (.ok n, k') =>
      rw [Event.returned, hrun, hr]
      dsimp only
      by_cases hn : n < 2 ^ 63
      · rw [if_pos ⟨rfl, rfl, hn⟩, length_bytesAt]
        exact (hadv.of_run hr).returned n rfl hn
      rw [if_neg fun h => hn h.2.2]
      refine ⟨(hadv.of_run hr).failed fun m hm => ?_, nil_prefix⟩
      cases hm
      exact not_lt.mp hn

def runAll (env : Env φ) (es : List Event) (k : Kernel φ) : Kernel φ := es.foldl (fun k e => (e.run env k).2) k

def readBytes (env : Env φ) (t fd : Nat) : List Event → Kernel φ → Bytes
  | [], _ => []
  | e :: es, k => e.returned env t fd k ++ readBytes env t fd es (e.run env k).2

def Unmodified (view : View env.vfs) (path : Text) (file : Bytes) : List Event → Kernel φ → Prop
  | [], k => view.content path k.rest = file
  | e :: es, k => view.content path k.rest = file ∧ Unmodified view path file es (e.run env k).2

theorem append_prefix_drop {l b1 b2 : Bytes} (h1 : b1 <+: l.drop p) (h2 : b2 <+: l.drop (p + b1.length)) :
    b1 ++ b2 <+: l.drop p := by
  obtain ⟨rest, hrest⟩ := h1
  rw [← drop_drop, ← hrest, drop_left] at h2
  rw [← hrest]
  exact (prefix_append_right_inj b1).mpr h2

-- The induction is on the run; the cursor after the first event is where the rest goes on.
theorem cursor_run (view : View env.vfs) (hfd : fd ≠ 0) :
    ∀ {es k o}, k.slot t fd = some o → (∀ e ∈ es, e.Leaves t fd) → Unmodified view o.name file es k →
      (runAll env es k).slot t fd = some (o.moved (readBytes env t fd es k).length) ∧
        readBytes env t fd es k <+: file.drop o.pos
  | [], _, _, ho, _, _ => ⟨ho, nil_prefix⟩
  | e :: es, k, o, ho, hl, hu => by
    have ⟨hslot, hpre⟩ := e.cursor view hfd ho (hl e (.head _))
    have hl' : ∀ e' ∈ es, e'.Leaves t fd := fun e' he => hl e' (.tail _ he)
    have ⟨hend, hrest⟩ := cursor_run view hfd hslot hl' hu.2
    rw [hu.1] at hpre
    refine ⟨?_, append_prefix_drop hpre hrest⟩
    rw [readBytes, length_append, ← moved_moved]
    exact hend

def FileCall.Opens : FileCall → Prop
  | openFile _ _ => True
  | linuxOpen _ => True
  | _ => False

theorem Event.opened (ho : e.call.Opens) (hr : (e.run env k).1 = .ok n) (hn : n < 2 ^ 63) :
    3 ≤ n ∧ n < maxFds ∧ k.slot e.task n = none ∧ ∃ path, (e.run env k).2.slot e.task n = some ⟨path, 0⟩ := by
  obtain ⟨task, call⟩ := e
  cases call with
  | openFile ptr len => exact (sysOpen_opened (k := { k with pid := task })).fresh n hr hn
  | linuxOpen path => exact (linuxOpen_opened (k := { k with pid := task })).fresh n hr hn
  | _ => exact absurd ho id

theorem descriptors_isolated (env : Env φ) (view : View env.vfs) (k : Kernel φ) :
    (∀ (e : Event) (t fd : Nat), t ≠ e.task → (∀ p, e.call = .kill p → t ≠ p.toNat) →
      (e.run env k).2.slot t fd = k.slot t fd) ∧
    (∀ (e : Event) (n : Nat), e.call.Opens → (e.run env k).1 = .ok n → n < 2 ^ 63 →
      3 ≤ n ∧ n < maxFds ∧ k.slot e.task n = none ∧ ∃ path, (e.run env k).2.slot e.task n = some ⟨path, 0⟩) ∧
    (∀ (es : List Event) (t fd : Nat) (o : FdEntry) (file : Bytes), fd ≠ 0 → k.slot t fd = some o →
      (∀ e ∈ es, e.Leaves t fd) → Unmodified view o.name file es k →
      (runAll env es k).slot t fd = some (o.moved (readBytes env t fd es k).length) ∧
        readBytes env t fd es k <+: file.drop o.pos) :=
  ⟨fun _ _ _ => Event.isolated, fun _ _ => Event.opened, fun _ _ _ _ _ hfd => cursor_run view hfd⟩

-- The files of a FAT32 volume that is mounted at the root.
def fatVfs (v : Fat32) (hp : 0 < v.clusterBytes) : Vfs AtaDrive :=
  { bareVfs with
    openPath := fun path d => (match v.resolve d path with
      | .ok (some _) => .ok ()
      | _ => .error .notFound, d)
    readAt := fun path off len d => match v.readAt d path off len with
      | .ok b => if off + b.length < 2 ^ 64 then ((b, .ok b.length), d) else (([], .error .notSupported), d)
      | .error _ => (([], .error .notFound), d)
    filled := by
      intro path off len d
      split
      case h_1 b hb =>
        split_ifs
        · exact (Fat32.readAt_within hp hb).2
        · exact Nat.zero_le _
      case h_2 => exact Nat.zero_le _
    read := by
      intro path off len d n h
      split at h
      case h_1 b hb =>
        split_ifs at h with hoff
        cases h
        exact ⟨(Fat32.readAt_within hp hb).2, hoff⟩
      case h_2 => cases h }

def fatView (v : Fat32) (hp : 0 < v.clusterBytes) : View (fatVfs v hp) :=
  .ofFat (fun d => (v, d)) (fun _ => hp) fun {path off len d n} h => by
    dsimp only [fatVfs] at h ⊢
    split at h
    case h_1 b hb =>
      split_ifs at h with hoff
      cases h
      rw [if_pos hoff]
      exact ⟨rfl, hb⟩
    case h_2 => cases h

-- A volume with one file, which task 1 has open at 1 while task 2 runs beside it.
def oneFile : Bytes := [10, 20, 30, 40, 50]

def oneFileDrive : AtaDrive :=
  Fat32.small.image (Fat32.smallVol [0, 0, Fat32.eoc, Fat32.eoc] [Fat.packSlot (70 :: .replicate 10 32) Fat.attrArchive 3 5 .zero]
    fun _ => oneFile ++ .replicate 507 0)

def oneFileEnv : Env AtaDrive := { bareEnv with vfs := fatVfs Fat32.small (by decide) }

def reader : Kernel AtaDrive :=
  { linuxTask oneFileDrive with
    space := { (linuxTask oneFileDrive).space with
      pages := fun p => if p = 0x200 then some ⟨true, true, false⟩ else none
      memory := fun a => if a = 0x200800 then 47 else 70 }
    fds := [⟨1, .mk #[none, none, none, some ⟨"/F".toList, 1⟩, none, none, none, none] rfl⟩] }

-- Task 1 reads two bytes, task 2 opens a file and reads it, task 1 reads the rest.
def turns : List Event :=
  [⟨1, .read 3 0x200000 2⟩, ⟨2, .openFile 0x200800 2⟩, ⟨2, .read 3 0x200100 4⟩, ⟨1, .read 3 0x200010 9⟩]

theorem turns_isolated : readBytes oneFileEnv 1 3 turns reader = [20, 30, 40, 50] ∧
    (runAll oneFileEnv turns reader).slot 1 3 =
      some ((⟨"/F".toList, 1⟩ : FdEntry).moved (readBytes oneFileEnv 1 3 turns reader).length) ∧
    readBytes oneFileEnv 1 3 turns reader <+: oneFile.drop 1 := by
  have hread := (descriptors_isolated oneFileEnv (fatView Fat32.small (by decide)) reader).2.2 turns 1 3
  refine ⟨by decide +kernel, hread ⟨"/F".toList, 1⟩ oneFile (by decide) rfl ?_ ?_⟩
  · simp [turns, Event.Leaves]
  · exact ⟨by decide +kernel, by decide +kernel, by decide +kernel, by decide +kernel,
      (by decide +kernel : Fat32.small.fileBytes (runAll oneFileEnv turns reader).rest "/F".toList = oneFile)⟩

end runs

end Syscall
