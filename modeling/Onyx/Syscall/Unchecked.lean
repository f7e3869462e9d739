import Onyx.Syscall.Shim

-- The two helpers of the Linux table that only ask whether a page is there.

open Lib List Bytes Option

namespace Syscall

open Userspace (Space pageSize Canonical)
open Errno

variable {φ α β : Type} {k k' k1 : Kernel φ} {env : Env φ} {s : Space}

theorem extends_of_touch (hlog : (k.touch write addr len).touched <+: k'.touched) :
    Extends writes k k' ↔ ((∀ i, i < len → UserPage k.space.pages write ((addr + i) / pageSize)) ∧ (write → writes)) ∧
      Extends writes (k.touch write addr len) k' := by
  constructor
  · rintro ⟨new, heq, hnew⟩
    obtain ⟨rest, hrest⟩ := hlog
    have hsplit : new = ⟨addr, len, write, k.space.pages⟩ :: rest := by
      have := hrest.trans heq
      rw [Kernel.touch, append_assoc] at this
      exact (append_cancel_left this).symm
    have hfirst := hnew ⟨addr, len, write, k.space.pages⟩ (hsplit ▸ mem_cons_self ..)
    exact ⟨hfirst, rest, hrest.symm, fun a ha => hnew a (hsplit ▸ mem_cons_of_mem _ ha)⟩
  · rintro ⟨⟨hpage, hw⟩, hrest⟩
    exact (Extends.touch hpage hw).trans hrest

theorem Extends.congr (h : k1.touched = k.touched) : Extends writes k1 k' ↔ Extends writes k k' := by
  unfold Extends
  rw [h]

theorem Extends.before (h : Extends writes k k') (h1 : k.touched <+: k1.touched) (h2 : k1.touched <+: k'.touched) :
    Extends writes k k1 := by
  obtain ⟨new, heq, hnew⟩ := h
  obtain ⟨first, hfirst⟩ := h1
  obtain ⟨rest, hrest⟩ := h2
  have hsplit : new = first ++ rest := by
    rw [heq, ← hfirst, append_assoc] at hrest
    exact (append_cancel_left hrest).symm
  exact ⟨first, hfirst.symm, fun a ha => hnew a (hsplit ▸ mem_append_left _ ha)⟩

theorem not_extends_of_write (hlog : (k.touch true addr len).touched <+: k'.touched) : ¬Extends false k k' := by
  intro h
  cases ((extends_of_touch hlog).mp h).1.2 rfl

-- A fact about every byte that is reached: the first, and then those after it.
theorem reached_succ {P Q : Nat → Prop} : (∀ i, i < left + 1 → (∀ j, j < i → Q (p + j)) → P (p + i)) ↔
    P p ∧ (Q p → ∀ i, i < left → (∀ j, j < i → Q (p + 1 + j)) → P (p + 1 + i)) := by
  have hshift : ∀ i, p + (i + 1) = p + 1 + i := fun i => by omega
  constructor
  · refine fun h => ⟨h 0 (by omega) nofun, fun h0 i hi hq => ?_⟩
    rw [← hshift]
    refine h (i + 1) (by omega) fun j hj => ?_
    cases j with
    | zero => exact h0
    | succ j =>
      rw [hshift]
      exact hq j (by omega)
  · rintro ⟨h0, h⟩ i hi hq
    cases i with
    | zero => exact h0
    | succ i =>
      rw [hshift]
      refine h (hq 0 (by omega)) i (by omega) fun j hj => ?_
      rw [← hshift]
      exact hq (j + 1) (by omega)

section path

-- The string goes on at this address: the page is there and the byte is not NUL.
def GoesOn (s : Space) (q : Nat) : Prop := Canonical q ∧ s.Mapped (q / pageSize) ∧ s.memory q ≠ 0

theorem cstr_noncanonical (hc : ¬Canonical p) : (linuxCstrLen (left + 1) n p : SysM φ (Option Nat)).run k = (.error .panic, k) := by
  have hr : require (Canonical p) = (.error .panic : Result Blocked Unit) := if_neg hc
  rw [linuxCstrLen, hr]
  rfl

theorem cstr_absent (hc : Canonical p) (hm : ¬k.space.Mapped (p / pageSize)) :
    (linuxCstrLen (left + 1) n p : SysM φ (Option Nat)).run k = (.ok none, k) := by
  have hnone : k.space.pages (p / pageSize) = none := not_isSome_iff_eq_none.mp hm
  rw [linuxCstrLen, require_eq_ok.mpr hc, lift_ok_bind_run, read_bind_run, hnone, lift_ok_bind_run]
  rfl

theorem readByte_run (hp : p ≠ 0) (hm : k.space.Mapped (p / pageSize)) :
    (readVolatile 1 p : SysM φ Nat).run k = (.ok (k.space.memory p).toNat, k.touch false p 1) := by
  have hload : (loadUser p 1 : SysM φ Bytes).run k = (.ok [k.space.memory p], k.touch false p 1) := by
    refine loadUser_of_mapped fun i hi => ?_
    rwa [Nat.lt_one_iff.mp hi]
  rw [readVolatile, require_eq_ok.mpr ⟨Nat.mod_one p, hp⟩, lift_ok_bind_run, bind_run_ok hload]
  rfl

theorem cstr_present (hc : Canonical p) (hm : k.space.Mapped (p / pageSize)) (hp : p ≠ 0) (h64 : p + 1 < 2 ^ 64) :
    (linuxCstrLen (left + 1) n p : SysM φ (Option Nat)).run k =
      if k.space.memory p = 0 then (.ok (some n), k.touch false p 1)
      else (linuxCstrLen left (n + 1) (p + 1)).run (k.touch false p 1) := by
  obtain ⟨f, hf⟩ := isSome_iff_exists.mp hm
  rw [linuxCstrLen, require_eq_ok.mpr hc, lift_ok_bind_run, read_bind_run, hf, lift_ok_bind_run]
  dsimp only
  rw [bind_run_ok (readByte_run hp hm), checked_of_lt h64]
  have hzero : (k.space.memory p).toNat = 0 ↔ k.space.memory p = 0 :=
    ⟨fun h => UInt8.toNat_inj.mp h, fun h => by rw [h]; rfl⟩
  by_cases h : k.space.memory p = 0
  · rw [if_pos h, if_pos (hzero.mpr h)]
    rfl
  · rw [if_neg h, if_neg (mt hzero.mp h)]
    rfl

theorem cstr_logged (hp : p ≠ 0) (h64 : p + left < 2 ^ 64) :
    k.touched <+: ((linuxCstrLen left n p : SysM φ (Option Nat)).run k).2.touched := by
  induction left generalizing n p k with
  | zero => exact prefix_rfl
  | succ left hi =>
    have hlog : k.touched <+: (k.touch false p 1).touched := prefix_append ..
    by_cases hc : Canonical p
    · by_cases hm : k.space.Mapped (p / pageSize)
      · rw [cstr_present hc hm hp (by omega)]
        split
        · exact hlog
        · exact hlog.trans (hi (by omega) (by omega))
      · simp [cstr_absent hc hm]
    · simp [cstr_noncanonical hc]

theorem not_panics_linuxCstrLen (hp : p ≠ 0) (h64 : p + left < 2 ^ 64) :
    ¬(linuxCstrLen left n p : SysM φ (Option Nat)).Panics k ↔
      ∀ i, i < left → (∀ j, j < i → GoesOn k.space (p + j)) → Canonical (p + i) := by
  induction left generalizing n p k with
  | zero => exact iff_of_true nofun nofun
  | succ left hi =>
    rw [reached_succ]
    by_cases hc : Canonical p
    · by_cases hm : k.space.Mapped (p / pageSize)
      · have hnext := @hi (k.touch false p 1) (p + 1) (n + 1) (by omega) (by omega)
        unfold Prog.Panics
        rw [cstr_present hc hm hp (by omega)]
        split
        · rename_i h0
          exact iff_of_true nofun ⟨hc, fun h => absurd h0 h.2.2⟩
        · rename_i h0
          exact hnext.trans ⟨fun h => ⟨hc, fun _ => h⟩, fun h => h.2 ⟨hc, hm, h0⟩⟩
      · unfold Prog.Panics
        rw [cstr_absent hc hm]
        exact iff_of_true nofun ⟨hc, fun h => absurd h.2.1 hm⟩
    · unfold Prog.Panics
      rw [cstr_noncanonical hc]
      exact iff_of_false (not_not_intro rfl) fun h => hc h.1

theorem extends_linuxCstrLen (hp : p ≠ 0) (h64 : p + left < 2 ^ 64) :
    Extends writes k ((linuxCstrLen left n p : SysM φ (Option Nat)).run k).2 ↔
      ∀ i, i < left → (∀ j, j < i → GoesOn k.space (p + j)) → Canonical (p + i) → k.space.Mapped ((p + i) / pageSize) →
        UserPage k.space.pages false ((p + i) / pageSize) := by
  induction left generalizing n p k with
  | zero => exact iff_of_true .refl nofun
  | succ left hi =>
    rw [reached_succ (P := fun q => Canonical q → k.space.Mapped (q / pageSize) → UserPage k.space.pages false (q / pageSize))]
    by_cases hc : Canonical p
    · by_cases hm : k.space.Mapped (p / pageSize)
      · have hbyte : (∀ i, i < 1 → UserPage k.space.pages false ((p + i) / pageSize)) ↔
            UserPage k.space.pages false (p / pageSize) :=
          ⟨fun h => h 0 (by omega), fun h i hi => by rwa [Nat.lt_one_iff.mp hi]⟩
        have hnext := @hi (k.touch false p 1) (p + 1) (n + 1) (by omega) (by omega)
        rw [cstr_present hc hm hp (by omega)]
        split
        · rename_i h0
          rw [extends_of_touch prefix_rfl, hbyte]
          exact ⟨fun h => ⟨fun _ _ => h.1.1, fun h' => absurd h0 h'.2.2⟩, fun h => ⟨⟨h.1 hc hm, by rintro ⟨⟩⟩, .refl⟩⟩
        · rename_i h0
          rw [extends_of_touch (cstr_logged (by omega) (by omega)), hbyte, hnext]
          exact ⟨fun h => ⟨fun _ _ => h.1.1, fun _ => h.2⟩, fun h => ⟨⟨h.1 hc hm, by rintro ⟨⟩⟩, h.2 ⟨hc, hm, h0⟩⟩⟩
      · rw [cstr_absent hc hm]
        exact iff_of_true .refl ⟨fun _ h => absurd h hm, fun h => absurd h.2.1 hm⟩
    · rw [cstr_noncanonical hc]
      exact iff_of_true .refl ⟨fun h => absurd h hc, fun h => absurd h.1 hc⟩

end path

section buffer

theorem zero_noncanonical (h64 : start + i < 2 ^ 64) (hc : ¬Canonical (start + i)) :
    (linuxZeroUser start (left + 1) i : SysM φ Bool).run k = (.error .panic, k) := by
  have hr : require (Canonical (start + i)) = (.error .panic : Result Blocked Unit) := if_neg hc
  rw [linuxZeroUser, checked_of_lt h64, lift_ok_bind_run, hr]
  rfl

theorem zero_absent (h64 : start + i < 2 ^ 64) (hc : Canonical (start + i)) (hm : ¬k.space.Mapped ((start + i) / pageSize)) :
    (linuxZeroUser start (left + 1) i : SysM φ Bool).run k = (.ok false, k) := by
  have hnone : k.space.pages ((start + i) / pageSize) = none := not_isSome_iff_eq_none.mp hm
  rw [linuxZeroUser, checked_of_lt h64, lift_ok_bind_run, require_eq_ok.mpr hc, lift_ok_bind_run,
    read_bind_run, hnone, lift_ok_bind_run]
  rfl

theorem zero_present (h64 : start + i < 2 ^ 64) (hc : Canonical (start + i)) (hm : k.space.Mapped ((start + i) / pageSize)) :
    (linuxZeroUser start (left + 1) i : SysM φ Bool).run k =
      (writeVolatile 1 (start + i) 0 >>= fun _ => linuxZeroUser start left (i + 1)).run k := by
  obtain ⟨f, hf⟩ := isSome_iff_exists.mp hm
  rw [linuxZeroUser, checked_of_lt h64, lift_ok_bind_run, require_eq_ok.mpr hc, lift_ok_bind_run,
    read_bind_run, hf, lift_ok_bind_run]

theorem writeByte_null : (writeVolatile 1 0 v : SysM φ Unit).run k = (.error .panic, k) := by
  have hr : require (0 % 1 = 0 ∧ 0 ≠ 0) = (.error .panic : Result Blocked Unit) := if_neg fun h => h.2 rfl
  rw [writeVolatile, hr]
  rfl

theorem writeByte_store (hp : p ≠ 0) (hs : (Userspace.store p (toLe 1 v) : Userspace.UserM Blocked Unit).run k.space = r) :
    (writeVolatile 1 p v : SysM φ Unit).run k = (r.1, { k.touch true p 1 with space := r.2 }) := by
  have hlen : (toLe 1 v).length = 1 := length_toLe 1 v
  rw [writeVolatile, require_eq_ok.mpr ⟨Nat.mod_one p, hp⟩, lift_ok_bind_run, storeUser,
    bind_run_ok modify_run, hlen, inSpace, ← hs]
  rfl

theorem writeByte_fault (hp : p ≠ 0) (hw : ¬k.space.Writable (p / pageSize)) :
    (writeVolatile 1 p v : SysM φ Unit).run k = (.error .panic, k.touch true p 1) := by
  refine writeByte_store (r := (.error .panic, k.space)) hp ?_
  have hr : require (∀ i, i < (toLe 1 v).length → k.space.Writable ((p + i) / pageSize)) =
      (.error .panic : Result Blocked Unit) := if_neg fun h => hw (h 0 (by simp))
  rw [Userspace.store, read_bind_run, hr]
  rfl

theorem writeByte_run (hp : p ≠ 0) (hw : k.space.Writable (p / pageSize)) :
    (writeVolatile 1 p v : SysM φ Unit).run k = (.ok (), k.stored p (toLe 1 v)) := by
  refine writeByte_store (r := (.ok (), k.space.setMemory p (toLe 1 v))) hp (Userspace.exact_store.of_good fun i hi => ?_)
  rw [length_toLe] at hi
  rwa [Nat.lt_one_iff.mp hi]

inductive ZeroStep (k : Kernel φ) (p : Nat) (rest : Result Blocked Bool × Kernel φ) : Result Blocked Bool × Kernel φ → Prop
  | noncanonical (hc : ¬Canonical p) : ZeroStep k p rest (.error .panic, k)
  | absent (hc : Canonical p) (hm : ¬k.space.Mapped (p / pageSize)) : ZeroStep k p rest (.ok false, k)
  | null (hc : Canonical p) (hm : k.space.Mapped (p / pageSize)) (hp : p = 0) : ZeroStep k p rest (.error .panic, k)
  | fault (hc : Canonical p) (hm : k.space.Mapped (p / pageSize)) (hp : p ≠ 0) (hw : ¬k.space.Writable (p / pageSize)) :
    ZeroStep k p rest (.error .panic, k.touch true p 1)
  | next (hc : Canonical p) (hm : k.space.Mapped (p / pageSize)) (hp : p ≠ 0) (hw : k.space.Writable (p / pageSize)) :
    ZeroStep k p rest rest

theorem zeroStep (h64 : start + i < 2 ^ 64) :
    ZeroStep k (start + i) ((linuxZeroUser start left (i + 1)).run (k.stored (start + i) (toLe 1 0)))
      ((linuxZeroUser start (left + 1) i : SysM φ Bool).run k) := by
  by_cases hc : Canonical (start + i)
  case neg =>
    rw [zero_noncanonical h64 hc]
    exact .noncanonical hc
  by_cases hm : k.space.Mapped ((start + i) / pageSize)
  case neg =>
    rw [zero_absent h64 hc hm]
    exact .absent hc hm
  rw [zero_present h64 hc hm]
  by_cases hp : start + i = 0
  · have hnull : (writeVolatile 1 (start + i) 0 : SysM φ Unit).run k = (.error .panic, k) := hp ▸ writeByte_null
    rw [bind_run_error hnull]
    exact .null hc hm hp
  by_cases hw : k.space.Writable ((start + i) / pageSize)
  · rw [bind_run_ok (writeByte_run hp hw)]
    exact .next hc hm hp hw
  · rw [bind_run_error (writeByte_fault hp hw)]
    exact .fault hc hm hp hw

theorem zero_logged (h64 : start + i + left ≤ 2 ^ 64) :
    k.touched <+: ((linuxZeroUser start left i : SysM φ Bool).run k).2.touched := by
  induction left generalizing i k with
  | zero => exact prefix_rfl
  | succ left hi =>
    have hstep : ZeroStep k (start + i) _ ((linuxZeroUser start (left + 1) i).run k) := zeroStep (by omega)
    generalize (linuxZeroUser start (left + 1) i : SysM φ Bool).run k = r at hstep ⊢
    cases hstep with
    | noncanonical => exact prefix_rfl
    | absent => exact prefix_rfl
    | null => exact prefix_rfl
    | fault => exact prefix_append ..
    | next => exact (prefix_append ..).trans (@hi (k.stored (start + i) (toLe 1 0)) (i + 1) (by omega))

theorem not_panics_linuxZeroUser (h64 : start + i + left ≤ 2 ^ 64) :
    ¬(linuxZeroUser start left i : SysM φ Bool).Panics k ↔
      ∀ j, j < left → (∀ l, l < j → k.space.Mapped ((start + i + l) / pageSize)) → Canonical (start + i + j) ∧
        (k.space.Mapped ((start + i + j) / pageSize) → start + i + j ≠ 0 ∧ k.space.Writable ((start + i + j) / pageSize)) := by
  induction left generalizing i k with
  | zero => exact iff_of_true nofun nofun
  | succ left hi =>
    rw [reached_succ (P := fun q => Canonical q ∧ (k.space.Mapped (q / pageSize) → q ≠ 0 ∧ k.space.Writable (q / pageSize)))
      (Q := fun q => k.space.Mapped (q / pageSize))]
    unfold Prog.Panics
    have hstep : ZeroStep k (start + i) _ ((linuxZeroUser start (left + 1) i).run k) := zeroStep (by omega)
    generalize (linuxZeroUser start (left + 1) i : SysM φ Bool).run k = r at hstep ⊢
    cases hstep with
    | noncanonical hc => exact iff_of_false (not_not_intro rfl) fun h => hc h.1.1
    | absent hc hm => exact iff_of_true nofun ⟨⟨hc, fun h => absurd h hm⟩, fun h => absurd h hm⟩
    | null hc hm hp => exact iff_of_false (not_not_intro rfl) fun h => (h.1.2 hm).1 hp
    | fault hc hm hp hw => exact iff_of_false (not_not_intro rfl) fun h => hw (h.1.2 hm).2
    | next hc hm hp hw =>
      refine (@hi (k.stored (start + i) (toLe 1 0)) (i + 1) (by omega)).trans ?_
      exact ⟨fun h => ⟨⟨hc, fun _ => ⟨hp, hw⟩⟩, fun _ => h⟩, fun h => h.2 hm⟩

-- A byte of a buffer that is written and may be.
def Zeroes (s : Space) (q : Nat) : Prop := Canonical q ∧ UserPage s.pages true (q / pageSize)

theorem extends_linuxZeroUser (hp : start + i ≠ 0) (h64 : start + i + left ≤ 2 ^ 64) :
    (Extends true k ((linuxZeroUser start left i : SysM φ Bool).run k).2 ∧ ((linuxZeroUser start left i).run k).1 ≠ .ok false) ↔
      ∀ j, j < left → (∀ l, l < j → Zeroes k.space (start + i + l)) → Canonical (start + i + j) →
        UserPage k.space.pages true ((start + i + j) / pageSize) := by
  induction left generalizing i k with
  | zero => exact iff_of_true ⟨.refl, nofun⟩ nofun
  | succ left hi =>
    rw [reached_succ (P := fun q => Canonical q → UserPage k.space.pages true (q / pageSize))]
    have hbyte : (∀ j, j < 1 → UserPage k.space.pages true ((start + i + j) / pageSize)) ↔
        UserPage k.space.pages true ((start + i) / pageSize) :=
      ⟨fun h => h 0 (by omega), fun h j hj => by rwa [Nat.lt_one_iff.mp hj]⟩
    have hlog : (k.touch true (start + i) 1).touched <+: _ :=
      @zero_logged φ (k.stored (start + i) (toLe 1 0)) start (i + 1) left (by omega)
    have hrest := @hi (k.stored (start + i) (toLe 1 0)) (i + 1) (by omega) (by omega)
    have hstep : ZeroStep k (start + i) ((linuxZeroUser start left (i + 1)).run (k.stored (start + i) (toLe 1 0)))
        ((linuxZeroUser start (left + 1) i).run k) := zeroStep (by omega)
    generalize (linuxZeroUser start (left + 1) i : SysM φ Bool).run k = r at hstep ⊢
    cases hstep with
    | noncanonical hc => exact iff_of_true ⟨.refl, nofun⟩ ⟨fun h => absurd h hc, fun h => absurd h.1 hc⟩
    | absent hc hm => exact iff_of_false (fun h => h.2 rfl) fun h => hm (h.1 hc).mapped
    | null hc hm hn => exact absurd hn hp
    | fault hc hm _ hw =>
      refine iff_of_false (fun h => ?_) fun h => hw (h.1 hc).writable
      exact hw (hbyte.mp ((extends_of_touch prefix_rfl).mp h.1).1.1).writable
    | next hc hm _ hw =>
      have hlater (k2 : Kernel φ) : Extends true (k.touch true (start + i) 1) k2 ↔
          Extends true (k.stored (start + i) (toLe 1 0)) k2 := Extends.congr rfl
      rw [extends_of_touch hlog, hbyte, hlater, and_assoc, hrest]
      exact ⟨fun h => ⟨fun _ => h.1.1, fun _ => h.2⟩, fun h => ⟨⟨h.1 hc, fun _ => rfl⟩, h.2 ⟨hc, h.1 hc⟩⟩⟩

end buffer

end Syscall
