import Onyx.Userspace.Segments

-- The relocations of an image: which are refused, and which overflow or write where the loader may not.

open Lib

namespace Userspace

variable {elf : Image} {tab : Symbols}

namespace Symbols

-- Looking up symbol `idx` panics: a sum of offsets leaves 64 bits.
def Overflows (tab : Symbols) (elf : Image) (idx : Nat) : Prop :=
  ∃ off size, tab.dynsym = some (off, size) ∧ off + idx * 24 < 2 ^ 64 ∧
    (2 ^ 64 ≤ off + idx * 24 + 24 ∨ 2 ^ 64 ≤ off + size ∨
     off + idx * 24 + 24 ≤ off + size ∧ off + idx * 24 + 24 ≤ elf.len ∧ elf.value 2 (off + idx * 24 + 6) = 0 ∧
       ∃ strOff strSize, tab.dynstr = some (strOff, strSize) ∧
         strOff + elf.value 4 (off + idx * 24) < 2 ^ 64 ∧ 2 ^ 64 ≤ strOff + strSize)

theorem entry_none (hs : tab.dynsym = none) : tab.entry elf idx = fail "symbol reloc without .dynsym" := by
  rw [entry, hs]

theorem exact_entry (hs : tab.dynsym = some (off, size)) :
    Exact (tab.entry elf idx) (off + idx * 24 < 2 ^ 64 ∧ (2 ^ 64 ≤ off + idx * 24 + 24 ∨ 2 ^ 64 ≤ off + size))
      (off + size < 2 ^ 64 ∧ off + idx * 24 + 24 ≤ off + size ∧ off + idx * 24 + 24 ≤ elf.len) (off + idx * 24) := by
  have := elf.len_lt
  rw [entry, hs]
  exact .congr (.bind exact_fits fun _ => .bind exact_fits fun _ => .bind .checked fun _ => .bind .checked fun _ =>
    .ite (fun _ => .fail) fun _ => .ok) (by grind) (by grind)

theorem panics_symName (hpos : tab.entry elf idx = .ok pos) (hin : pos + 4 ≤ elf.len) : Panics (tab.symName elf idx) ↔
    ∃ off size, tab.dynstr = some (off, size) ∧ off + elf.value 4 pos < 2 ^ 64 ∧ 2 ^ 64 ≤ off + size := by
  rw [symName, hpos, ok_bind, Image.exact_rd.of_good hin, ok_bind]
  split
  case h_1 hn => simp [hn]
  case h_2 off size hs =>
    rw [exact_fits.panics_bind, Exact.checked.panics_bind]
    split_ifs
    · simp [hs]
    · split <;> simp [hs]

theorem panics_symAddr : Panics (tab.symAddr elf idx) ↔ tab.Overflows elf idx := by
  have hlen := elf.len_lt
  unfold Overflows
  match hs : tab.dynsym with
  | none => simp [symAddr, entry_none hs, fail, Panics]
  | some (off, size) =>
    have hname (hin : off + size < 2 ^ 64 ∧ off + idx * 24 + 24 ≤ off + size ∧ off + idx * 24 + 24 ≤ elf.len) :=
      panics_symName ((exact_entry hs).of_good hin) (by omega)
    rw [symAddr, (exact_entry hs).panics_bind, Image.exact_field.panics_bind]
    simp only [Option.some.injEq, Prod.mk.injEq, and_assoc, exists_eq_left', exists_and_left]
    by_cases hzero : elf.value 2 (off + idx * 24 + 6) = 0
    · rw [if_pos hzero]
      split
      case h_1 hp =>
        have hp : Panics (tab.symName elf idx) := hp
        grind [panics_abort]
      case h_2 hne =>
        have hp : ¬Panics (tab.symName elf idx) := fun hp => hne hp
        grind [not_panics_fail]
    · rw [if_neg hzero, Image.exact_field.panics]
      grind

end Symbols

theorem inExtents_eq (h : target + 8 < 2 ^ 64) : ∀ {es : List (Nat × Nat)},
    inExtents target es = .ok (decide (∃ e ∈ es, e.1 ≤ target ∧ target + 8 ≤ e.2))
  | [] => by simp [inExtents]
  | (lo, hi) :: es => by
    by_cases hlo : lo ≤ target
    · by_cases hhi : target + 8 ≤ hi
      · simp [inExtents, checked_of_lt h, hlo, hhi]
      · simp [inExtents, checked_of_lt h, hlo, hhi, inExtents_eq h]
    · simp [inExtents, hlo, inExtents_eq h]

theorem panics_inExtents (h : 2 ^ 64 ≤ target + 8) (hne : es ≠ [])
    (hlow : ∀ e ∈ es, e.1 ≤ target) : Panics (inExtents target es) := by
  match es, hne with
  | (lo, hi) :: es, _ =>
    have hlo : lo ≤ target := hlow (lo, hi) (List.mem_cons_self ..)
    rw [inExtents, if_pos hlo]
    exact panics_bind.mpr (.inl (panics_checked.mpr h))

def Symbolic (info : Nat) : Prop := info % 2 ^ 32 = rGlobDat ∨ info % 2 ^ 32 = rJumpSlot

theorem panics_relocationValue : Panics (relocationValue elf tab base info addend) ↔
    Symbolic info ∧ tab.Overflows elf (info / 2 ^ 32) := by
  unfold relocationValue
  split
  case isTrue hr =>
    refine iff_of_false not_panics_ok fun ⟨hs, _⟩ => ?_
    rcases hs with hs | hs <;> rw [hr] at hs <;> cases hs
  case isFalse hr =>
    split
    case isTrue hs =>
      have hrest : ∀ addr : Nat, ¬Panics (.ok (some ((base + addr + addend) % 2 ^ 64)) : Result String (Option Nat)) :=
        fun _ => not_panics_ok
      simp only [panics_bind, hrest, and_false, exists_false, or_false, Symbols.panics_symAddr]
      exact (and_iff_right hs).symm
    case isFalse hs => exact iff_of_false not_panics_ok fun h => hs h.1

namespace Image

def relInfo (elf : Image) (off : Nat) : Nat := elf.value 8 (off + 8)

def relAddend (elf : Image) (off : Nat) : Nat := elf.value 8 (off + 16)

def relTarget (elf : Image) (off : Nat) : Nat := elf.base + elf.value 8 off

def Writes (elf : Image) (tab : Symbols) (off : Nat) : Prop :=
  ∃ v, relocationValue elf tab elf.base (elf.relInfo off) (elf.relAddend off) = .ok (some v)

def RelocAccepted (elf : Image) (tab : Symbols) (off : Nat) : Prop :=
  ∃ r, relocation elf tab elf.base (elf.extents elf.phnum) off = .ok r

structure RelocSafe (elf : Image) (tab : Symbols) (applied off : Nat) : Prop where
  symbol : Symbolic (elf.relInfo off) → ¬tab.Overflows elf (elf.relInfo off / 2 ^ 32)
  target : elf.Writes tab off → elf.relTarget off < 2 ^ 64 → elf.relTarget off + 8 < 2 ^ 64
  write : elf.Writes tab off → ∀ j, j < elf.phnum → elf.IsLoad j → elf.start j ≤ elf.relTarget off →
    elf.relTarget off + 8 ≤ elf.stop j → elf.relTarget off % 8 = 0 ∧ (elf.segment j).writable
  count : elf.Writes tab off → elf.RelocAccepted tab off → applied + 1 < 2 ^ 32

-- The counter after an entry that is accepted.
def countEntry (elf : Image) (tab : Symbols) (applied off : Nat) : Nat :=
  match relocationValue elf tab elf.base (elf.relInfo off) (elf.relAddend off) with
  | .ok (some _) => applied + 1
  | _ => applied

def countEntries (elf : Image) (tab : Symbols) (applied off : Nat) : Nat → Nat
  | 0 => applied
  | k + 1 => elf.countEntry tab (elf.countEntries tab applied off k) (off + k * 24)

def countSection (elf : Image) (tab : Symbols) (applied i : Nat) : Nat :=
  match relaSection elf elf.shoff elf.shentsize i with
  | .ok (some (off, count)) => elf.countEntries tab applied off count
  | _ => applied

-- The counter before section `i`, those before it being accepted.
def appliedBefore (elf : Image) (tab : Symbols) : Nat → Nat
  | 0 => 0
  | i + 1 => elf.countSection tab (elf.appliedBefore tab i) i

-- The segments are in place, with their final protection.
def Laid (elf : Image) (t : Space) : Prop :=
  ∀ j, j < elf.phnum → elf.IsLoad j → ∀ p, elf.Holds j p → t.pages p = some (elf.segment j).finalFlags

theorem mem_extents : e ∈ elf.extents n ↔ ∃ j, j < n ∧ elf.IsLoad j ∧ e = (elf.start j, elf.stop j) := by
  simp [extents, and_assoc, eq_comm]

theorem relocation_eq (tab : Symbols) (exts : List (Nat × Nat)) (hoff : off + 24 ≤ elf.len) :
    relocation elf tab elf.base exts off =
      relocationValue elf tab elf.base (elf.relInfo off) (elf.relAddend off) >>=
        relocationTarget (elf.relTarget off) exts := by
  rw [relocation, exact_rd.of_good (by omega), ok_bind, exact_field.of_good (by omega), ok_bind,
    exact_field.of_good (by omega), ok_bind]
  rfl

structure Step (p : LoadM α) (t : Space) (Accepted Safe : Prop) (a : α) : Prop where
  panics : p.Panics t ↔ ¬Safe
  completes : p.Completes t ↔ Accepted ∧ Safe
  value : ∀ {b : α} {t' : Space}, p.run t = (.ok b, t') → b = a
  pages : ∀ {b : α} {t' : Space}, p.run t = (.ok b, t') → t'.pages = t.pages

namespace Step

variable {α : Type} {p : LoadM α} {t t' : Space} {Accepted Safe : Prop} {a : α}

theorem of_ok (hrun : p.run t = (.ok a, t')) (hpages : t'.pages = t.pages) (ha : Accepted) (hs : Safe) :
    Step p t Accepted Safe a := by
  have hc : p.Completes t := ⟨_, _, hrun⟩
  refine ⟨iff_of_false hc.not_panics (not_not_intro hs), iff_of_true hc ⟨ha, hs⟩, fun hr => ?_, fun hr => ?_⟩
  · cases hrun.symm.trans hr
    rfl
  · cases hrun.symm.trans hr
    exact hpages

theorem of_err (hrun : p.run t = (.error (.err e), t')) (ha : ¬Accepted) (hs : Safe) : Step p t Accepted Safe a := by
  refine ⟨iff_of_false ?_ (not_not_intro hs), iff_of_false ?_ fun h => ha h.1, fun hr => ?_, fun hr => ?_⟩
  · rw [Prog.Panics, hrun]
    exact not_panics_err
  · rintro ⟨_, _, hr⟩
    cases hrun.symm.trans hr
  · cases hrun.symm.trans hr
  · cases hrun.symm.trans hr

theorem of_panic (hp : p.Panics t) (hs : ¬Safe) : Step p t Accepted Safe a := by
  have hnot {b : α} {t' : Space} (hr : p.run t = (.ok b, t')) : False := Prog.Completes.not_panics ⟨_, _, hr⟩ hp
  exact ⟨iff_of_true hp hs, iff_of_false (fun hc => hc.not_panics hp) fun h => hs h.2, fun hr => (hnot hr).elim,
    fun hr => (hnot hr).elim⟩

theorem of_run (h : Step q t Accepted Safe a) (hrun : p.run t = q.run t) : Step p t Accepted Safe a where
  panics := by rw [Prog.Panics, hrun]; exact h.panics
  completes := by rw [Prog.Completes, hrun]; exact h.completes
  value := fun hr => h.value (hrun.symm.trans hr)
  pages := fun hr => h.pages (hrun.symm.trans hr)

theorem discard (h : Step p t Accepted Safe a) : Step (p >>= fun _ => pure ()) t Accepted Safe () where
  panics := Prog.panics_bind.trans ((or_iff_left fun ⟨_, _, _, hp⟩ => Prog.not_panics_pure hp).trans h.panics)
  completes := by
    refine Prog.completes_bind.trans (Iff.trans ⟨?_, ?_⟩ h.completes)
    · exact fun ⟨_, _, hp, _⟩ => ⟨_, _, hp⟩
    · exact fun ⟨_, _, hp⟩ => ⟨_, _, hp, Prog.completes_pure⟩
  value := fun _ => rfl
  pages := fun hr => by
    obtain ⟨_, _, hp, hr⟩ := bind_eq_ok.mp hr
    cases hr
    exact h.pages hp

-- A loop whose counter is `c k` before round `k`.
section loop

variable {f : Nat → Nat → LoadM Nat} {Accepted Safe : Nat → Prop} {c : Nat → Nat}
  (h : ∀ k t', k < n → t'.pages = t.pages → Step (f (c k) k) t' (Accepted k) (Safe k) (c (k + 1)))

include h

theorem rounds : Rounds f n (fun k b t' => b = c k ∧ t'.pages = t.pages) (fun k => Accepted k ∧ Safe k)
    fun k => ¬Safe k := by
  constructor
  case next =>
    rintro k _ t1 b t2 hk ⟨rfl, ht⟩ hrun
    exact ⟨(h k t1 hk ht).value hrun, ((h k t1 hk ht).pages hrun).trans ht⟩
  case good =>
    rintro k _ t1 hk ⟨rfl, ht⟩
    exact (h k t1 hk ht).completes
  case bad =>
    rintro k _ t1 hk ⟨rfl, ht⟩
    exact (h k t1 hk ht).panics

theorem loop : Step ((List.range n).foldlM f (c 0)) t (∀ k, k < n → Accepted k)
      (∀ k, k < n → (∀ j, j < k → Accepted j) → Safe k) (c n) := by
  have hr := rounds h
  have hi : c 0 = c 0 ∧ t.pages = t.pages := ⟨rfl, rfl⟩
  refine ⟨?_, ?_, fun hrun => (hr.run hi hrun).1, fun hrun => (hr.run hi hrun).2⟩
  · exact not_iff_not.mp ((hr.not_panics hi).trans not_not.symm)
  · refine (hr.completes hi).trans ⟨fun hall => ?_, fun ⟨ha, hs⟩ k hk => ⟨ha k hk, hs k hk fun j hj => ha j (by omega)⟩⟩
    exact ⟨fun k hk => (hall k hk).1, fun k hk _ => (hall k hk).2⟩

end loop

end Step

theorem symbol_of_not_panics (hv : relocationValue elf tab elf.base (elf.relInfo off) (elf.relAddend off) = r)
    (hr : ¬Panics r) : Symbolic (elf.relInfo off) → ¬tab.Overflows elf (elf.relInfo off / 2 ^ 32) :=
  fun hs ho => hr (hv ▸ panics_relocationValue.mpr ⟨hs, ho⟩)

theorem relocSafe_of_not_writes (hv : relocationValue elf tab elf.base (elf.relInfo off) (elf.relAddend off) = r)
    (hr : ¬Panics r) (hn : ∀ v, r ≠ .ok (some v)) : elf.RelocSafe tab n off := by
  have hw : ¬elf.Writes tab off := fun ⟨v, hv'⟩ => hn v (hv.symm.trans hv')
  exact ⟨symbol_of_not_panics hv hr, fun hw' => absurd hw' hw, fun hw' => absurd hw' hw, fun hw' => absurd hw' hw⟩

section write

variable (h : elf.Placeable) (hne : elf.extents elf.phnum ≠ [])

include h

theorem Placeable.start_le (hj : j < elf.phnum) (hl : elf.IsLoad j) (ht : 2 ^ 64 ≤ target + 8) : elf.start j ≤ target := by
  have ⟨_, hb⟩ := h.bounds hj hl
  have ⟨h1, h2⟩ := h.mapVa_bounds (i := j)
  unfold userMaxAddr at hb
  omega

theorem Placeable.holds_target (hlo : elf.start j ≤ target) (hhi : target + 8 ≤ elf.stop j) :
    elf.Holds j (target / pageSize) := by
  have h1 := h.start_mod (i := j)
  have h2 := h.stop_mod (i := j)
  unfold Holds
  rw [pageSize_eq] at *
  omega

theorem Laid.exact_writeVolatile (hlaid : elf.Laid t) (hj : j < elf.phnum) (hl : elf.IsLoad j)
    (hlo : elf.start j ≤ target) (hhi : target + 8 ≤ elf.stop j) :
    (writeVolatile target v : LoadM Unit).Exact t (¬(target % 8 = 0 ∧ (elf.segment j).writable))
      (target % 8 = 0 ∧ (elf.segment j).writable) () (t.setMemory target (Bytes.toLe 8 v)) := by
  have hpage : t.Writable (target / pageSize) ↔ (elf.segment j).writable := by
    rw [Space.Writable, hlaid j hj hl _ (h.holds_target hlo hhi)]
    rfl
  have hall (ha : target % 8 = 0) : (∀ i, i < (Bytes.toLe 8 v).length → t.Writable ((target + i) / pageSize)) ↔
      (elf.segment j).writable := by
    rw [Bytes.length_toLe, ← hpage]
    refine ⟨fun hw => hw 0 (by omega), fun hw i hi => ?_⟩
    have hsame : (target + i) / pageSize = target / pageSize := by
      rw [pageSize_eq]
      omega
    rwa [hsame]
  exact .congr (.bind (.lift .require) fun _ => exact_store) (by grind) (and_congr_right hall)

include hne

theorem Placeable.relocationTarget_cases (v target : Nat) :
    (∃ e, relocationTarget target (elf.extents elf.phnum) (some v) = fail e ∧ (target < 2 ^ 64 → target + 8 < 2 ^ 64) ∧
      ∀ j, j < elf.phnum → elf.IsLoad j → elf.start j ≤ target → ¬target + 8 ≤ elf.stop j) ∨
    (Panics (relocationTarget target (elf.extents elf.phnum) (some v)) ∧ target < 2 ^ 64 ∧ ¬target + 8 < 2 ^ 64) ∨
    (relocationTarget target (elf.extents elf.phnum) (some v) = .ok (some (target, v)) ∧ target + 8 < 2 ^ 64 ∧
      ∃ j, j < elf.phnum ∧ elf.IsLoad j ∧ elf.start j ≤ target ∧ target + 8 ≤ elf.stop j) := by
  by_cases hfit : target < 2 ^ 64
  · rw [relocationTarget, exact_fits.of_good hfit, ok_bind]
    by_cases hroom : target + 8 < 2 ^ 64
    · rw [inExtents_eq hroom, ok_bind]
      by_cases hin : ∃ e ∈ elf.extents elf.phnum, e.1 ≤ target ∧ target + 8 ≤ e.2
      · rw [decide_eq_true hin]
        obtain ⟨e, he, hlo, hhi⟩ := hin
        obtain ⟨j, hj, hl, rfl⟩ := mem_extents.mp he
        exact .inr (.inr ⟨rfl, hroom, j, hj, hl, hlo, hhi⟩)
      · rw [decide_eq_false hin]
        refine .inl ⟨_, rfl, fun _ => hroom, fun j hj hl hlo hhi => hin ?_⟩
        exact ⟨_, mem_extents.mpr ⟨j, hj, hl, rfl⟩, hlo, hhi⟩
    · refine .inr (.inl ⟨panics_bind.mpr (.inl (panics_inExtents (by omega) hne fun e he => ?_)), hfit, hroom⟩)
      obtain ⟨j, hj, hl, rfl⟩ := mem_extents.mp he
      exact h.start_le hj hl (by omega)
  · refine .inl ⟨"relocation target overflow", ?_, fun h' => absurd h' hfit, fun j hj hl _ hhi => ?_⟩
    · rw [relocationTarget, fits, if_neg hfit]
      rfl
    · have := (h.bounds hj hl).2
      unfold userMaxAddr at this
      omega

theorem Laid.applyRelocation (hlaid : elf.Laid t) (hoff : off + 24 ≤ elf.len) :
    Step (applyRelocation elf tab elf.base (elf.extents elf.phnum) n off) t (elf.RelocAccepted tab off)
      (elf.RelocSafe tab n off) (elf.countEntry tab n off) := by
  have hacc := relocation_eq tab (elf.extents elf.phnum) hoff
  unfold Userspace.applyRelocation countEntry
  rw [hacc]
  match hv : relocationValue elf tab elf.base (elf.relInfo off) (elf.relAddend off) with
  | .error .panic =>
    have ⟨hs, ho⟩ := panics_relocationValue.mp hv
    exact .of_panic rfl fun hsafe => hsafe.symbol hs ho
  | .error (.err e) =>
    rw [hv] at hacc
    exact .of_err rfl (fun ⟨_, hr⟩ => nomatch hacc.symm.trans hr) (relocSafe_of_not_writes hv nofun nofun)
  | .ok none =>
    rw [hv] at hacc
    exact .of_ok rfl rfl ⟨_, hacc⟩ (relocSafe_of_not_writes hv nofun nofun)
  | .ok (some v) =>
    have hw : elf.Writes tab off := ⟨v, hv⟩
    have hsym := symbol_of_not_panics hv nofun
    rw [hv, ok_bind] at hacc
    rw [ok_bind]
    rcases h.relocationTarget_cases hne v (elf.relTarget off) with
      ⟨e, he, hroom, hout⟩ | ⟨hp, hfit, hroom⟩ | ⟨he, hroom, j, hj, hl, hlo, hhi⟩
    · have hno : ¬elf.RelocAccepted tab off := fun ⟨_, hr⟩ => nomatch (hacc.trans he).symm.trans hr
      rw [he]
      exact .of_err rfl hno
        ⟨hsym, fun _ => hroom, fun _ j hj hl hlo hhi => absurd hhi (hout j hj hl hlo), fun _ ha => absurd ha hno⟩
    · rw [hp]
      exact .of_panic rfl fun hsafe => hroom (hsafe.target hw hfit)
    · have hyes : elf.RelocAccepted tab off := ⟨_, hacc.trans he⟩
      rw [he]
      have hwrite : Prog.Exact (writeVolatile (elf.relTarget off) v >>= fun _ => Prog.lift (checked 32 (n + 1)) : LoadM Nat)
          t _ _ _ _ := (hlaid.exact_writeVolatile h hj hl hlo hhi).bind fun _ => .lift .checked
      by_cases hok : (elf.relTarget off % 8 = 0 ∧ (elf.segment j).writable) ∧ n + 1 < 2 ^ 32
      · refine .of_ok (hwrite.of_good hok) rfl hyes
          ⟨hsym, fun _ _ => hroom, fun _ i hi hli hloi hhii => ⟨hok.1.1, ?_⟩, fun _ _ => hok.2⟩
        -- Two segments that hold the target give its page the same flags.
        have h1 := hlaid j hj hl _ (h.holds_target hlo hhi)
        have h2 := hlaid i hi hli _ (h.holds_target hloi hhii)
        have hflags : (elf.segment j).finalFlags = (elf.segment i).finalFlags := Option.some.inj (h1.symm.trans h2)
        have hw' : (elf.segment j).finalFlags.writable = true := hok.1.2
        rw [hflags] at hw'
        exact hw'
      · refine .of_panic (hwrite.panics.mpr (by grind)) fun hsafe => hok ?_
        exact ⟨hsafe.write hw j hj hl hlo hhi, hsafe.count hw hyes⟩

end write

def sh (elf : Image) (i : Nat) : Nat := elf.shoff + i * elf.shentsize

theorem exact_sectionHeader :
    Exact (sectionHeader elf elf.shoff elf.shentsize i) (elf.sh i < 2 ^ 64 ∧ 2 ^ 64 ≤ elf.sh i + 64) (elf.sh i + 64 ≤ elf.len)
      (elf.sh i) := by
  have := elf.len_lt
  exact .congr (.bind exact_tableEntry fun _ => .bind .checked fun _ => .ite (fun _ => .fail) fun _ => .ok) (by grind [sh])
    (by grind [sh])

theorem exact_relaSection :
    Exact (relaSection elf elf.shoff elf.shentsize i) (elf.sh i < 2 ^ 64 ∧ 2 ^ 64 ≤ elf.sh i + 64)
      (elf.sh i + 64 ≤ elf.len ∧ (elf.value 4 (elf.sh i + 4) = shtRela →
        elf.value 8 (elf.sh i + 24) + elf.value 8 (elf.sh i + 32) ≤ elf.len))
      (if elf.value 4 (elf.sh i + 4) = shtRela then some (elf.value 8 (elf.sh i + 24), elf.value 8 (elf.sh i + 32) / 24)
        else none) := by
  have := elf.len_lt
  exact .congr (.bind exact_sectionHeader fun _ => .bind exact_field fun _ => .cases (fun _ => .bind exact_field fun _ =>
    .bind exact_field fun _ => .ite (fun _ => .ok) fun _ => .fail) fun _ => .ok) (by grind) (by grind)

def TableInFile (elf : Image) : Prop := elf.shoff + 64 ≤ elf.len

namespace TableInFile

variable (h : elf.TableInFile)

include h

private theorem sh_lt (hi : i < 2 ^ 32) : elf.sh i + 64 < 2 ^ 64 := by
  have hlen := elf.len_lt
  have hsize : elf.shentsize < 2 ^ 16 := elf.value_lt 2 58
  have hskip : i * elf.shentsize ≤ 2 ^ 32 * 2 ^ 16 := Nat.mul_le_mul (by omega) (by omega)
  unfold TableInFile at h
  unfold sh
  omega

theorem not_panics_readSymbols (hpos : pos + 64 ≤ elf.len) : ¬Panics (readSymbols elf elf.shoff elf.shentsize pos) := by
  have hlen := elf.len_lt
  have hlink : elf.sh (elf.value 4 (pos + 40)) + 64 < 2 ^ 64 := h.sh_lt (elf.value_lt 4 _)
  have hread : Exact (readSymbols elf elf.shoff elf.shentsize pos) _ _ _ :=
    .bind exact_field fun _ => .bind exact_field fun _ => .bind exact_field fun _ => .bind exact_tableEntry fun _ =>
      .bind .checked fun _ => .cases (fun _ => .bind exact_field fun _ => .bind exact_field fun _ => .ok) fun _ => .ok
  rw [hread.panics]
  grind [sh]

theorem not_panics_findSymbols : ∀ {l : List Nat}, (∀ i ∈ l, i < 2 ^ 32) →
    ¬Panics (findSymbols elf elf.shoff elf.shentsize l)
  | [], _ => not_panics_ok
  | i :: l, hl => by
    have hsh := h.sh_lt (hl i (List.mem_cons_self ..))
    rw [findSymbols, exact_sectionHeader.panics_bind, exact_field.panics_bind]
    rintro (hp | ⟨hin, hp | ⟨_, hp⟩⟩)
    · omega
    · omega
    · split at hp
      · exact h.not_panics_readSymbols hin hp
      · exact not_panics_findSymbols (fun i hi => hl i (List.mem_cons_of_mem _ hi)) hp

end TableInFile

theorem panics_findSymbols : Panics (findSymbols elf elf.shoff elf.shentsize (List.range elf.shnum)) ↔
      0 < elf.shnum ∧ 2 ^ 64 ≤ elf.shoff + 64 := by
  have hoff : elf.shoff < 2 ^ 64 := elf.value_lt 8 40
  have hnum : elf.shnum < 2 ^ 16 := elf.value_lt 2 60
  have h0 : elf.sh 0 = elf.shoff := by simp [sh]
  match hn : elf.shnum with
  | 0 => exact iff_of_false not_panics_ok (by omega)
  | n + 1 =>
    by_cases hin : elf.TableInFile
    · refine iff_of_false (hin.not_panics_findSymbols fun i hi => ?_) ?_
      · have := List.mem_range.mp hi
        omega
      · have := elf.len_lt
        unfold TableInFile at hin
        omega
    · rw [List.range_succ_eq_map, findSymbols, exact_sectionHeader.panics_bind, h0]
      unfold TableInFile at hin
      omega

theorem tableInFile_of_findSymbols (hpos : 0 < elf.shnum)
    (h : findSymbols elf elf.shoff elf.shentsize (List.range elf.shnum) = .ok tab) : elf.TableInFile := by
  obtain ⟨n, hn⟩ : ∃ n, elf.shnum = n + 1 := ⟨elf.shnum - 1, by omega⟩
  rw [hn, List.range_succ_eq_map, findSymbols] at h
  have ⟨_, hsh, _⟩ := Result.bind_eq_ok.mp h
  have hin := (exact_sectionHeader.eq_ok.mp hsh).1
  rwa [sh, Nat.zero_mul] at hin

theorem TableInFile.not_panics_relaSection (h : elf.TableInFile) (hi : i < 2 ^ 32) :
    ¬Panics (relaSection elf elf.shoff elf.shentsize i) := by
  have := h.sh_lt hi
  rw [exact_relaSection.panics]
  omega

theorem entry_in_file (h : relaSection elf elf.shoff elf.shentsize i = .ok (some (off, count))) (hk : k < count) :
    off + k * 24 + 24 ≤ elf.len := by
  obtain ⟨⟨_, hlen⟩, hr⟩ := exact_relaSection.eq_ok.mp h
  split at hr
  case isTrue ht =>
    cases hr
    have := hlen ht
    omega
  case isFalse => cases hr

def SectionAccepted (elf : Image) (tab : Symbols) (i : Nat) : Prop :=
  ∃ r, relaSection elf elf.shoff elf.shentsize i = .ok r ∧
    ∀ off count, r = some (off, count) → ∀ k, k < count → elf.RelocAccepted tab (off + k * 24)

-- Every entry of section `i` that is reached is safe.
def SectionSafe (elf : Image) (tab : Symbols) (i : Nat) : Prop :=
  ∀ off count, relaSection elf elf.shoff elf.shentsize i = .ok (some (off, count)) →
    ∀ k, k < count → (∀ j, j < k → elf.RelocAccepted tab (off + j * 24)) →
      elf.RelocSafe tab (elf.countEntries tab (elf.appliedBefore tab i) off k) (off + k * 24)

def TableAccepted (elf : Image) : Prop :=
  ∃ tab, findSymbols elf elf.shoff elf.shentsize (List.range elf.shnum) = .ok tab ∧
    ∀ i, i < elf.shnum → elf.SectionAccepted tab i

-- The section headers end in the address space, and every entry that is reached is safe.
structure TableSafe (elf : Image) : Prop where
  table : 0 < elf.shnum → elf.shoff + 64 < 2 ^ 64
  entries : ∀ tab, findSymbols elf elf.shoff elf.shentsize (List.range elf.shnum) = .ok tab →
    ∀ i, i < elf.shnum → (∀ j, j < i → elf.SectionAccepted tab j) → elf.SectionSafe tab i

def Relocates (elf : Image) : Prop := elf.Dyn ∧ elf.shoff ≠ 0 ∧ 64 ≤ elf.shentsize

section relocs

variable (h : elf.Placeable) (hne : elf.extents elf.phnum ≠ [])

include h hne

theorem Laid.entries (hlaid : elf.Laid t) (hr : relaSection elf elf.shoff elf.shentsize i = .ok (some (off, count)))
    (k : Nat) (t' : Space) (hk : k < count) (hpages : t'.pages = t.pages) :
    Step (Userspace.applyRelocation elf tab elf.base (elf.extents elf.phnum) (elf.countEntries tab n off k) (off + k * 24)) t'
      (elf.RelocAccepted tab (off + k * 24)) (elf.RelocSafe tab (elf.countEntries tab n off k) (off + k * 24))
      (elf.countEntries tab n off (k + 1)) :=
  Laid.applyRelocation (t := t') h hne (fun j hj hl p hp => (congrFun hpages p).trans (hlaid j hj hl p hp)) (entry_in_file hr hk)

theorem Laid.applySection (hlaid : elf.Laid t) (htab : elf.TableInFile) (hi : i < elf.shnum) :
    Step (applySection elf tab elf.base (elf.extents elf.phnum) elf.shoff elf.shentsize (elf.appliedBefore tab i) i) t
      (elf.SectionAccepted tab i) (elf.SectionSafe tab i) (elf.appliedBefore tab (i + 1)) := by
  have hnum : elf.shnum < 2 ^ 16 := elf.value_lt 2 60
  rw [appliedBefore]
  generalize hn : elf.appliedBefore tab i = n
  unfold Userspace.applySection SectionAccepted SectionSafe countSection
  rw [hn]
  match hr : relaSection elf elf.shoff elf.shentsize i with
  | .error .panic => exact absurd hr (htab.not_panics_relaSection (by omega))
  | .error (.err e) => exact .of_err rfl (fun ⟨_, h', _⟩ => nomatch h') nofun
  | .ok none => exact .of_ok rfl rfl ⟨none, rfl, nofun⟩ nofun
  | .ok (some (off, count)) =>
    have hloop := Step.loop (c := fun k => elf.countEntries tab n off k) (f := fun m k =>
      Userspace.applyRelocation elf tab elf.base (elf.extents elf.phnum) m (off + k * 24)) (hlaid.entries h hne hr)
    exact ⟨hloop.panics.trans (not_congr (by simp)), hloop.completes.trans (and_congr (by simp) (by simp)), hloop.value,
      hloop.pages⟩

theorem Laid.sections (tab : Symbols) (hlaid : elf.Laid t) (hin : 0 < elf.shnum → elf.TableInFile) (i : Nat) (t' : Space)
    (hi : i < elf.shnum) (hpages : t'.pages = t.pages) :
    Step (Userspace.applySection elf tab elf.base (elf.extents elf.phnum) elf.shoff elf.shentsize (elf.appliedBefore tab i) i)
      t' (elf.SectionAccepted tab i) (elf.SectionSafe tab i) (elf.appliedBefore tab (i + 1)) :=
  Laid.applySection h hne (fun j hj hl p hp => (congrFun hpages p).trans (hlaid j hj hl p hp)) (hin (by omega)) hi

theorem Laid.applySections (hlaid : elf.Laid t) :
    Step (applySections elf elf.base (elf.extents elf.phnum) elf.shoff elf.shentsize elf.shnum) t elf.TableAccepted
      elf.TableSafe () := by
  unfold Userspace.applySections
  match htab : findSymbols elf elf.shoff elf.shentsize (List.range elf.shnum) with
  | .error .panic =>
    have ⟨hpos, hbig⟩ := panics_findSymbols.mp htab
    exact .of_panic rfl fun hs => absurd (hs.table hpos) (by omega)
  | .error (.err e) =>
    refine .of_err rfl ?_ ⟨fun hpos => Nat.lt_of_not_le fun hbig => ?_, fun tab hok => ?_⟩
    · rintro ⟨tab, hok, _⟩
      rw [htab] at hok
      cases hok
    · have hp := panics_findSymbols.mpr ⟨hpos, hbig⟩
      rw [htab] at hp
      exact not_panics_err hp
    · rw [htab] at hok
      cases hok
  | .ok tab =>
    have hin : 0 < elf.shnum → elf.TableInFile := fun hpos => tableInFile_of_findSymbols hpos htab
    have hloop := (Step.loop (hlaid.sections h hne tab hin)).discard
    have hsafe : (∀ i, i < elf.shnum → (∀ j, j < i → elf.SectionAccepted tab j) → elf.SectionSafe tab i) ↔
        elf.TableSafe := by
      constructor
      · refine fun hs => ⟨fun hpos => ?_, fun tab' hok => ?_⟩
        · have hfile := hin hpos
          have := elf.len_lt
          unfold TableInFile at hfile
          omega
        · rw [htab] at hok
          cases hok
          exact hs
      · exact fun hs => hs.entries tab htab
    have hacc : (∀ i, i < elf.shnum → elf.SectionAccepted tab i) ↔ elf.TableAccepted := by
      constructor
      · exact fun ha => ⟨tab, htab, ha⟩
      · rintro ⟨tab', hok, ha⟩
        rw [htab] at hok
        cases hok
        exact ha
    exact ⟨hloop.panics.trans (not_congr hsafe), hloop.completes.trans (and_congr hacc hsafe), hloop.value, hloop.pages⟩

theorem Laid.relocate (hlaid : elf.Laid t) :
    Step (relocate elf elf.eType elf.base (elf.extents elf.phnum)) t (elf.Relocates → elf.TableAccepted)
      (elf.Relocates → elf.TableSafe) () := by
  have hlen : 64 ≤ elf.len := h.elf64.1
  have h1 : elf.rd relaRange 8 40 = .ok elf.shoff := exact_rd.of_good (by omega)
  have h2 : elf.rd "section header out of range" 2 58 = .ok elf.shentsize := exact_rd.of_good (by omega)
  have h3 : elf.rd "section header out of range" 2 60 = .ok elf.shnum := exact_rd.of_good (by omega)
  have hskip {p : LoadM Unit} (hr : ¬elf.Relocates) (hrun : p.run t = (.ok (), t)) :
      Step p t (elf.Relocates → elf.TableAccepted) (elf.Relocates → elf.TableSafe) () :=
    .of_ok hrun rfl (fun hr' => absurd hr' hr) fun hr' => absurd hr' hr
  unfold Userspace.relocate
  by_cases hd : elf.eType = etDyn
  · rw [if_pos hd, applyRelativeRelocations, h1, h2, h3]
    by_cases hnone : elf.shoff = 0 ∨ elf.shentsize < 64
    · refine hskip (fun hr => ?_) ?_
      · have := hr.2
        omega
      simp only [lift_ok_bind_run, if_pos hnone, Prog.pure_run]
    · have hr : elf.Relocates := ⟨hd, by omega, by omega⟩
      rw [forall_prop_of_true hr, forall_prop_of_true hr]
      refine (Laid.applySections h hne hlaid).of_run ?_
      simp only [lift_ok_bind_run, if_neg hnone]
  · rw [if_neg hd]
    exact hskip (fun hr => hd hr.1) rfl

end relocs

end Image
end Userspace
