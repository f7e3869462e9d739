import Onyx.Fat.File
import Onyx.Fat.Volume
import Onyx.Lib.Panic

-- A medium that a volume was mounted from: where following its links can lead.

open Lib List Bytes Result

namespace Fat32

open AtaDrive (sectorSize)

variable {v : Fat32} {d d' d1 : AtaDrive} {c f x n a : Nat}

-- The numbers of a volume are in the ranges of their types, and no address in it overflows.
structure Sized (v : Fat32) : Prop where
  start : v.partStart < 2 ^ 48
  spc_pos : 0 < v.sectorsPerCluster
  spc_le : v.sectorsPerCluster ≤ 16
  reserved : v.reserved < 2 ^ 16
  fats_pos : 0 < v.numFats
  data : v.numFats * v.fatSectors < 2 ^ 32
  root : 2 ≤ v.rootCluster
  root_lt : v.rootCluster < 2 ^ 32
  clusters : v.totalClusters + 2 ≤ 2 ^ 32

-- The number of sectors that the boot sector gives for the volume.
def totalSectors (d : AtaDrive) (partStart : Nat) : Nat := (d.content (partStart * sectorSize) sectorSize).u32At 32

theorem mount_eq_ok (h : mount d ps = .ok v) (hd : d.totalSectors ≤ 2 ^ 48) : v.Sized ∧ v.partStart = ps ∧
    v.reserved + v.numFats * v.fatSectors + v.totalClusters * v.sectorsPerCluster ≤ totalSectors d ps := by
  have ⟨sec, hsec, h⟩ := bind_eq_ok.mp h
  have hr : d.InRange ps 1 ∧ d.content (ps * sectorSize) (1 * sectorSize) = sec := by
    unfold readSectors AtaDrive.readSectors at hsec
    split_ifs at hsec with hr
    · exact ⟨hr, Except.ok.inj hsec⟩
    · cases hsec
  rw [Nat.one_mul] at hr
  simp only at h
  split_ifs at h with h1 h2 h3
  any_goals cases h
  have ⟨n, hn, h⟩ := bind_eq_ok.mp h
  obtain ⟨rfl, hlt⟩ := checked_eq_ok.mp hn
  split_ifs at h with h4
  · cases h
  cases h
  have htotal : totalSectors d ps = sec.u32At 32 := by rw [totalSectors, hr.2]
  have hlt32 := u32At_lt sec 32
  have hin := hr.1.2.1
  simp only [sectorSize] at h2
  generalize hstart : sec.u16At 14 + (sec.getD 16 0).toNat * sec.u32At 36 = dataStart at *
  have hdiv := Nat.div_mul_le_self (sec.u32At 32 - dataStart) (sec.getD 13 0).toNat
  have hle : (sec.u32At 32 - dataStart) / (sec.getD 13 0).toNat ≤ sec.u32At 32 - dataStart := Nat.div_le_self ..
  refine ⟨⟨?_, ?_, ?_, u16At_lt sec 14, ?_, ?_, ?_, u32At_lt sec 44, ?_⟩, rfl, ?_⟩
  all_goals simp only
  all_goals omega

theorem gives_readSectors : Gives (readSectors d lba k) fun b =>
    d.InRange lba k ∧ b = d.content (lba * sectorSize) (k * sectorSize) := by
  unfold readSectors AtaDrive.readSectors
  split_ifs with hr
  · exact .ok ⟨hr, rfl⟩
  · exact .fail

theorem returns_writeSectors : (writeSectors lba k b).Returns d fun _ d' =>
    d.InRange lba k ∧ d' = d.store (lba * sectorSize) (b.take (k * sectorSize)) := by
  by_cases hr : d.InRange lba k
  · have hw : d.writeSectors lba k b = .ok (d.store (lba * sectorSize) (b.take (k * sectorSize))) := if_pos hr
    refine ⟨?_, fun _ d' h => ?_⟩
    · simp [Prog.Panics, writeSectors, hw]
    · simp only [writeSectors, hw] at h
      exact ⟨hr, (Prod.mk.inj h).2.symm⟩
  · have hw : d.writeSectors lba k b = .error .outOfRange := if_neg hr
    refine ⟨?_, fun _ d' h => ?_⟩
    · simp [Prog.Panics, writeSectors, hw]
    · simp only [writeSectors, hw] at h
      cases (Prod.mk.inj h).1

namespace Sized

variable (s : v.Sized)
include s

theorem fatLba_eq (hc : c < 2 ^ 32) (hf : f ≤ v.numFats) :
    v.fatLba f c = .ok (v.partStart + v.reserved + f * v.fatSectors + c * 4 / sectorSize) := by
  have h1 : f * v.fatSectors ≤ v.numFats * v.fatSectors := Nat.mul_le_mul_right _ hf
  have h2 : c * 4 / sectorSize ≤ c * 4 := Nat.div_le_self ..
  have := s.start
  have := s.reserved
  have := s.data
  refine checked_of_lt ?_
  omega

theorem clusterLba_eq (hc : v.Valid c) :
    v.clusterLba c = .ok (v.partStart + v.reserved + v.numFats * v.fatSectors + (c - 2) * v.sectorsPerCluster) := by
  have h1 : (c - 2) * v.sectorsPerCluster ≤ 2 ^ 32 * 16 := by
    have := hc.2
    have := s.clusters
    exact Nat.mul_le_mul (by omega) s.spc_le
  have := s.start
  have := s.reserved
  have := s.data
  rw [clusterLba, checkedSub_of_le hc.1, ok_bind]
  refine checked_of_lt ?_
  omega

theorem fatEntry_eq (hc : c < 2 ^ 32) : v.fatEntry d c =
    if d.InRange (v.partStart + v.reserved + c * 4 / sectorSize) 1 then .ok (ofLe (d.content (v.fatAddr 0 c) 4))
    else fail (.io .outOfRange) := by
  have ha : (v.partStart + v.reserved + c * 4 / sectorSize) * sectorSize + c * 4 % sectorSize = v.fatAddr 0 c := by
    simp only [fatAddr, sectorSize]
    omega
  rw [fatEntry, s.fatLba_eq hc (Nat.zero_le _), ok_bind, Nat.zero_mul, Nat.add_zero]
  unfold readSectors AtaDrive.readSectors
  split_ifs with hr
  · rw [ok_bind, u32At, AtaDrive.slice_content (by simp only [sectorSize]; omega), ha]
    rfl
  · rfl

theorem not_panics_fatEntry (hc : c < 2 ^ 32) : ¬Panics (v.fatEntry d c) := by
  rw [s.fatEntry_eq hc]
  split_ifs
  · exact not_panics_ok
  · exact not_panics_fail

end Sized

structure Regular (v : Fat32) : Prop where
  covers : (v.totalClusters + 2) * 4 ≤ v.fatSectors * sectorSize
  links : v.totalClusters + 2 ≤ 0x0FFFFFF8

-- One entry of the FAT may have got the given value, and no other one has changed.
structure FatSet (v : Fat32) (c x : Nat) (d d' : AtaDrive) : Prop where
  self : v.fatEntry d' c = v.fatEntry d c ∨ v.fatEntry d' c = .ok x
  other : ∀ c' < v.totalClusters + 2, c' ≠ c → v.fatEntry d' c' = v.fatEntry d c'

def SameFat (v : Fat32) (d d' : AtaDrive) : Prop := ∀ c < v.totalClusters + 2, v.fatEntry d' c = v.fatEntry d c

theorem FatSet.refl : v.FatSet c x d d := ⟨.inl rfl, fun _ _ _ => rfl⟩

theorem FatSet.trans (h1 : v.FatSet c x d d1) (h2 : v.FatSet c x d1 d') : v.FatSet c x d d' where
  self := h2.self.elim (fun h => h1.self.imp h.trans h.trans) .inr
  other c' hc hne := (h2.other c' hc hne).trans (h1.other c' hc hne)

theorem SameFat.refl : v.SameFat d d := fun _ _ => rfl

theorem SameFat.trans (h1 : v.SameFat d d1) (h2 : v.SameFat d1 d') : v.SameFat d d' :=
  fun c hc => (h2 c hc).trans (h1 c hc)

section effects

variable (s : v.Sized) (g : v.Regular)
include s

theorem Sized.lt (hc : c < v.totalClusters + 2) : c < 2 ^ 32 := lt_of_lt_of_le hc s.clusters

theorem fatEntry_store (hc : c < v.totalClusters + 2) (h : v.fatAddr 0 c + 4 ≤ a ∨ a + b.length ≤ v.fatAddr 0 c) :
    v.fatEntry (d.store a b) c = v.fatEntry d c := by
  have hlt := s.lt hc
  rw [s.fatEntry_eq hlt, s.fatEntry_eq hlt, AtaDrive.content_store_of_disjoint h]
  rfl

theorem returns_writeCluster (hc : v.Valid c) (b : Bytes) :
    (v.writeCluster c b).Returns d fun _ d' => v.Regular → v.SameFat d d' := by
  rw [writeCluster, s.clusterLba_eq hc]
  refine .lift_bind (.of_not_panics not_panics_ok) fun lba hlba => ?_
  cases hlba
  refine returns_writeSectors.mono fun _ d' hd g c' hc' => ?_
  rw [hd.2]
  refine fatEntry_store s hc' (.inl ?_)
  have h1 : v.fatSectors ≤ v.numFats * v.fatSectors := Nat.le_mul_of_pos_left _ s.fats_pos
  have h2 := g.covers
  simp only [fatAddr, sectorSize, zero_mul, add_zero] at *
  omega

theorem returns_readCluster (hc : v.Valid c) :
    (Prog.read (v.readCluster · c)).Returns d fun b d' => d' = d ∧ b.length = v.clusterBytes := by
  refine .read ?_
  rw [readCluster, s.clusterLba_eq hc, ok_bind]
  refine gives_readSectors.mono fun b hb => ⟨rfl, ?_⟩
  rw [hb.2, AtaDrive.length_content]
  rfl

include g

theorem fatSet_store (hc : c < v.totalClusters + 2) (hx : x < 2 ^ 32) (f : Nat) :
    v.FatSet c x d (d.store (v.fatAddr f c) (toLe 4 x)) := by
  cases f with
  | zero =>
    refine ⟨?_, fun c' hc' hne => fatEntry_store s hc' ?_⟩
    · have hself := AtaDrive.content_store_self (d := d) (a := v.fatAddr 0 c) (b := toLe 4 x)
      rw [length_toLe] at hself
      rw [s.fatEntry_eq (s.lt hc), s.fatEntry_eq (s.lt hc), hself, ofLe_toLe _ _ (by simpa using hx)]
      by_cases hr : d.InRange (v.partStart + v.reserved + c * 4 / sectorSize) 1
      · exact .inr (if_pos (AtaDrive.inRange_store.mpr hr))
      · exact .inl (by rw [if_neg (mt AtaDrive.inRange_store.mp hr), if_neg hr])
    · simp only [fatAddr, length_toLe]
      omega
  | succ f =>
    -- A mirror copy lies behind the first one.
    have hbehind {c' : Nat} (hc' : c' < v.totalClusters + 2) : v.fatAddr 0 c' + 4 ≤ v.fatAddr (f + 1) c := by
      have h1 := g.covers
      simp only [fatAddr, sectorSize, Nat.zero_mul, Nat.add_zero, Nat.succ_mul] at *
      omega
    exact ⟨.inl (fatEntry_store s hc (.inl (hbehind hc))), fun c' hc' _ => fatEntry_store s hc' (.inl (hbehind hc'))⟩

omit g in
theorem returns_setFatCopy (hc : c < 2 ^ 32) (hf : f < v.numFats) :
    (v.setFatCopy c x f).Returns d fun _ d' => d' = d.store (v.fatAddr f c) (toLe 4 x) := by
  have ha : (v.partStart + v.reserved + f * v.fatSectors + c * 4 / sectorSize) * sectorSize +
      c * 4 % sectorSize = v.fatAddr f c := by
    simp only [fatAddr, sectorSize]
    omega
  have ho : c * 4 % sectorSize + (toLe 4 x).length ≤ 1 * sectorSize := by
    simp only [sectorSize, length_toLe]
    omega
  rw [setFatCopy, s.fatLba_eq hc (le_of_lt hf)]
  refine .lift_bind (.of_not_panics not_panics_ok) fun lba hlba => ?_
  cases hlba
  refine .read_bind gives_readSectors fun sec hsec => returns_writeSectors.mono fun _ d' hd => ?_
  have hlen : (sec.patch (c * 4 % sectorSize) (toLe 4 x)).length = 1 * sectorSize := by
    rw [hsec.2, length_patch (by simpa using ho), AtaDrive.length_content]
  rw [hd.2, take_of_length_le (le_of_eq hlen), hsec.2, AtaDrive.store_patch ho, ha]

omit g in
theorem returns_setFatCopies (hc : c < 2 ^ 32) (hx : x < 2 ^ 32) (fs : List Nat) (hf : ∀ f ∈ fs, f < v.numFats) :
    (v.setFatCopies c x fs).Returns d fun _ d' => v.Regular → c < v.totalClusters + 2 → v.FatSet c x d d' := by
  induction fs generalizing d with
  | nil => exact .pure fun _ _ => .refl
  | cons f fs hi =>
    refine (returns_setFatCopy s hc (hf f (mem_cons_self ..))).bind fun _ d1 hd => ?_
    refine (hi fun f hf' => hf f (mem_cons_of_mem _ hf')).mono fun _ d' h g hlt => ?_
    exact (hd ▸ fatSet_store s g hlt hx f).trans (h g hlt)

omit g in
theorem returns_setFatEntry (hc : c < 2 ^ 32) (hx : x < 2 ^ 32) :
    (v.setFatEntry c x).Returns d fun _ d' => v.Regular → c < v.totalClusters + 2 → v.FatSet c x d d' :=
  returns_setFatCopies s hc hx _ fun _ hf => mem_range.mp hf

end effects

def Link (v : Fat32) (d : AtaDrive) (c n : Nat) : Prop := v.nextCluster d c = .ok (some n)

-- Following the links from a cluster leads only to clusters of the data region.
def InBounds (v : Fat32) (d : AtaDrive) (a : Nat) : Prop := ∀ c, Relation.ReflTransGen (v.Link d) a c → v.Valid c

-- What was in bounds still is.
def Widens (v : Fat32) (d d' : AtaDrive) : Prop := ∀ a, v.InBounds d a → v.InBounds d' a

theorem linkOf_eq_some (h : linkOf x = .ok (some n)) : n = x % 2 ^ 28 := by
  unfold linkOf at h
  simp only at h
  split_ifs at h
  · cases h
  · cases h
  · exact (Option.some.inj (Except.ok.inj h)).symm

theorem link_iff : v.Link d c n ↔ ∃ x, v.fatEntry d c = .ok x ∧ linkOf x = .ok (some n) :=
  bind_eq_ok

theorem link_lt (h : v.Link d c n) : n < 2 ^ 32 := by
  have ⟨x, _, hx⟩ := link_iff.mp h
  rw [linkOf_eq_some hx]
  omega

theorem linked_congr (h : v.fatEntry d' c = v.fatEntry d c) : v.Link d' c n ↔ v.Link d c n := by
  rw [link_iff, link_iff, h]

theorem InBounds.valid (h : v.InBounds d a) : v.Valid a := h a .refl

theorem InBounds.next (h : v.InBounds d a) (hl : v.Link d a n) : v.InBounds d n := fun c hc => h c (.head hl hc)

-- The rule for showing it: a set of clusters of the data region that no link leads out of.
theorem inBounds_of_closed {C : Nat → Prop} (hv : ∀ c, C c → v.Valid c) (hl : ∀ c n, C c → v.Link d c n → C n) (ha : C a) :
    v.InBounds d a := by
  intro c hc
  refine hv c ?_
  induction hc with
  | refl => exact ha
  | tail _ hlink hi => exact hl _ _ hi hlink

theorem Widens.refl : v.Widens d d := fun _ h => h

theorem Widens.trans (h1 : v.Widens d d1) (h2 : v.Widens d1 d') : v.Widens d d' := fun a h => h2 a (h1 a h)

theorem FatSet.widens (h : v.FatSet c x d d') (hx : ∀ n, linkOf x = .ok (some n) → v.InBounds d n) : v.Widens d d' := by
  intro a ha
  refine inBounds_of_closed (C := v.InBounds d) (fun c => InBounds.valid) (fun c' n hc hl => ?_) ha
  by_cases heq : c' = c
  · subst heq
    rcases h.self with hsame | hnew
    · exact hc.next ((linked_congr hsame).mp hl)
    have ⟨y, hy, hlink⟩ := link_iff.mp hl
    cases hnew.symm.trans hy
    exact hx n hlink
  · exact hc.next ((linked_congr (h.other c' hc.valid.2 heq)).mp hl)

theorem SameFat.widens (h : v.SameFat d d') : v.Widens d d' := by
  intro a ha
  exact inBounds_of_closed (C := v.InBounds d) (fun c => InBounds.valid)
    (fun c n hc hl => hc.next ((linked_congr (h c hc.valid.2)).mp hl)) ha

section walk

variable {k : Nat} {cs : List Nat}

theorem mem_walkFrom {C : Nat → Prop} (hl : ∀ c n, C c → v.Link d c n → C n) (ha : C a) (h : v.walkFrom d k a = .ok cs) :
    ∀ c ∈ cs, C c := by
  induction k generalizing a cs with
  | zero =>
    cases h
    exact forall_mem_singleton.mpr ha
  | succ k hi =>
    have ⟨o, ho, h⟩ := bind_eq_ok.mp h
    cases o with
    | none =>
      cases h
      exact forall_mem_singleton.mpr ha
    | some n =>
      have ⟨cs', hcs, h⟩ := bind_eq_ok.mp h
      cases h
      exact forall_mem_cons.mpr ⟨ha, hi (hl a n ha ho) hcs⟩

theorem walkFrom_inBounds (ha : v.InBounds d a) (h : v.walkFrom d k a = .ok cs) : ∀ c ∈ cs, v.InBounds d c :=
  mem_walkFrom (fun _ _ => InBounds.next) ha h

theorem not_panics_walkFrom (s : v.Sized) (ha : a < 2 ^ 32) : ¬Panics (v.walkFrom d k a) := by
  induction k generalizing a with
  | zero => exact not_panics_ok
  | succ k hi =>
    rw [walkFrom, panics_bind]
    rintro (h | ⟨o, ho, h⟩)
    · rcases panics_bind.mp h with h | ⟨x, _, h⟩
      · exact s.not_panics_fatEntry ha h
      unfold linkOf at h
      simp only at h
      split_ifs at h
      all_goals cases h
    · cases o with
      | none => cases h
      | some n =>
        rcases panics_bind.mp h with h | ⟨_, _, h⟩
        · exact hi (link_lt ho) h
        · cases h

theorem walkFrom_congr (hl : ∀ c o, v.nextCluster d c = .ok o → c ∈ cs → v.nextCluster d' c = .ok o)
    (h : v.walkFrom d k a = .ok cs) : v.walkFrom d' k a = .ok cs := by
  induction k generalizing a cs with
  | zero => exact h
  | succ k hi =>
    have ⟨o, ho, h⟩ := bind_eq_ok.mp h
    cases o with
    | none =>
      cases h
      rw [walkFrom, hl a none ho (mem_singleton_self a)]
      rfl
    | some n =>
      have ⟨cs', hcs, h⟩ := bind_eq_ok.mp h
      cases h
      rw [walkFrom, hl a (some n) ho (mem_cons_self ..), ok_bind]
      simp only [hi (fun c o hc hm => hl c o hc (mem_cons_of_mem _ hm)) hcs]
      rfl

end walk

section alloc

variable {prev : Option Nat} {cs : List Nat} {k : Nat}

theorem gives_findFree (s : v.Sized) (hcs : ∀ c ∈ cs, c < 2 ^ 32) :
    Gives (v.findFree d cs) fun o => ∀ c, o = some c → c ∈ cs ∧ v.fatEntry d c = .ok 0 := by
  induction cs with
  | nil => exact .ok nofun
  | cons x cs hi =>
    refine (Gives.of_not_panics (s.not_panics_fatEntry (hcs x (mem_cons_self ..)))).bind fun y hy => ?_
    split_ifs with hz
    · refine .ok fun c hc => ?_
      cases hc
      exact ⟨mem_cons_self .., hz ▸ hy⟩
    · refine (hi fun c hc => hcs c (mem_cons_of_mem _ hc)).mono fun o ho c hc => ?_
      exact (ho c hc).imp_left (mem_cons_of_mem _)

theorem returns_allocCluster (s : v.Sized) (g : v.Regular) (hp : ∀ p ∈ prev, v.Valid p) :
    (v.allocCluster prev).Returns d fun c d' => v.Valid c ∧ v.fatEntry d c = .ok 0 ∧
      ∃ d1, v.FatSet c eoc d d1 ∧ (prev = none ∧ d' = d1 ∨ ∃ p, prev = some p ∧ v.FatSet p c d1 d') := by
  have hmem {c : Nat} (hc : c ∈ List.range' 2 v.totalClusters) : v.Valid c := by
    have := mem_range'_1.mp hc
    exact ⟨this.1, by omega⟩
  refine .read_bind (gives_findFree s fun c hc => s.lt (hmem hc).2) fun o ho => ?_
  cases o with
  | none => exact .fail
  | some c =>
    obtain ⟨hc, h0⟩ := ho c rfl
    have hlt := s.lt (hmem hc).2
    refine (returns_setFatEntry s hlt (by decide : eoc < 2 ^ 32)).bind fun _ d1 h1 => ?_
    cases prev with
    | none => exact .pure ⟨hmem hc, h0, d1, h1 g (hmem hc).2, .inl ⟨rfl, rfl⟩⟩
    | some p =>
      have hpv := (hp p rfl).2
      refine (returns_setFatEntry s (s.lt hpv) hlt).bind fun _ d2 h2 => ?_
      exact .pure ⟨hmem hc, h0, d1, h1 g (hmem hc).2, .inr ⟨p, rfl, h2 g hpv⟩⟩

theorem linkOf_eoc : linkOf eoc = .ok none := by decide

theorem not_link_eoc : linkOf eoc ≠ .ok (some n) := by
  rw [linkOf_eoc]
  exact fun h => nomatch Except.ok.inj h

theorem FatSet.inBounds_self (h : v.FatSet c eoc d d') (hc : v.Valid c) (h0 : v.fatEntry d c = .ok 0) : v.InBounds d' c := by
  refine inBounds_of_closed (C := (· = c)) (fun x hx => hx ▸ hc) (fun x n hx hl => ?_) rfl
  subst hx
  have ⟨y, hy, hlink⟩ := link_iff.mp hl
  rcases h.self with hsame | hnew
  · cases (hsame.trans h0).symm.trans hy
    cases hlink
  · cases hnew.symm.trans hy
    exact absurd hlink not_link_eoc

theorem widens_allocCluster (s : v.Sized) (g : v.Regular) (hp : ∀ p ∈ prev, v.Valid p) :
    (v.allocCluster prev).Returns d fun c d' => v.Widens d d' ∧ v.InBounds d' c := by
  refine (returns_allocCluster s g hp).mono fun c d' ⟨hc, h0, d1, h1, hrest⟩ => ?_
  have hw := h1.widens fun n hn => absurd hn not_link_eoc
  have hself := h1.inBounds_self hc h0
  rcases hrest with ⟨_, rfl⟩ | ⟨p, _, h2⟩
  · exact ⟨hw, hself⟩
  have hw2 : v.Widens _ d' := h2.widens fun n hn => by
    have : c % 2 ^ 28 = c := Nat.mod_eq_of_lt (by have := hc.2; have := g.links; omega)
    rw [linkOf_eq_some hn, this]
    exact hself
  exact ⟨hw.trans hw2, hw2 c hself⟩

theorem widens_setFatEntry (s : v.Sized) (hc : c < 2 ^ 32) (hx : x = 0 ∨ x = eoc) :
    (v.setFatEntry c x).Returns d fun _ d' => v.Regular → v.Valid c → v.Widens d d' := by
  have hlt : x < 2 ^ 32 := by
    rcases hx with rfl | rfl <;> decide
  refine (returns_setFatEntry s hc hlt).mono fun _ d' h g hv => (h g hv.2).widens fun n hn => ?_
  rcases hx with rfl | rfl
  · cases hn
  · exact absurd hn not_link_eoc

theorem widens_freeAll (s : v.Sized) (hcs : ∀ c ∈ cs, c < 2 ^ 32) :
    (v.freeAll cs).Returns d fun _ d' => v.Regular → (∀ c ∈ cs, v.Valid c) → v.Widens d d' := by
  induction cs generalizing d with
  | nil => exact .pure fun _ _ => .refl
  | cons x cs hi =>
    refine (widens_setFatEntry s (hcs x (mem_cons_self ..)) (.inl rfl)).bind fun _ d1 h1 => ?_
    refine (hi fun c hc => hcs c (mem_cons_of_mem _ hc)).mono fun _ d' h2 g hv => ?_
    exact (h1 g (hv x (mem_cons_self ..))).trans (h2 g fun c hc => hv c (mem_cons_of_mem _ hc))

theorem widens_freeFrom (s : v.Sized) (ha : a < 2 ^ 32) (hk : ∀ cs, v.walkChain d a v.totalClusters = .ok cs → k ≤ cs.length) :
    (v.freeFrom a k).Returns d fun _ d' => v.Regular → v.InBounds d a → v.Widens d d' := by
  refine .read_bind (.of_not_panics (not_panics_walkFrom s ha)) fun cs hcs => ?_
  have hlt : ∀ c ∈ cs, c < 2 ^ 32 := mem_walkFrom (fun _ _ _ => link_lt) ha hcs
  have hv (hb : v.InBounds d a) : ∀ c ∈ cs, v.Valid c := fun c hc => (walkFrom_inBounds hb hcs c hc).valid
  refine (widens_freeAll s fun c hc => hlt c (mem_of_mem_drop hc)).bind fun _ d1 h1 => ?_
  have hw (g : v.Regular) (hb : v.InBounds d a) : v.Widens d d1 := h1 g fun c hc => hv hb c (mem_of_mem_drop hc)
  split_ifs with hpos
  · have hlen := hk cs hcs
    have hget : cs[k - 1]? = some (cs[k - 1]) := getElem?_eq_getElem (by omega)
    rw [hget]
    refine (widens_setFatEntry s (hlt _ (getElem_mem _)) (.inr rfl)).mono fun _ d' h2 g hb => ?_
    exact (hw g hb).trans (h2 g (hv hb _ (getElem_mem _)))
  · exact .pure hw

theorem widens_grow (s : v.Sized) (g : v.Regular) (hcs : ∀ c ∈ cs, v.InBounds d c) : (v.grow k cs).Returns d fun cs' d' =>
    v.Widens d d' ∧ (∀ c ∈ cs', v.InBounds d' c) ∧ cs'.length = cs.length + k := by
  induction k generalizing cs d with
  | zero => exact .pure ⟨.refl, hcs, rfl⟩
  | succ k hi =>
    have hprev : ∀ p ∈ cs.getLast?, v.Valid p := fun p hp => (hcs p (mem_of_mem_getLast? hp)).valid
    refine (widens_allocCluster s g hprev).bind fun c d1 ⟨hw, hb⟩ => ?_
    have hcs1 : ∀ x ∈ cs ++ [c], v.InBounds d1 x :=
      forall_mem_append.mpr ⟨fun x hx => hw x (hcs x hx), forall_mem_singleton.mpr hb⟩
    refine (hi hcs1).mono fun cs' d' ⟨hw2, hcs2, hlen⟩ => ⟨hw.trans hw2, hcs2, ?_⟩
    rw [hlen, length_append, length_singleton]
    omega

def IsChain (v : Fat32) (d : AtaDrive) (a : Nat) (cs : List Nat) : Prop :=
  a = 0 ∧ cs = [] ∨ v.InBounds d a ∧ v.walkChain d a v.totalClusters = .ok cs

theorem IsChain.inBounds (h : v.IsChain d a cs) : ∀ c ∈ cs, v.InBounds d c := by
  rcases h with ⟨_, rfl⟩ | ⟨ha, hcs⟩
  · exact fun _ hc => absurd hc not_mem_nil
  · exact walkFrom_inBounds ha hcs

theorem widens_fitChain (s : v.Sized) (g : v.Regular) (hc : v.IsChain d a cs) : (v.fitChain a cs need).Returns d fun cs' d' =>
    v.Widens d d' ∧ (∀ c ∈ cs', v.InBounds d' c) ∧ cs'.length = need := by
  unfold fitChain
  by_cases hlong : need < cs.length
  · -- nothing is appended, and the rest of the chain is freed
    have hgrow : v.grow (need - cs.length) cs = pure cs := by
      rw [Nat.sub_eq_zero_of_le (Nat.le_of_lt hlong)]
      rfl
    rw [hgrow, pure_bind, if_pos hlong]
    rcases hc with ⟨_, rfl⟩ | ⟨ha, hcs⟩
    · exact absurd hlong (Nat.not_lt_zero _)
    have hkeep : ∀ cs', v.walkChain d a v.totalClusters = .ok cs' → need ≤ cs'.length := fun cs' hcs' => by
      cases hcs.symm.trans hcs'
      exact le_of_lt hlong
    refine (widens_freeFrom s (s.lt ha.valid.2) hkeep).bind fun _ d' hw => .pure ⟨hw g ha, fun c hc => ?_, ?_⟩
    · exact hw g ha c (walkFrom_inBounds ha hcs c (mem_of_mem_take hc))
    · exact length_take_of_le (le_of_lt hlong)
  · refine (widens_grow s g hc.inBounds).bind fun cs' d' ⟨hw, hcs', hlen⟩ => ?_
    rw [if_neg (by omega)]
    exact .pure ⟨hw, hcs', by omega⟩

end alloc

end Fat32
