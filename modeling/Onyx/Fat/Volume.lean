import Onyx.Fat.Basic
import Onyx.Lib.Simulation

-- A volume as the driver sees it: FAT entries and cluster contents.

open Lib Bytes

@[ext]
structure Vol where
  fat : Nat → Nat
  data : Nat → Bytes

namespace Vol

def setFat (V : Vol) (c x : Nat) : Vol := { V with fat := Function.update V.fat c x }

def setData (V : Vol) (c : Nat) (b : Bytes) : Vol := { V with data := Function.update V.data c b }

variable {V : Vol} {c c' x : Nat} {b : Bytes}

@[simp]
theorem setFat_fat_self : (V.setFat c x).fat c = x := by
  simp [setFat]

theorem setFat_fat_of_ne (h : c' ≠ c) : (V.setFat c x).fat c' = V.fat c' := by
  simp [setFat, h]

@[simp]
theorem setFat_data : (V.setFat c x).data = V.data :=
  rfl

@[simp]
theorem setData_fat : (V.setData c b).fat = V.fat :=
  rfl

@[simp]
theorem setData_data_self : (V.setData c b).data c = b := by
  simp [setData]

theorem setData_data_of_ne (h : c' ≠ c) : (V.setData c b).data c' = V.data c' := by
  simp [setData, h]

end Vol

namespace Fat32

open AtaDrive (sectorSize)

variable (v : Fat32)

-- The clusters of the data region.
def Valid (c : Nat) : Prop := 2 ≤ c ∧ c < v.totalClusters + 2

instance (c : Nat) : Decidable (v.Valid c) := inferInstanceAs (Decidable (_ ∧ _))

structure Geometry (d : AtaDrive) : Prop where
  spc_pos : 0 < v.sectorsPerCluster
  spc_le : v.sectorsPerCluster ≤ 16
  fats_pos : 0 < v.numFats
  fat_covers : (v.totalClusters + 2) * 4 ≤ v.fatSectors * sectorSize
  links : v.totalClusters + 2 ≤ 0x0FFFFFF8
  in_drive : d.InRange v.partStart
    (v.reserved + v.numFats * v.fatSectors + v.totalClusters * v.sectorsPerCluster)

def fatAddr (f c : Nat) : Nat := (v.partStart + v.reserved + f * v.fatSectors) * sectorSize + c * 4

def clusterAddr (c : Nat) : Nat :=
  (v.partStart + v.reserved + v.numFats * v.fatSectors + (c - 2) * v.sectorsPerCluster) * sectorSize

def vol (d : AtaDrive) : Vol where
  fat c := if c < v.totalClusters + 2 then ofLe (d.content (v.fatAddr 0 c) 4) else 0
  data c := if v.Valid c then d.content (v.clusterAddr c) v.clusterBytes else []

variable {v} {d : AtaDrive} {c f : Nat}

theorem readSectors_eq (h : d.InRange lba count) :
    readSectors d lba count = .ok (d.content (lba * sectorSize) (count * sectorSize)) := by
  simp [readSectors, AtaDrive.readSectors, h]

theorem writeSectors_run (h : d.InRange lba count) (hb : b.length = count * sectorSize) :
    (writeSectors lba count b).run d = (.ok (), d.store (lba * sectorSize) b) := by
  simp [writeSectors, AtaDrive.writeSectors, h, ← hb]

namespace Geometry

theorem store (g : v.Geometry d) : v.Geometry (d.store a b) :=
  ⟨g.spc_pos, g.spc_le, g.fats_pos, g.fat_covers, g.links, g.in_drive⟩

theorem lt_two_pow (g : v.Geometry d)
    (h : n ≤ v.reserved + v.numFats * v.fatSectors + v.totalClusters * v.sectorsPerCluster) :
    v.partStart + n < 2 ^ 64 :=
  Nat.lt_of_le_of_lt (Nat.add_le_add_left h _) g.in_drive.1

theorem fat_sector (g : v.Geometry d) (hc : c < v.totalClusters + 2) (hf : f < v.numFats) :
    v.reserved + f * v.fatSectors + c * 4 / sectorSize + 1 ≤ v.reserved + v.numFats * v.fatSectors := by
  have h1 : c * 4 / sectorSize < v.fatSectors := by
    have := g.fat_covers
    exact Nat.div_lt_of_lt_mul (by rw [Nat.mul_comm sectorSize]; omega)
  have h2 : (f + 1) * v.fatSectors ≤ v.numFats * v.fatSectors := Nat.mul_le_mul_right _ hf
  rw [Nat.succ_mul] at h2
  omega

theorem cluster_sectors (hc : v.Valid c) :
    (c - 2) * v.sectorsPerCluster + v.sectorsPerCluster ≤ v.totalClusters * v.sectorsPerCluster := by
  rw [← Nat.succ_mul]
  exact Nat.mul_le_mul_right _ (by have := hc.1; have := hc.2; omega)

theorem clusterLba_eq (g : v.Geometry d) (hc : v.Valid c) :
    v.clusterLba c = .ok (v.partStart + v.reserved + v.numFats * v.fatSectors + (c - 2) * v.sectorsPerCluster) := by
  have h := cluster_sectors hc
  have := g.lt_two_pow
    (n := v.reserved + v.numFats * v.fatSectors + (c - 2) * v.sectorsPerCluster) (by omega)
  have hlt : v.partStart + v.reserved + v.numFats * v.fatSectors +
      (c - 2) * v.sectorsPerCluster < 2 ^ 64 := by omega
  rw [clusterLba, checkedSub_of_le hc.1, ok_bind, checked_of_lt hlt]

theorem cluster_inRange (g : v.Geometry d) (hc : v.Valid c) :
    d.InRange (v.partStart + v.reserved + v.numFats * v.fatSectors +
      (c - 2) * v.sectorsPerCluster) v.sectorsPerCluster :=
  g.in_drive.mono (by have := cluster_sectors hc; omega) g.spc_pos

theorem fatLba_eq (g : v.Geometry d) (hc : c < v.totalClusters + 2) (hf : f < v.numFats) :
    v.fatLba f c = .ok (v.partStart + v.reserved + f * v.fatSectors + c * 4 / sectorSize) := by
  have h := g.fat_sector hc hf
  have := g.lt_two_pow (n := v.reserved + f * v.fatSectors + c * 4 / sectorSize) (by omega)
  exact checked_of_lt (by omega)

theorem fat_inRange (g : v.Geometry d) (hc : c < v.totalClusters + 2) (hf : f < v.numFats) :
    d.InRange (v.partStart + v.reserved + f * v.fatSectors + c * 4 / sectorSize) 1 :=
  g.in_drive.mono (by have := g.fat_sector hc hf; omega) Nat.one_pos

end Geometry

theorem readCluster_eq (g : v.Geometry d) (hc : v.Valid c) : v.readCluster d c = .ok ((v.vol d).data c) := by
  rw [readCluster, g.clusterLba_eq hc, ok_bind, readSectors_eq (g.cluster_inRange hc)]
  simp [vol, hc, clusterAddr, clusterBytes]

theorem fatEntry_eq (g : v.Geometry d) (hc : c < v.totalClusters + 2) : v.fatEntry d c = .ok ((v.vol d).fat c) := by
  have ha : (v.partStart + v.reserved + 0 * v.fatSectors + c * 4 / sectorSize) * sectorSize +
      c * 4 % sectorSize = v.fatAddr 0 c := by
    simp only [fatAddr, sectorSize]
    omega
  rw [fatEntry, g.fatLba_eq hc g.fats_pos, ok_bind,
    readSectors_eq (g.fat_inRange hc g.fats_pos), ok_bind, u32At,
    AtaDrive.slice_content (by simp only [sectorSize]; omega), ha]
  simp [vol, hc]
  rfl

theorem writeCluster_run (g : v.Geometry d) (hc : v.Valid c) (hb : b.length = v.clusterBytes) :
    (v.writeCluster c b).run d = (.ok (), d.store (v.clusterAddr c) b) := by
  rw [writeCluster, g.clusterLba_eq hc, lift_ok_bind_run, writeSectors_run (g.cluster_inRange hc) hb]
  rfl

section

variable (g : v.Geometry d) (hc : c < v.totalClusters + 2)
include g hc

theorem setFatCopy_run (hf : f < v.numFats) :
    (v.setFatCopy c x f).run d = (.ok (), d.store (v.fatAddr f c) (toLe 4 x)) := by
  have ha : (v.partStart + v.reserved + f * v.fatSectors + c * 4 / sectorSize) * sectorSize +
      c * 4 % sectorSize = v.fatAddr f c := by
    simp only [fatAddr, sectorSize]
    omega
  have ho : c * 4 % sectorSize + (toLe 4 x).length ≤ 1 * sectorSize := by
    simp only [sectorSize, length_toLe]
    omega
  rw [setFatCopy, g.fatLba_eq hc hf, lift_ok_bind_run, read_bind_run,
    readSectors_eq (g.fat_inRange hc hf), lift_ok_bind_run,
    writeSectors_run (g.fat_inRange hc hf)]
  · rw [AtaDrive.store_patch ho, ha]
  · rw [length_patch (by simpa using ho), AtaDrive.length_content]

theorem fatAddr_add_le_clusterAddr (hf : f < v.numFats) (c' : Nat) : v.fatAddr f c + 4 ≤ v.clusterAddr c' := by
  have h1 : (f + 1) * v.fatSectors ≤ v.numFats * v.fatSectors := Nat.mul_le_mul_right _ hf
  have h2 := g.fat_covers
  simp only [fatAddr, clusterAddr, sectorSize, Nat.succ_mul] at *
  omega

theorem fatAddr_succ_le (hf : f < f') : v.fatAddr f c + 4 ≤ v.fatAddr f' c' := by
  have h1 : (f + 1) * v.fatSectors ≤ f' * v.fatSectors := Nat.mul_le_mul_right _ hf
  have h2 := g.fat_covers
  simp only [fatAddr, sectorSize, Nat.succ_mul] at *
  omega

end

theorem clusterAddr_add_le (h : c < c') (hc : 2 ≤ c) : v.clusterAddr c + v.clusterBytes ≤ v.clusterAddr c' := by
  have h1 : (c - 2 + 1) * v.sectorsPerCluster ≤ (c' - 2) * v.sectorsPerCluster := Nat.mul_le_mul_right _ (by omega)
  simp only [clusterAddr, clusterBytes, sectorSize, Nat.succ_mul] at *
  omega

theorem vol_store_cluster (g : v.Geometry d) (hc : v.Valid c) (hb : b.length = v.clusterBytes) :
    v.vol (d.store (v.clusterAddr c) b) = (v.vol d).setData c b := by
  ext1
  · funext c'
    simp only [vol, Vol.setData_fat]
    split_ifs with hc'
    · have := fatAddr_add_le_clusterAddr g hc' g.fats_pos c
      rw [AtaDrive.content_store_of_disjoint (.inl this)]
    · rfl
  · funext c'
    by_cases h : c' = c
    · subst h
      rw [Vol.setData_data_self]
      simp only [vol, hc, if_true, ← hb]
      exact AtaDrive.content_store_self
    · rw [Vol.setData_data_of_ne h]
      simp only [vol]
      split_ifs with hc'
      · apply AtaDrive.content_store_of_disjoint
        cases Nat.lt_or_gt_of_ne h with
        | inl h => exact .inl (clusterAddr_add_le h hc'.1)
        | inr h => exact .inr (hb ▸ clusterAddr_add_le h hc.1)
      · rfl

theorem vol_store_fat_copy (g : v.Geometry d) (hc : c < v.totalClusters + 2) (hf : f < v.numFats)
    (h0 : 0 < f) : v.vol (d.store (v.fatAddr f c) (toLe 4 x)) = v.vol d := by
  ext1
  · funext c'
    simp only [vol]
    split_ifs with hc'
    · rw [AtaDrive.content_store_of_disjoint (.inl (fatAddr_succ_le g hc' h0))]
    · rfl
  · funext c'
    simp only [vol]
    split_ifs with hc'
    · have := fatAddr_add_le_clusterAddr g hc hf c'
      rw [AtaDrive.content_store_of_disjoint (.inr (by simpa using this))]
    · rfl

theorem vol_store_fat (g : v.Geometry d) (hc : c < v.totalClusters + 2) (hx : x < 2 ^ 32) :
    v.vol (d.store (v.fatAddr 0 c) (toLe 4 x)) = (v.vol d).setFat c x := by
  ext1
  · funext c'
    by_cases h : c' = c
    · subst h
      rw [Vol.setFat_fat_self]
      simp only [vol, hc, if_true]
      have := AtaDrive.content_store_self (d := d) (a := v.fatAddr 0 c') (b := toLe 4 x)
      rw [length_toLe] at this
      rw [this, ofLe_toLe _ _ (by simpa using hx)]
    · rw [Vol.setFat_fat_of_ne h]
      simp only [vol]
      split_ifs with hc'
      · rw [AtaDrive.content_store_of_disjoint]
        simp only [fatAddr, length_toLe]
        omega
      · rfl
  · funext c'
    simp only [vol, Vol.setFat_data]
    split_ifs with hc'
    · have := fatAddr_add_le_clusterAddr g hc g.fats_pos c'
      rw [AtaDrive.content_store_of_disjoint (.inr (by simpa using this))]
    · rfl

-- The drive holds the volume `V`.
structure Shows (v : Fat32) (d : AtaDrive) (V : Vol) : Prop where
  geometry : v.Geometry d
  vol : v.vol d = V

-- What a program of the driver does to the volume on the drive, and how it ends.
abbrev Does (v : Fat32) (p : FatM α) (V : Vol) (r : Result FsError α) (V' : Vol) : Prop :=
  Prog.Simulates v.Shows p V r V'

namespace Shows

variable {V : Vol}

theorem readCluster (h : v.Shows d V) (hc : v.Valid c) : v.readCluster d c = .ok (V.data c) :=
  h.vol ▸ readCluster_eq h.geometry hc

theorem fatEntry (h : v.Shows d V) (hc : c < v.totalClusters + 2) : v.fatEntry d c = .ok (V.fat c) :=
  h.vol ▸ fatEntry_eq h.geometry hc

theorem length_data (h : v.Shows d V) (hc : v.Valid c) : (V.data c).length = v.clusterBytes := by
  simp [← h.vol, Fat32.vol, hc]

end Shows

theorem Valid.lt (hc : v.Valid c) : c < v.totalClusters + 2 :=
  hc.2

theorem does_writeCluster (hc : v.Valid c) (hb : b.length = v.clusterBytes) :
    v.Does (v.writeCluster c b) V (.ok ()) (V.setData c b) :=
  fun _ h => ⟨_, writeCluster_run h.geometry hc hb, h.geometry.store, h.vol ▸ vol_store_cluster h.geometry hc hb⟩

section

variable (hc : c < v.totalClusters + 2) (hx : x < 2 ^ 32)
include hc hx

theorem does_setFatCopy (hf : f < v.numFats) :
    v.Does (v.setFatCopy c x f) V (.ok ()) (if f = 0 then V.setFat c x else V) := by
  intro d h
  refine ⟨_, setFatCopy_run h.geometry hc hf, h.geometry.store, ?_⟩
  split_ifs with h0
  · exact h0 ▸ h.vol ▸ vol_store_fat h.geometry hc hx
  · exact h.vol ▸ vol_store_fat_copy h.geometry hc hf (Nat.pos_of_ne_zero h0)

theorem does_setFatCopies (hf : ∀ f ∈ fs, f < v.numFats) :
    v.Does (v.setFatCopies c x fs) V (.ok ()) (if 0 ∈ fs then V.setFat c x else V) := by
  induction fs generalizing V with
  | nil => exact .pure
  | cons f fs hi =>
    have hfs := hi (V := if f = 0 then V.setFat c x else V) fun f hf' => hf f (.tail _ hf')
    have hV : (if 0 ∈ f :: fs then V.setFat c x else V) = if 0 ∈ fs
        then (if f = 0 then V.setFat c x else V).setFat c x else if f = 0 then V.setFat c x else V := by
      by_cases h1 : f = 0 <;> by_cases h2 : 0 ∈ fs <;>
        simp [h1, h2, Vol.setFat, eq_comm (a := (0 : Nat))]
    rw [hV]
    exact .bind (does_setFatCopy hc hx (hf f (.head _))) hfs

theorem does_setFatEntry : v.Does (v.setFatEntry c x) V (.ok ()) (V.setFat c x) := by
  intro d h
  have h0 : 0 ∈ List.range v.numFats := List.mem_range.mpr h.geometry.fats_pos
  have hd := does_setFatCopies (V := V) hc hx fun f (hf : f ∈ List.range v.numFats) => List.mem_range.mp hf
  rw [if_pos h0] at hd
  exact hd d h

end

end Fat32
