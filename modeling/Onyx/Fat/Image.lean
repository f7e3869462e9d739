import Onyx.Fat.WellFormed

-- Laying a volume out on a drive, so that every volume is one that some drive holds.

open Lib Fat List Bytes

namespace Fat32

open AtaDrive (sectorSize)

variable (v : Fat32)

-- The conditions on a volume descriptor and a volume that do not depend on a drive.
structure Fits (V : Vol) : Prop where
  spc_pos : 0 < v.sectorsPerCluster
  spc_le : v.sectorsPerCluster ≤ 16
  fats_pos : 0 < v.numFats
  fat_covers : (v.totalClusters + 2) * 4 ≤ v.fatSectors * sectorSize
  links : v.totalClusters + 2 ≤ 0x0FFFFFF8
  end_lt : v.partStart +
    (v.reserved + v.numFats * v.fatSectors + v.totalClusters * v.sectorsPerCluster) < 2 ^ 64
  fat_lt : ∀ c, V.fat c < 2 ^ 32
  fat_out : ∀ c, v.totalClusters + 2 ≤ c → V.fat c = 0
  data_len : ∀ {c}, v.Valid c → (V.data c).length = v.clusterBytes
  data_out : ∀ {c}, ¬ v.Valid c → V.data c = []

-- A drive that ends with the volume. All FAT copies are the same.
def image (V : Vol) : AtaDrive where
  totalSectors := v.partStart +
    (v.reserved + v.numFats * v.fatSectors + v.totalClusters * v.sectorsPerCluster)
  lba48 := true
  bytes a :=
    if v.clusterAddr 2 ≤ a then
      (V.data (2 + (a - v.clusterAddr 2) / v.clusterBytes)).getD ((a - v.clusterAddr 2) % v.clusterBytes) 0
    else
      let i := (a - v.fatAddr 0 0) % (v.fatSectors * sectorSize)
      (toLe 4 (V.fat (i / 4))).getD (i % 4) 0

variable {v} {V : Vol} {c : Nat}

theorem geometry_image (f : v.Fits V) : v.Geometry (v.image V) where
  spc_pos := f.spc_pos
  spc_le := f.spc_le
  fats_pos := f.fats_pos
  fat_covers := f.fat_covers
  links := f.links
  in_drive := by
    have := f.fat_covers
    have h1 : 1 * v.fatSectors ≤ v.numFats * v.fatSectors := Nat.mul_le_mul_right _ f.fats_pos
    refine ⟨f.end_lt, ?_, .inr rfl⟩
    simp only [image, sectorSize] at *
    omega

theorem content_image_fat (f : v.Fits V) (hc : c < v.totalClusters + 2) :
    (v.image V).content (v.fatAddr 0 c) 4 = toLe 4 (V.fat c) := by
  have g := geometry_image f
  have hle := fatAddr_add_le_clusterAddr g hc f.fats_pos 2
  have hcov := f.fat_covers
  apply ext_getElem?
  intro i
  rw [AtaDrive.getElem?_content]
  split_ifs with hi
  · have h1 : v.fatAddr 0 c + i - v.fatAddr 0 0 = c * 4 + i := by
      simp only [fatAddr]
      omega
    have h₂ : (c * 4 + i) % (v.fatSectors * sectorSize) = c * 4 + i := Nat.mod_eq_of_lt (by omega)
    have h3 : (c * 4 + i) / 4 = c := by omega
    have h4 : (c * 4 + i) % 4 = i := by omega
    simp only [image]
    rw [if_neg (by omega), h1, h₂, h3, h4, getD_eq_getElem?_getD, getElem?_eq_getElem (by simpa using hi)]
    rfl
  · rw [getElem?_eq_none (by rw [length_toLe]; omega)]

theorem content_image_cluster (f : v.Fits V) (hc : v.Valid c) :
    (v.image V).content (v.clusterAddr c) v.clusterBytes = V.data c := by
  have hl := f.data_len hc
  have hp : 0 < v.clusterBytes := Nat.mul_pos f.spc_pos (by decide)
  have ha : v.clusterAddr c = v.clusterAddr 2 + (c - 2) * v.clusterBytes := by
    simp [clusterAddr, clusterBytes, Nat.add_mul, Nat.mul_assoc]
  apply ext_getElem?
  intro i
  rw [AtaDrive.getElem?_content]
  split_ifs with hi
  · have h1 : v.clusterAddr c + i - v.clusterAddr 2 = i + (c - 2) * v.clusterBytes := by omega
    have h₂ : 2 + (c - 2) = c := by have := hc.1; omega
    simp only [image]
    rw [if_pos (by omega), h1, Nat.add_mul_div_right _ _ hp, Nat.div_eq_of_lt hi, Nat.zero_add, h₂,
      Nat.add_mul_mod_self_right, Nat.mod_eq_of_lt hi, getD_eq_getElem?_getD,
      getElem?_eq_getElem (by omega)]
    rfl
  · rw [getElem?_eq_none (by omega)]

theorem shows_image (f : v.Fits V) : v.Shows (v.image V) V := by
  refine ⟨geometry_image f, ?_⟩
  ext1
  · funext c
    simp only [vol]
    split_ifs with hc
    · rw [content_image_fat f hc, ofLe_toLe _ _ (f.fat_lt c)]
    · exact (f.fat_out c (by omega)).symm
  · funext c
    simp only [vol]
    split_ifs with hc
    · exact content_image_cluster f hc
    · exact (f.data_out hc).symm

-- A small volume: four clusters of one sector, the first one the root directory.
def small : Fat32 where
  partStart := 0
  sectorsPerCluster := 1
  reserved := 1
  numFats := 1
  fatSectors := 1
  rootCluster := 2
  totalClusters := 4

-- Its contents: the FAT, the slots of the root directory and the other clusters.
def smallVol (fat : List Nat) (slots : List Bytes) (rest : Nat → Bytes) : Vol where
  fat c := fat.getD c 0
  data c :=
    if c = 2 then (slots ++ replicate (16 - slots.length) (replicate 32 0)).flatten
    else if small.Valid c then rest c else []

section small

variable {fat : List Nat} {slots : List Bytes} {rest : Nat → Bytes}

theorem slots_smallVol (h : ∀ s ∈ slots, s.length = 32) : (smallVol fat slots rest).slots [2] =
      slots ++ replicate (16 - slots.length) (replicate 32 0) := by
  have hd : (smallVol fat slots rest).data 2 =
      (slots ++ replicate (16 - slots.length) (replicate 32 0)).flatten := by simp [smallVol]
  rw [Vol.slots, flatMap_cons, flatMap_nil, append_nil, hd]
  refine slotsOf_flatten fun s hs => ?_
  cases mem_append.mp hs with
  | inl hs => exact h s hs
  | inr hs => rw [eq_of_mem_replicate hs]; rfl

theorem fits_small (hf : ∀ x ∈ fat, x < 2 ^ 32) (hl : fat.length ≤ 6) (hs : ∀ s ∈ slots, s.length = 32)
    (hn : slots.length ≤ 16) (hr : ∀ c, (rest c).length = 512) : small.Fits (smallVol fat slots rest) where
  spc_pos := by decide
  spc_le := by decide
  fats_pos := by decide
  fat_covers := by decide
  links := by decide
  end_lt := by decide
  fat_lt c := by
    by_cases hc : c < fat.length
    · simpa [smallVol, hc] using hf _ (getElem_mem hc)
    · simp [smallVol, hc]
  fat_out c hc := by
    have hc : 6 ≤ c := hc
    simp [smallVol, getElem?_eq_none (by omega : fat.length ≤ c)]
  data_len {c} hc := by
    simp only [smallVol, hc, if_true]
    split_ifs
    · have hz : ((replicate (16 - slots.length) (replicate 32 (0 : UInt8))).map length).sum =
          (16 - slots.length) * 32 := by simp
      have hs' : (slots.map length).sum = slots.length * 32 := by
        rw [map_congr_left hs]
        simp
      rw [length_flatten, map_append, sum_append, hz, hs']
      show _ = 512
      omega
    · exact hr c
  data_out {c} hc := by
    have hne : c ≠ 2 := fun he => hc (he ▸ by decide)
    simp [smallVol, hne, hc]

theorem chain_small (h : fat.getD 2 0 = eoc) : (smallVol fat slots rest).Chain 2 [2] := by
  refine .last ?_
  simp only [Vol.link, smallVol, h]
  rfl

section

variable (f : small.Fits (smallVol fat slots rest)) (hs : ∀ s ∈ slots, s.length = 32)
variable (h2 : fat.getD 2 0 = eoc)
include f hs h2

theorem wf_small (hd : L.dirs = {2}) (hp : L.parent 2 = none) (ho : L.owner 2 = some (.dir 2))
    (hv : ∀ {c o}, L.owner c = some o → small.Valid c) (hn : ∀ s ∈ slots, isDot s = false)
    (he : ∀ {i slot}, slots[i]? = some slot → isLive slot = true →
      small.EntryOk (smallVol fat slots rest) L 2 i slot) : small.Wf (smallVol fat slots rest) L := by
  have hslot {h cs} {i : Nat} {slot : Bytes} (hh : h ∈ L.dirs) (hc : (smallVol fat slots rest).Chain h cs)
      (hi : ((smallVol fat slots rest).slots cs)[i]? = some slot) (hl : isLive slot = true) :
      h = 2 ∧ slots[i]? = some slot := by
    rw [hd] at hh
    cases hh
    cases hc.unique (chain_small h2)
    rw [slots_smallVol hs, getElem?_append] at hi
    split_ifs at hi
    · exact ⟨rfl, hi⟩
    have hz := eq_of_mem_replicate (mem_of_getElem? hi)
    rw [hz] at hl
    exact absurd hl (by decide)
  refine ⟨f.data_len, f.spc_pos, hv, hd ▸ rfl, hp, ?_, ?_, ?_⟩
  · intro h hh
    rw [hd] at hh
    cases hh
    exact ⟨[2], chain_small h2, by simpa using ho⟩
  · intro h cs i slot hh hc hi hl _
    have ⟨h2, hi⟩ := hslot hh hc hi hl
    exact h2 ▸ he hi hl
  · intro h cs i slot hh hc hi hl hdot
    have ⟨_, hi⟩ := hslot hh hc hi hl
    have := hn slot (mem_of_getElem? hi)
    simp [this] at hdot

def rootLayout : Layout where
  dirs := {2}
  owner c := if c = 2 then some (.dir 2) else none
  parent _ := none

theorem wf_root (hn : ∀ s ∈ slots, isDot s = false)
    (he : ∀ s ∈ slots, slotFirst s = 0 ∧ slotSize s = 0) : small.Wf (smallVol fat slots rest) rootLayout := by
  refine wf_small f hs h2 rfl rfl rfl ?_ hn ?_
  · intro c o h
    simp only [rootLayout] at h
    split_ifs at h with h1
    exact h1 ▸ by decide
  · intro i slot hi _
    have := he slot (mem_of_getElem? hi)
    exact .empty this.1 fun _ => this.2

end

end small

end Fat32
