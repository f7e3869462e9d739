import Onyx.Fat.Volume
import Onyx.Lib.Linked

-- Cluster chains of a volume: walking, allocating and freeing.

open Lib Vol

namespace Vol

def link (V : Vol) (c : Nat) : Option (Option Nat) := (Fat32.linkOf (V.fat c)).toOption

abbrev Chain (V : Vol) : Nat → List Nat → Prop := Linked V.link

-- A fresh end of chain, hung behind `prev`.
def alloc (V : Vol) (prev : Option Nat) (c : Nat) : Vol :=
  match prev with
  | none => V.setFat c Fat32.eoc
  | some p => (V.setFat c Fat32.eoc).setFat p c

def clear (V : Vol) (cs : List Nat) : Vol := { V with fat := fun c => if c ∈ cs then 0 else V.fat c }

-- The chain `cs` cut down to its first `keep` clusters.
def cut (V : Vol) (cs : List Nat) (keep : Nat) : Vol :=
  match cs[keep - 1]? with
  | some c => if keep = 0 then V.clear cs else (V.clear (cs.drop keep)).setFat c Fat32.eoc
  | none => V.clear cs

variable {V : Vol} {c c' x : Nat} {b : Bytes}

theorem link_congr {V V' : Vol} (h : V'.fat c = V.fat c) : V'.link c = V.link c := by
  simp [link, h]

@[simp]
theorem link_setData : (V.setData c b).link = V.link :=
  rfl

@[simp]
theorem link_setFat_eoc : (V.setFat c Fat32.eoc).link c = some none := by
  simp [link, Fat32.linkOf, Fat32.eoc, Except.toOption]

theorem linkOf_eq (h : V.link c = some o) : Fat32.linkOf (V.fat c) = .ok o := by
  unfold link at h
  cases hl : Fat32.linkOf (V.fat c) <;> simp_all [Except.toOption]

theorem Chain.fat_ne_zero (h : V.Chain c cs) (hc : c' ∈ cs) : V.fat c' ≠ 0 := by
  intro h0
  exact h.link_ne_none hc (by simp [link, h0, Fat32.linkOf, Except.toOption, fail])

@[simp]
theorem clear_data : (V.clear cs).data = V.data :=
  rfl

@[simp]
theorem alloc_data : (V.alloc prev c).data = V.data := by
  cases prev <;> rfl

theorem alloc_fat_of_ne (h : c' ≠ c) (hp : c' ∉ prev) : (V.alloc prev c).fat c' = V.fat c' := by
  cases prev with
  | none => exact setFat_fat_of_ne h
  | some p =>
    have hne : c' ≠ p := fun he => hp (by rw [he]; rfl)
    exact (setFat_fat_of_ne hne).trans (setFat_fat_of_ne h)

theorem alloc_fat_prev (hp : p ∈ prev) : (V.alloc prev c).fat p = c := by
  cases hp
  simp [alloc]

theorem alloc_fat_self (hp : c ∉ prev) : (V.alloc prev c).fat c = Fat32.eoc := by
  cases prev with
  | none => simp [alloc]
  | some p =>
    have hne : c ≠ p := fun he => hp (by rw [he]; rfl)
    exact (setFat_fat_of_ne hne).trans setFat_fat_self

theorem clear_fat_of_mem (h : c ∈ cs) : (V.clear cs).fat c = 0 :=
  if_pos h

theorem clear_fat_of_not_mem (h : c ∉ cs) : (V.clear cs).fat c = V.fat c :=
  if_neg h

end Vol

namespace Fat32

variable {v : Fat32} {d : AtaDrive} {V : Vol} {c : Nat} {cs : List Nat}

theorem linkOf_cluster (h1 : 2 ≤ c) (h2 : c < 0x0FFFFFF8) : linkOf c = .ok (some c) := by
  have h3 : c % 2 ^ 28 = c := Nat.mod_eq_of_lt (by omega)
  simp only [linkOf, h3]
  rw [if_neg (by omega), if_neg (by omega)]

theorem length_le_total (h : V.Chain c cs) (hv : ∀ c ∈ cs, v.Valid c) : cs.length ≤ v.totalClusters := by
  have hs : cs ⊆ List.range' 2 v.totalClusters := by
    intro c hc
    have ⟨h1, h2⟩ := hv c hc
    exact List.mem_range'_1.mpr ⟨h1, by omega⟩
  simpa using (List.subperm_of_subset h.nodup hs).length_le

namespace Shows

theorem nextCluster (h : v.Shows d V) (hc : v.Valid c) (hl : V.link c = some o) : v.nextCluster d c = .ok o := by
  rw [Fat32.nextCluster, h.fatEntry hc.lt, ok_bind, linkOf_eq hl]

theorem walkFrom (h : v.Shows d V) (hl : V.Chain c cs) (hv : ∀ c ∈ cs, v.Valid c)
    (hk : cs.length ≤ k + 1) : v.walkFrom d k c = .ok cs := by
  induction hl generalizing k with
  | last hl =>
    cases k with
    | zero => rfl
    | succ k =>
      rw [Fat32.walkFrom, h.nextCluster (hv _ (.head _)) hl]
      rfl
  | cons hl hb hi =>
    cases k with
    | zero =>
      have := List.length_pos_of_ne_nil hb.ne_nil
      simp only [List.length_cons] at hk
      omega
    | succ k =>
      have hn := hi (k := k) (fun c hc => hv c (.tail _ hc)) (by simpa using hk)
      simp only [Fat32.walkFrom, h.nextCluster (hv _ (.head _)) hl, ok_bind, hn]
      rfl

theorem walkChain (h : v.Shows d V) (hl : V.Chain c cs) (hv : ∀ c ∈ cs, v.Valid c) :
    v.walkChain d c v.totalClusters = .ok cs :=
  h.walkFrom hl hv (by have := length_le_total hl hv; omega)

theorem walkChain_of_free (h : v.Shows d V) (hc : v.Valid c) (h0 : V.fat c = 0)
    (ht : 2 ≤ v.totalClusters) : v.walkChain d c v.totalClusters = fail .badFs := by
  have ⟨k, hk⟩ := Nat.exists_eq_add_of_le' ht
  have hl : linkOf (V.fat c) = fail .badFs := by rw [h0]; rfl
  simp only [Fat32.walkChain, hk]
  rw [Nat.add_sub_assoc (by decide), Fat32.walkFrom, Fat32.nextCluster, h.fatEntry hc.lt, ok_bind, hl]
  rfl

end Shows

def firstFree (v : Fat32) (V : Vol) : Option Nat :=
  (List.range' 2 v.totalClusters).find? (V.fat · = 0)

theorem firstFree_eq_some (h : v.firstFree V = some c) : v.Valid c ∧ V.fat c = 0 := by
  have ⟨h1, h2⟩ := List.mem_range'_1.mp (List.mem_of_find?_eq_some h)
  exact ⟨⟨h1, by omega⟩, by simpa using List.find?_some h⟩

namespace Shows

theorem findFree (h : v.Shows d V) (hs : ∀ c ∈ cs, v.Valid c) : v.findFree d cs = .ok (cs.find? (V.fat · = 0)) := by
  induction cs with
  | nil => rfl
  | cons c cs hi =>
    rw [Fat32.findFree, h.fatEntry (hs c (.head _)).lt, ok_bind, List.find?_cons]
    by_cases hc : V.fat c = 0
    · simp [hc]
      rfl
    · simp [hc, hi fun c hc => hs c (.tail _ hc)]

theorem firstFree (h : v.Shows d V) : v.findFree d (List.range' 2 v.totalClusters) = .ok (v.firstFree V) :=
  h.findFree fun c hc => by
    have ⟨h1, h2⟩ := List.mem_range'_1.mp hc
    exact ⟨h1, by omega⟩

end Shows

theorem does_allocCluster_none (h : v.firstFree V = none) : v.Does (v.allocCluster prev) V (fail .noSpace) V :=
  .read_bind (fun _ hs => h ▸ hs.firstFree) .lift

theorem does_allocCluster (h : v.firstFree V = some c) (hp : ∀ p ∈ prev, v.Valid p) :
    v.Does (v.allocCluster prev) V (.ok c) (V.alloc prev c) := by
  have ⟨hc, _⟩ := firstFree_eq_some h
  refine .read_bind (fun _ hs => h ▸ hs.firstFree) ?_
  refine .bind (does_setFatEntry hc.lt (by decide)) ?_
  cases prev with
  | none => exact .bind .pure .pure
  | some p =>
    intro d hs
    have hx : c < 2 ^ 32 := by have := hs.geometry.links; have := hc.2; omega
    have hd : v.Does (v.setFatEntry p c >>= fun _ => pure c) (V.setFat c eoc) (.ok c) _ :=
      .bind (does_setFatEntry (hp p rfl).lt hx) .pure
    exact hd d hs

theorem does_freeAll (hv : ∀ c ∈ cs, v.Valid c) : v.Does (v.freeAll cs) V (.ok ()) (V.clear cs) := by
  induction cs generalizing V with
  | nil =>
    have : V.clear [] = V := by simp [clear]
    rw [this]
    exact .pure
  | cons c cs hi =>
    have : V.clear (c :: cs) = (V.setFat c 0).clear cs := by
      ext1
      · funext c'
        by_cases h1 : c' = c <;> by_cases h2 : c' ∈ cs <;> simp [clear, setFat, h1, h2]
      · rfl
    rw [this]
    exact .bind (does_setFatEntry (hv c (.head _)).lt (by decide)) (hi fun c hc => hv c (.tail _ hc))

theorem does_freeFrom (hl : V.Chain c cs) (hv : ∀ c ∈ cs, v.Valid c) (hk : keep ≤ cs.length) :
    v.Does (v.freeFrom c keep) V (.ok ()) (V.cut cs keep) := by
  refine .read_bind (fun _ hs => hs.walkChain hl hv) ?_
  refine .bind (does_freeAll fun c hc => hv c (List.mem_of_mem_drop hc)) ?_
  cases keep with
  | zero =>
    have : V.cut cs 0 = V.clear (cs.drop 0) := by
      unfold cut
      split <;> simp
    rw [this]
    exact .pure
  | succ k =>
    have hg : cs[k]? = some cs[k] := List.getElem?_eq_getElem hk
    simp only [cut, Nat.add_sub_cancel, hg, Nat.succ_ne_zero, if_false, gt_iff_lt, Nat.succ_pos, if_true]
    exact does_setFatEntry (hv _ (List.getElem_mem hk)).lt (by decide)

end Fat32
