import Onyx.Fat.Scan

-- What writing to a cluster of a directory does to its list of slots.

open Lib Fat List Bytes Option Vol

namespace Fat

variable {b b' s : Bytes} {i : Nat} {run slots : List Bytes}

theorem getElem?_slotsOf : (slotsOf b)[i]? = if i < b.length / 32 then some (b.slice (i * 32) 32) else none := by
  by_cases h : i < b.length / 32 <;> simp [slotsOf, h]

theorem slotsOf_append (hs : s.length = 32) : slotsOf (s ++ b) = s :: slotsOf b := by
  have hn : (s ++ b).length / 32 = b.length / 32 + 1 := by
    rw [length_append]
    omega
  apply ext_getElem?
  intro i
  rw [getElem?_slotsOf, hn]
  cases i with
  | zero => simp [slice, ← hs]
  | succ i =>
    have hd : (s ++ b).drop ((i + 1) * 32) = b.drop (i * 32) := by
      rw [Nat.succ_mul, Nat.add_comm, ← hs, drop_length_add_append]
    simp [getElem?_slotsOf, slice, hd]

theorem slotsOf_flatten (h : ∀ s ∈ slots, s.length = 32) : slotsOf slots.flatten = slots := by
  induction slots with
  | nil => rfl
  | cons s slots hi =>
    rw [flatten_cons, slotsOf_append (h s (.head _)), hi fun s hs => h s (.tail _ hs)]

theorem slotsOf_patch (hs : s.length = 32) (hi : i < b.length / 32) :
    slotsOf (b.patch (i * 32) s) = (slotsOf b).set i s := by
  have hl : i * 32 + s.length ≤ b.length := by omega
  apply ext_getElem?
  intro j
  rw [getElem?_slotsOf, length_patch hl, getElem?_set, getElem?_slotsOf, length_slotsOf]
  by_cases hj : i = j
  · subst hj
    have := slice_patch_self hl
    rw [hs] at this
    simp [hi, this]
  · rw [slice_patch_of_disjoint hl (by omega)]
    simp [hj]

theorem putSlots_eq (hr : ∀ s ∈ run, s.length = 32) (hi : i + run.length ≤ b.length / 32) :
    ∃ b', Fat32.putSlots b i run = .ok b' ∧ b'.length = b.length ∧ slotsOf b' = overwrite (slotsOf b) i run := by
  induction run generalizing b i with
  | nil =>
    refine ⟨b, rfl, rfl, ?_⟩
    simp [overwrite]
  | cons s run hi' =>
    simp only [length_cons] at hi
    have hs := hr s (.head _)
    have hl : i * 32 + s.length ≤ b.length := by omega
    obtain ⟨b', h1, h2, h3⟩ := hi' (b := b.patch (i * 32) s) (i := i + 1)
      (fun s hs => hr s (.tail _ hs)) (by rw [length_patch hl]; omega)
    refine ⟨b', ?_, h2.trans (length_patch hl), ?_⟩
    · rw [Fat32.putSlots, if_pos (by omega), h1]
    · rw [h3, slotsOf_patch hs (by omega), overwrite_set (by rw [length_slotsOf]; omega)]

theorem putSlots_eq_abort (hr : ∀ s ∈ run, s.length = 32) (hi : b.length / 32 < i + run.length)
    (hne : run ≠ []) (hb : b.length % 32 = 0) : Fat32.putSlots b i run = abort := by
  induction run generalizing b i with
  | nil => exact absurd rfl hne
  | cons s run hi' =>
    rw [Fat32.putSlots]
    split_ifs with h
    · have hs := hr s (.head _)
      have hl : i * 32 + s.length ≤ b.length := by omega
      cases run with
      | nil =>
        simp only [length_cons, length_nil] at hi
        omega
      | cons s' run =>
        simp only [length_cons] at hi
        refine hi' (fun s hs => hr s (.tail _ hs)) ?_ (by simp) (by rwa [length_patch hl])
        rw [length_patch hl]
        simp only [length_cons]
        omega
    · rfl

theorem putSlots_ne_err : Fat32.putSlots b i run ≠ .error (.err f) := by
  induction run generalizing b i with
  | nil => simp [Fat32.putSlots]
  | cons s run hi =>
    rw [Fat32.putSlots]
    split_ifs
    · exact hi
    · simp [abort]

theorem putSlots_eq_ok (hr : ∀ s ∈ run, s.length = 32) (hb : b.length % 32 = 0) (h : Fat32.putSlots b i run = .ok b') :
    b'.length = b.length ∧ slotsOf b' = overwrite (slotsOf b) i run ∧ (run ≠ [] → i + run.length ≤ b.length / 32) := by
  by_cases hne : run = []
  · subst hne
    cases h
    simp [overwrite]
  by_cases hfit : i + run.length ≤ b.length / 32
  · obtain ⟨b'', h1, h2, h3⟩ := putSlots_eq hr hfit
    cases h.symm.trans h1
    exact ⟨h2, h3, fun _ => hfit⟩
  · rw [putSlots_eq_abort hr (Nat.lt_of_not_le hfit) hne hb] at h
    cases h

end Fat

namespace Vol

variable {V V' : Vol} {cs : List Nat} {c n k ci si : Nat} {b : Bytes} {run : List Bytes}

theorem slots_congr (h : ∀ c ∈ cs, V'.data c = V.data c) : V'.slots cs = V.slots cs := by
  unfold slots
  exact flatMap_congr fun c hc => by rw [h c hc]

theorem slots_append : V.slots (cs ++ cs') = V.slots cs ++ V.slots cs' := by
  simp [slots]

theorem length_slots (hn : ∀ c ∈ cs, (slotsOf (V.data c)).length = n) : (V.slots cs).length = cs.length * n := by
  induction cs with
  | nil => simp [slots]
  | cons c cs hi =>
    have := hi fun c hc => hn c (.tail _ hc)
    simp only [slots, flatMap_cons, length_append, hn c (.head _), length_cons] at *
    rw [this, Nat.succ_mul, Nat.add_comm]

theorem getElem?_slots (hn : ∀ c ∈ cs, (slotsOf (V.data c)).length = n) (hp : 0 < n) :
    (V.slots cs)[k]? = cs[k / n]?.bind fun c => (slotsOf (V.data c))[k % n]? := by
  induction cs generalizing k with
  | nil => simp [slots]
  | cons c cs hi =>
    have hc := hn c (.head _)
    simp only [slots, flatMap_cons, getElem?_append, hc] at *
    split_ifs with hk
    · simp [Nat.div_eq_of_lt hk, Nat.mod_eq_of_lt hk]
    have h1 : k / n = (k - n) / n + 1 := by
      rw [← Nat.add_div_right _ hp]
      congr 1
      omega
    rw [hi fun c hc => hn c (.tail _ hc), h1, getElem?_cons_succ, Nat.mod_eq_sub_mod (by omega : k ≥ n)]

theorem slots_setData (hd : cs.Nodup) (hn : ∀ c ∈ cs, (slotsOf (V.data c)).length = n)
    (hp : 0 < n) (hc : cs[ci]? = some c) (hr : si + run.length ≤ n)
    (hb : slotsOf b = overwrite (slotsOf (V.data c)) si run) :
    (V.setData c b).slots cs = overwrite (V.slots cs) (ci * n + si) run := by
  have hm := mem_of_getElem? hc
  have hci : ci < cs.length := (List.getElem?_eq_some_iff.mp hc).1
  have hlen : si + run.length ≤ (slotsOf (V.data c)).length := by rw [hn c hm]; exact hr
  have hn' : ∀ c' ∈ cs, (slotsOf ((V.setData c b).data c')).length = n := by
    intro c' hc'
    by_cases h : c' = c
    · rw [h, setData_data_self, hb, length_overwrite hlen, hn c hm]
    · rw [setData_data_of_ne h, hn c' hc']
  have hle : ci * n + si + run.length ≤ (V.slots cs).length := by
    have : (ci + 1) * n ≤ cs.length * n := Nat.mul_le_mul_right _ hci
    rw [length_slots hn]
    rw [Nat.succ_mul] at this
    omega
  apply ext_getElem?
  intro k
  rw [getElem?_overwrite hle]
  rw [getElem?_slots hn' hp, getElem?_slots hn hp]
  have hk := Nat.div_add_mod k n
  by_cases h : k / n = ci
  · -- The cluster that was written.
    rw [h, hc, bind_some, bind_some, setData_data_self, hb, getElem?_overwrite hlen]
    have hci : n * (k / n) = ci * n := by rw [h, Nat.mul_comm]
    have h1 : k % n < si ↔ k < ci * n + si := by omega
    have h2 : k % n < si + run.length ↔ k < ci * n + si + run.length := by omega
    have h3 : k % n - si = k - (ci * n + si) := by omega
    simp [h1, h2, h3]
  · -- Another one.
    have hout : ¬ (ci * n + si ≤ k ∧ k < ci * n + si + run.length) := by
      intro ⟨h1, h2⟩
      exact h (Nat.div_eq_of_lt_le (by omega) (by rw [Nat.succ_mul]; omega))
    have hsame : (cs[k / n]?.bind fun c' => (slotsOf ((V.setData c b).data c'))[k % n]?) =
        cs[k / n]?.bind fun c' => (slotsOf (V.data c'))[k % n]? := by
      cases hk : cs[k / n]? with
      | none => rfl
      | some c' =>
        have hne : c' ≠ c := fun he =>
          h ((getElem?_inj (List.getElem?_eq_some_iff.mp hk).1 hd).mp (by rw [hk, hc, he]))
        rw [bind_some, bind_some, setData_data_of_ne hne]
    rw [hsame]
    split_ifs <;> first | rfl | omega

end Vol

namespace Fat32

variable {v : Fat32} {V : Vol} {slot : Bytes} {h c k : Nat} {cs : List Nat}

def setSlot (v : Fat32) (V : Vol) (cs : List Nat) (k : Nat) (slot : Bytes) : Vol :=
  match cs[k / v.slotsPerCluster]? with
  | none => V
  | some c => V.setData c ((V.data c).patch (k % v.slotsPerCluster * 32) slot)

-- The chain of a directory, with clusters of the volume's size.
structure DirChain (v : Fat32) (V : Vol) (h : Nat) (cs : List Nat) : Prop where
  chain : V.Chain h cs
  valid : ∀ c ∈ cs, v.Valid c
  length : ∀ c ∈ cs, (V.data c).length = v.clusterBytes

@[simp]
theorem setSlot_fat : (v.setSlot V cs k slot).fat = V.fat := by
  unfold setSlot
  split <;> rfl

theorem setSlot_data_of_not_mem (hc : c ∉ cs) : (v.setSlot V cs k slot).data c = V.data c := by
  unfold setSlot
  split
  · rfl
  case h_2 c' h =>
    exact setData_data_of_ne fun he => hc (he ▸ mem_of_getElem? h)

theorem slotsPerCluster_pos (hs : 0 < v.sectorsPerCluster) : 0 < v.slotsPerCluster := by
  simp only [slotsPerCluster, clusterBytes, AtaDrive.sectorSize]
  omega

theorem slotsPerCluster_mul : v.slotsPerCluster * 32 = v.clusterBytes := by
  simp only [slotsPerCluster, clusterBytes, AtaDrive.sectorSize]
  omega

namespace DirChain

variable (r : v.DirChain V h cs) (hp : 0 < v.sectorsPerCluster)
include r

theorem length_slotsOf (hc : c ∈ cs) : (slotsOf (V.data c)).length = v.slotsPerCluster := by
  rw [Fat.length_slotsOf, r.length c hc, slotsPerCluster]

theorem length_slots : (V.slots cs).length = cs.length * v.slotsPerCluster :=
  Vol.length_slots fun _ => r.length_slotsOf

include hp

theorem getElem?_slots : (V.slots cs)[k]? = cs[k / v.slotsPerCluster]?.map fun c =>
      (V.data c).slice (k % v.slotsPerCluster * 32) 32 := by
  have hn := slotsPerCluster_pos hp
  rw [Vol.getElem?_slots (fun _ => r.length_slotsOf) hn]
  cases hc : cs[k / v.slotsPerCluster]? with
  | none => rfl
  | some c =>
    have hl := r.length c (mem_of_getElem? hc)
    simp only [bind_some, map_some, getElem?_slotsOf, hl]
    exact if_pos (Nat.mod_lt _ hn)

theorem cluster_of_slot (hk : (V.slots cs)[k]? = some slot) : ∃ c, cs[k / v.slotsPerCluster]? = some c ∧
      (V.data c).slice (k % v.slotsPerCluster * 32) 32 = slot := by
  rw [r.getElem?_slots hp] at hk
  cases hc : cs[k / v.slotsPerCluster]? with
  | none => simp [hc] at hk
  | some c => exact ⟨c, rfl, by simpa [hc] using hk⟩

theorem length_slot (hk : (V.slots cs)[k]? = some slot) : slot.length = 32 := by
  have ⟨c, hc, hs⟩ := r.cluster_of_slot hp hk
  have hl := r.length c (mem_of_getElem? hc)
  have := Nat.mod_lt k (slotsPerCluster_pos hp)
  have := slotsPerCluster_mul (v := v)
  rw [← hs, length_slice, hl]
  omega

variable (hk : k < (V.slots cs).length) (hs : slot.length = 32)
include hk hs

theorem setSlot_eq : ∃ c, cs[k / v.slotsPerCluster]? = some c ∧
    k % v.slotsPerCluster * 32 + slot.length ≤ (V.data c).length ∧
    v.setSlot V cs k slot = V.setData c ((V.data c).patch (k % v.slotsPerCluster * 32) slot) := by
  have ⟨c, hc, _⟩ := r.cluster_of_slot hp (getElem?_eq_getElem hk)
  have hl := r.length c (mem_of_getElem? hc)
  have := Nat.mod_lt k (slotsPerCluster_pos hp)
  have := slotsPerCluster_mul (v := v)
  refine ⟨c, hc, by omega, by simp [setSlot, hc]⟩

theorem length_data_setSlot (c : Nat) : ((v.setSlot V cs k slot).data c).length = (V.data c).length := by
  have ⟨c', _, hl, he⟩ := r.setSlot_eq hp hk hs
  rw [he]
  by_cases h : c = c'
  · rw [h, setData_data_self, length_patch hl]
  · rw [setData_data_of_ne h]

theorem slots_setSlot : (v.setSlot V cs k slot).slots cs = (V.slots cs).set k slot := by
  have hn := slotsPerCluster_pos hp
  have hlt := Nat.mod_lt k hn
  have ⟨c, hc, hl, he⟩ := r.setSlot_eq hp hk hs
  have hm := mem_of_getElem? hc
  have hsl : slotsOf ((V.data c).patch (k % v.slotsPerCluster * 32) slot) =
      overwrite (slotsOf (V.data c)) (k % v.slotsPerCluster) [slot] := by
    have := r.length_slotsOf hm
    rw [slotsOf_patch hs (by rw [← Fat.length_slotsOf]; omega), overwrite_singleton (by omega)]
  rw [he, slots_setData r.chain.nodup (fun _ => r.length_slotsOf) hn hc hlt hsl,
    Nat.div_add_mod', overwrite_singleton hk]

end DirChain

end Fat32
