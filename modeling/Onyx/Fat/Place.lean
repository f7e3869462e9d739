import Onyx.Fat.Dirent
import Onyx.Fat.Resize

-- Finding room for a run of slots and writing it there: `alloc_run`, `write_run` and `create_entry`.

open Lib Fat List Vol

-- The place `alloc_run` finds in the clusters from number `ci` on: cluster and slot.
def Vol.searchRun (V : Vol) (need : Nat) : Nat → List Nat → Option (Nat × Nat)
  | _, [] => none
  | ci, c :: cs =>
    match freeRun need (V.data c) with
    | some si => some (ci, si)
    | none => searchRun V need (ci + 1) cs

namespace Fat32

variable {v : Fat32} {V V' : Vol} {d : AtaDrive} {h need ci si k : Nat} {cs : List Nat}
variable {run : List Bytes}

theorem Shows.searchRun (hs : v.Shows d V) (hv : ∀ c ∈ cs, v.Valid c) :
    v.searchRun d need ci cs = .ok (V.searchRun need ci cs) := by
  induction cs generalizing ci with
  | nil => rfl
  | cons c cs hi =>
    rw [Fat32.searchRun, hs.readCluster (hv c (.head _)), ok_bind, Vol.searchRun]
    cases freeRun need (V.data c) with
    | some si => rfl
    | none => exact hi fun c hc => hv c (.tail _ hc)

def FreeAt (b : Bytes) (need si : Nat) : Prop :=
  si + need ≤ b.length / 32 ∧ ∀ j < need, ∀ s, (slotsOf b)[si + j]? = some s → isFreeSlot s = true

theorem all_drop_take {l : List α} :
    ((l.drop i).take n).all p = true ↔ ∀ j < n, ∀ a, l[i + j]? = some a → p a = true := by
  simp only [all_eq_true, mem_iff_getElem?, getElem?_take, getElem?_drop]
  constructor
  · intro h j hj a ha
    exact h a ⟨j, by rw [if_pos hj, ha]⟩
  · intro h a ⟨j, hj⟩
    split_ifs at hj with hlt
    exact h j hlt a hj

theorem freeRun_eq_some {b : Bytes} : freeRun need b = some si ↔
    FreeAt b need si ∧ si < b.length / 32 ∧ ∀ sj < si, ¬ FreeAt b need sj := by
  simp only [freeRun, find?_range_eq_some, all_drop_take, FreeAt, decide_eq_true_eq,
    mem_range, Bool.not_eq_true', decide_eq_false_iff_not]

theorem freeRun_eq_none {b : Bytes} : freeRun need b = none ↔ ∀ si < b.length / 32, ¬ FreeAt b need si := by
  simp only [freeRun, find?_range_eq_none, all_drop_take, FreeAt, Bool.not_eq_true', decide_eq_false_iff_not]

theorem searchRun_eq_some (h : V.searchRun need ci cs = some (cj, si)) :
    ∃ n c, cj = ci + n ∧ cs[n]? = some c ∧ freeRun need (V.data c) = some si ∧
      ∀ m < n, ∀ c', cs[m]? = some c' → freeRun need (V.data c') = none := by
  induction cs generalizing ci with
  | nil => simp [Vol.searchRun] at h
  | cons c cs hi =>
    rw [Vol.searchRun] at h
    cases hf : freeRun need (V.data c) with
    | some si' =>
      rw [hf] at h
      cases h
      exact ⟨0, c, rfl, rfl, hf, by simp⟩
    | none =>
      rw [hf] at h
      have ⟨n, c', h1, h2, h3, h4⟩ := hi h
      refine ⟨n + 1, c', by omega, h2, h3, ?_⟩
      intro m hm c'' hc''
      cases m with
      | zero => cases hc''; exact hf
      | succ m => exact h4 m (by omega) c'' hc''

theorem searchRun_eq_none (h : V.searchRun need ci cs = none) (hc : c ∈ cs) : freeRun need (V.data c) = none := by
  induction cs generalizing ci with
  | nil => cases hc
  | cons c' cs hi =>
    rw [Vol.searchRun] at h
    cases hf : freeRun need (V.data c') with
    | some si => simp [hf] at h
    | none =>
      rw [hf] at h
      cases hc with
      | head => exact hf
      | tail _ hc => exact hi h hc

-- `need` free slots of a directory from index `k` on, all in one cluster.
def IsPlace (v : Fat32) (slots : List Bytes) (need k : Nat) : Prop :=
  k % v.slotsPerCluster + need ≤ v.slotsPerCluster ∧ k + need ≤ slots.length ∧
    ∀ j < need, ∀ s, slots[k + j]? = some s → isFreeSlot s = true

namespace DirChain

variable (r : v.DirChain V h cs) (hp : 0 < v.sectorsPerCluster)
include r hp

theorem getElem?_slots_cluster (hc : cs[ci]? = some c) (hi : i < v.slotsPerCluster) :
    (V.slots cs)[ci * v.slotsPerCluster + i]? = (slotsOf (V.data c))[i]? := by
  have hn := slotsPerCluster_pos hp
  rw [Vol.getElem?_slots (fun _ => r.length_slotsOf) hn, Nat.add_comm, Nat.add_mul_div_right _ _ hn,
    Nat.div_eq_of_lt hi, Nat.zero_add, hc, Nat.add_mul_mod_self_right, Nat.mod_eq_of_lt hi]
  rfl

theorem isPlace_iff (hc : cs[ci]? = some c) (hi : si < v.slotsPerCluster) :
    v.IsPlace (V.slots cs) need (ci * v.slotsPerCluster + si) ↔ FreeAt (V.data c) need si := by
  have hm := mem_of_getElem? hc
  have hci := (List.getElem?_eq_some_iff.mp hc).1
  have hl : (V.data c).length / 32 = v.slotsPerCluster := by rw [r.length c hm, slotsPerCluster]
  have hmod : (ci * v.slotsPerCluster + si) % v.slotsPerCluster = si := by
    rw [Nat.add_comm, Nat.add_mul_mod_self_right, Nat.mod_eq_of_lt hi]
  have hle : (ci + 1) * v.slotsPerCluster ≤ cs.length * v.slotsPerCluster := Nat.mul_le_mul_right _ hci
  rw [Nat.succ_mul] at hle
  simp only [IsPlace, FreeAt, hmod, hl, r.length_slots]
  constructor
  · rintro ⟨h1, _, h3⟩
    refine ⟨h1, fun j hj s hs => h3 j hj s ?_⟩
    rw [Nat.add_assoc, r.getElem?_slots_cluster hp hc (by omega), hs]
  · rintro ⟨h1, h2⟩
    refine ⟨h1, by omega, fun j hj s hs => h2 j hj s ?_⟩
    rw [Nat.add_assoc, r.getElem?_slots_cluster hp hc (by omega)] at hs
    exact hs

theorem exists_cluster_of_isPlace (hn : 0 < need) (h : v.IsPlace (V.slots cs) need k) :
    ∃ c, cs[k / v.slotsPerCluster]? = some c ∧ FreeAt (V.data c) need (k % v.slotsPerCluster) := by
  have hlt : k < (V.slots cs).length := by have := h.2.1; omega
  have ⟨c, hc, _⟩ := r.cluster_of_slot hp (getElem?_eq_getElem hlt)
  refine ⟨c, hc, (r.isPlace_iff hp hc (Nat.mod_lt _ (slotsPerCluster_pos hp))).mp ?_⟩
  rwa [Nat.div_add_mod']

theorem searchRun_place (hn : 0 < need) (h : V.searchRun need 0 cs = some (ci, si)) :
    ∃ c, cs[ci]? = some c ∧ si + need ≤ v.slotsPerCluster ∧ v.IsPlace (V.slots cs) need (ci * v.slotsPerCluster + si) ∧
      ∀ k, v.IsPlace (V.slots cs) need k → ci * v.slotsPerCluster + si ≤ k := by
  obtain ⟨n, c, h1, hc, hf, hfirst⟩ := searchRun_eq_some h
  rw [Nat.zero_add] at h1
  subst h1
  have hl : (V.data c).length / 32 = v.slotsPerCluster := by
    rw [r.length c (mem_of_getElem? hc), slotsPerCluster]
  obtain ⟨hfree, hlt, hmin⟩ := freeRun_eq_some.mp hf
  have hfits := hfree.1
  rw [hl] at hlt hfits
  refine ⟨c, hc, hfits, (r.isPlace_iff hp hc hlt).mpr hfree, fun k hk => ?_⟩
  obtain ⟨c', hc', hk'⟩ := r.exists_cluster_of_isPlace hp hn hk
  have hdiv := Nat.div_add_mod' k v.slotsPerCluster
  rcases Nat.lt_trichotomy (k / v.slotsPerCluster) ci with hlt' | heq | hgt
  · -- An earlier cluster has no room.
    have hmod := Nat.mod_lt k (slotsPerCluster_pos hp)
    have hl' : (V.data c').length / 32 = v.slotsPerCluster := by
      rw [r.length c' (mem_of_getElem? hc'), slotsPerCluster]
    exact absurd hk' (freeRun_eq_none.mp (hfirst _ hlt' c' hc') _ (hl' ▸ hmod))
  · rw [heq, hc] at hc'
    cases hc'
    have hle : si ≤ k % v.slotsPerCluster := Nat.le_of_not_lt fun hlt' => hmin _ hlt' hk'
    rw [heq] at hdiv
    omega
  · have := Nat.mul_le_mul_right v.slotsPerCluster hgt
    rw [Nat.succ_mul] at this
    omega

theorem not_isPlace_of_searchRun (hn : 0 < need) (h : V.searchRun need 0 cs = none) (k : Nat) :
    ¬ v.IsPlace (V.slots cs) need k := by
  intro hk
  have ⟨c, hc, hk'⟩ := r.exists_cluster_of_isPlace hp hn hk
  have hm := mem_of_getElem? hc
  have hmod := Nat.mod_lt k (slotsPerCluster_pos hp)
  have hl : (V.data c).length / 32 = v.slotsPerCluster := by rw [r.length c hm, slotsPerCluster]
  exact freeRun_eq_none.mp (searchRun_eq_none h hm) _ (hl ▸ hmod) hk'

end DirChain

def runVol (v : Fat32) (cs : List Nat) (need : Nat) (V : Vol) : Option ((List Nat × Nat × Nat) × Vol) :=
  match V.searchRun need 0 cs with
  | some (ci, si) => some ((cs, ci, si), V)
  | none => (v.firstFree V).map fun c => ((cs ++ [c], cs.length, 0), V.alloc cs.getLast? c)

theorem does_allocRun_none (hc : V.Chain h cs) (hv : ∀ c ∈ cs, v.Valid c)
    (hr : v.runVol cs need V = none) : v.Does (v.allocRun h need) V (fail .noSpace) V := by
  unfold runVol at hr
  split at hr
  · cases hr
  case h_2 hs =>
    refine .read_bind (fun _ hs => hs.walkChain hc hv) (.read_bind (fun _ hs => hs.searchRun hv) ?_)
    rw [hs]
    exact .bind_error (does_allocCluster_none (Option.map_eq_none_iff.mp hr))

theorem does_allocRun (hc : V.Chain h cs) (hv : ∀ c ∈ cs, v.Valid c)
    (hr : v.runVol cs need V = some (place, V')) : v.Does (v.allocRun h need) V (.ok place) V' := by
  unfold runVol at hr
  split at hr
  case h_1 hs =>
    cases hr
    refine .read_bind (fun _ hs => hs.walkChain hc hv) (.read_bind (fun _ hs => hs.searchRun hv) ?_)
    rw [hs]
    exact .pure
  case h_2 hs =>
    have ⟨c, hf, he⟩ := Option.map_eq_some_iff.mp hr
    cases he
    refine .read_bind (fun _ hs => hs.walkChain hc hv) (.read_bind (fun _ hs => hs.searchRun hv) ?_)
    rw [hs]
    exact .bind (does_allocCluster hf fun p hp => hv p (mem_of_mem_getLast? hp)) .pure

def writeRunVol (chain : List Nat) (ci si : Nat) (run : List Bytes) (V : Vol) : Result FsError Unit × Vol :=
  match chain[ci]? with
  | none => (abort, V)
  | some c =>
    match putSlots (V.data c) si run with
    | .ok b => (.ok (), V.setData c b)
    | .error f => (.error f, V)

theorem clusterBytes_mod : v.clusterBytes % 32 = 0 := by
  simp only [clusterBytes, AtaDrive.sectorSize]
  omega

theorem does_writeRun (hv : ∀ c ∈ cs, v.Valid c) (hl : ∀ c ∈ cs, (V.data c).length = v.clusterBytes)
    (hr : ∀ s ∈ lfn ++ [slot], s.length = 32) (ci si : Nat) :
    v.Does (v.writeRun cs ci si lfn slot) V (writeRunVol cs ci si (lfn ++ [slot]) V).1
      (writeRunVol cs ci si (lfn ++ [slot]) V).2 := by
  unfold writeRun writeRunVol
  cases hc : cs[ci]? with
  | none => exact .lift
  | some c =>
    have hm := mem_of_getElem? hc
    refine .read_bind (fun _ hs => hs.readCluster (hv c hm)) ?_
    cases hp : putSlots (V.data c) si (lfn ++ [slot]) with
    | error f =>
      simp only [hp]
      exact .bind_error .lift
    | ok b =>
      have ⟨hb, _, _⟩ := putSlots_eq_ok hr (hl c hm ▸ clusterBytes_mod) hp
      simp only [hp]
      exact .bind .lift (does_writeCluster (hv c hm) (hb.trans (hl c hm)))

structure Placed (v : Fat32) (V : Vol) (cs new : List Nat) (k : Nat) (run : List Bytes) (V' : Vol) :
    Prop where
  grown : v.Grown V cs new { V' with data := V.data }
  data : ∀ {c}, c ∉ cs ++ new → V'.data c = V.data c
  length : ∀ c, (V'.data c).length = (V.data c).length
  slots : V'.slots (cs ++ new) = overwrite (V.slots (cs ++ new)) k run
  fits : k + run.length ≤ (V.slots (cs ++ new)).length
  place :
    new = [] ∧ v.IsPlace (V.slots cs) run.length k ∧ (∀ k', v.IsPlace (V.slots cs) run.length k' → k ≤ k') ∨
      ∃ c, new = [c] ∧ v.firstFree V = some c ∧ k = (V.slots cs).length ∧ ∀ k', ¬ v.IsPlace (V.slots cs) run.length k'

theorem writeRunVol_ok (hd : as.Nodup) (hp : 0 < v.sectorsPerCluster)
    (hl : ∀ c ∈ as, (V.data c).length = v.clusterBytes) (hr : ∀ s ∈ run, s.length = 32) (hne : run ≠ [])
    (h : writeRunVol as ci si run V = (.ok u, V')) : V'.fat = V.fat ∧ (∀ c, c ∉ as → V'.data c = V.data c) ∧
      (∀ c, (V'.data c).length = (V.data c).length) ∧
      V'.slots as = overwrite (V.slots as) (ci * v.slotsPerCluster + si) run ∧
      ci * v.slotsPerCluster + si + run.length ≤ (V.slots as).length := by
  unfold writeRunVol at h
  cases hc : as[ci]? with
  | none => simp [hc, abort] at h
  | some c =>
    have hm := mem_of_getElem? hc
    have hci := (List.getElem?_eq_some_iff.mp hc).1
    have hlen : (V.data c).length / 32 = v.slotsPerCluster := by rw [hl c hm, slotsPerCluster]
    have hn : ∀ c ∈ as, (slotsOf (V.data c)).length = v.slotsPerCluster := fun c hc => by
      rw [Fat.length_slotsOf, hl c hc, slotsPerCluster]
    simp only [hc] at h
    cases hput : putSlots (V.data c) si run with
    | error f => simp [hput] at h
    | ok b =>
      obtain ⟨hb, hs, hfit⟩ := putSlots_eq_ok hr (hl c hm ▸ clusterBytes_mod) hput
      have hfit := hlen ▸ hfit hne
      have hle : (ci + 1) * v.slotsPerCluster ≤ as.length * v.slotsPerCluster := Nat.mul_le_mul_right _ hci
      rw [Nat.succ_mul] at hle
      rw [hput, Prod.mk.injEq] at h
      rw [← h.2]
      refine ⟨rfl, fun c' hc' => setData_data_of_ne fun he => hc' (he ▸ hm), fun c' => ?_,
        slots_setData hd hn (slotsPerCluster_pos hp) hc hfit hs, ?_⟩
      · by_cases he : c' = c
        · rw [he, setData_data_self, hb]
        · rw [setData_data_of_ne he]
      · rw [length_slots hn]
        omega

theorem DirChain.placed (r : v.DirChain V h cs) (hp : 0 < v.sectorsPerCluster)
    (hlen : ∀ {c}, v.Valid c → (V.data c).length = v.clusterBytes)
    (hl : v.totalClusters + 2 ≤ 0x0FFFFFF8) (hr : ∀ s ∈ run, s.length = 32) (hne : run ≠ [])
    (h1 : v.runVol cs run.length V = some ((cs', ci, si), V1)) (h2 : writeRunVol cs' ci si run V1 = (.ok u, V2)) :
    ∃ new, cs' = cs ++ new ∧ v.Placed V cs new (ci * v.slotsPerCluster + si) run V2 := by
  have hpos := length_pos_of_ne_nil hne
  unfold runVol at h1
  split at h1
  case h_1 hs =>
    cases h1
    have ⟨c, _, _, hplace, hleast⟩ := r.searchRun_place hp hpos hs
    have ⟨hf, hd, hl', hslots, hfits⟩ := writeRunVol_ok (v := v) r.chain.nodup hp r.length hr hne h2
    refine ⟨[], (append_nil _).symm, ?_, ?_, hl', ?_, ?_, .inl ⟨rfl, hplace, hleast⟩⟩
    · rw [hf]
      exact .refl
    · exact fun hc => hd _ (by simpa using hc)
    · simpa using hslots
    · simpa using hfits
  case h_2 hs =>
    have ⟨c, hfree, he⟩ := Option.map_eq_some_iff.mp h1
    cases he
    have ⟨hc, h0⟩ := firstFree_eq_some hfree
    have g : v.Grown V cs [c] (V.alloc cs.getLast? c) := Grown.refl.cons hl hc h0
    have hlen' : ∀ x ∈ cs ++ [c], ((V.alloc cs.getLast? c).data x).length = v.clusterBytes := by
      intro x hx
      rw [alloc_data]
      cases mem_append.mp hx with
      | inl hx => exact r.length x hx
      | inr hx => exact mem_singleton.mp hx ▸ hlen hc
    have ⟨hf, hd, hl', hslots, hfits⟩ := writeRunVol_ok (v := v) (g.chain h (.inl r.chain)).nodup hp hlen' hr hne h2
    have hsame : (V.alloc cs.getLast? c).slots (cs ++ [c]) = V.slots (cs ++ [c]) :=
      slots_congr fun x _ => by rw [alloc_data]
    rw [hsame] at hslots hfits
    refine ⟨[c], rfl, ?_, fun hx => by rw [hd _ hx, alloc_data],
      fun x => by rw [hl', alloc_data], hslots, hfits,
      .inr ⟨c, rfl, hfree, by rw [r.length_slots, Nat.add_zero], r.not_isPlace_of_searchRun hp hpos hs⟩⟩
    have : ({ V2 with data := V.data } : Vol) = V.alloc cs.getLast? c := by
      rw [hf]
      ext1
      · rfl
      · rw [alloc_data]
    rw [this]
    exact g

end Fat32
