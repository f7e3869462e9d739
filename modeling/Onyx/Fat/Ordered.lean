import Onyx.Fat.Lockstep

-- Directories in which nothing follows the end marker, and what placing an entry does to a scan.

open Lib Fat List Vol

namespace Fat

variable {h idx i j k : Nat} {run : LfnRun} {S S' : List Bytes} {s slot : Bytes} {lfn : List Bytes}

def OrderedSlots (S : List Bytes) : Prop :=
  ∀ (i j : Nat) (s t : Bytes), S[i]? = some s → S[j]? = some t → i < j → slotMark s = slotEnd → isFreeSlot t = true

theorem isFreeSlot_iff : isFreeSlot s = true ↔ slotMark s = slotEnd ∨ slotMark s = slotDeleted := by
  simp [isFreeSlot]

theorem isLive_of_isFreeSlot (h : isFreeSlot s = true) : isLive s = false := by
  cases hl : isLive s with
  | false => rfl
  | true => simp [Fat32.not_isFreeSlot_of_isLive hl] at h

theorem Erased.ordered (r : Erased S S' i) (hlen : ∀ s ∈ S, s.length = 32) (ho : OrderedSlots S) : OrderedSlots S' := by
  -- Every slot is the one from before or a deleted one.
  have hold {j : Nat} {t : Bytes} (hj : S'[j]? = some t) : S[j]? = some t ∨
      slotMark t = slotDeleted ∧ ∃ s, S[j]? = some s := by
    have hdel {s : Bytes} (h1 : S[j]? = some s) (h2 : S'[j]? = some (delSlot s)) :
        slotMark t = slotDeleted ∧ ∃ s, S[j]? = some s := by
      cases hj.symm.trans h2
      exact ⟨slotMark_delSlot (hlen s (mem_of_getElem? h1)), s, h1⟩
    by_cases he : j = i
    · subst he
      have ⟨s, h1, h2⟩ := r.self
      exact .inr (hdel h1 h2)
    cases r.other j he with
    | inl h => exact .inl (h ▸ hj)
    | inr h =>
      have ⟨s, h1, _, h2⟩ := h
      exact .inr (hdel h1 h2)
  intro i j s t hi hj hlt hm
  cases hold hi with
  | inr h => exact absurd (hm.symm.trans h.1) (by decide)
  | inl hi =>
    cases hold hj with
    | inl hj => exact ho i j s t hi hj hlt hm
    | inr h => exact isFreeSlot_iff.mpr (.inr h.1)

theorem OrderedSlots.set (ho : OrderedSlots S) (hk : S[k]? = some slot) (hm : slotMark s = slotMark slot) :
    OrderedSlots (S.set k s) := by
  have hold {j : Nat} {t : Bytes} (hj : (S.set k s)[j]? = some t) :
      ∃ t', S[j]? = some t' ∧ slotMark t = slotMark t' := by
    rw [getElem?_set] at hj
    split_ifs at hj with he
    · cases hj
      exact ⟨slot, he ▸ hk, hm⟩
    · exact ⟨t, hj, rfl⟩
  intro i j s t hi hj hlt he
  have ⟨_, hi', h1⟩ := hold hi
  have ⟨_, hj', h2⟩ := hold hj
  have := ho i j _ _ hi' hj' hlt (h1 ▸ he)
  rw [isFreeSlot_iff] at this ⊢
  rwa [h2]

theorem scanSlots_entry_append (hlfn : ∀ s ∈ lfn, slotAttr s = attrLfn ∧ slotMark s ≠ slotEnd)
    (hl : isLive slot = true) (S : List Bytes) : (scanSlots h idx run (lfn ++ [slot] ++ S)).1 =
      entryOf h (pendingRun run lfn) slot (idx + lfn.length) :: (scanSlots h (idx + (lfn.length + 1)) .empty S).1 := by
  have hnil : (scanSlots h idx run lfn).1 = [] := scanSlots_of_not_live fun s hs => isLive_of_lfn (hlfn s hs).1
  rw [append_assoc, scanSlots_append fun s hs => (hlfn s hs).2]
  simp [hnil, scanSlots_cons, (isLive_iff.mp hl).1, hl, nextRun_of_isLive hl, Nat.add_assoc]

theorem scanSlots_free_append (hF : ∀ s ∈ F, isFreeSlot s = true) (hne : F ≠ [])
    (hS : ¬ Endless F → ∀ s ∈ S, isFreeSlot s = true) :
    (scanSlots h idx run (F ++ S)).1 = (scanSlots h (idx + F.length) .empty S).1 := by
  have hnil : (scanSlots h idx run F).1 = [] := scanSlots_of_not_live fun s hs => isLive_of_isFreeSlot (hF s hs)
  by_cases he : Endless F
  · have hrun : pendingRun run F = .empty := by
      have hlast := getLast_mem hne
      have hdel := (isFreeSlot_iff.mp (hF _ hlast)).resolve_left (he _ hlast)
      rw [← dropLast_append_getLast hne, pendingRun, foldl_append]
      simp [nextRun, hdel]
    rw [scanSlots_append he]
    simp [hnil, hrun]
  · rw [scanSlots_append_of_end he, hnil, scanSlots_of_not_live fun s hs => isLive_of_isFreeSlot (hS he s hs)]

end Fat

namespace Fat32

variable {v : Fat32} {V V' : Vol} {L : Layout} {h k : Nat} {cs new : List Nat} {slot : Bytes}
variable {lfn : List Bytes}

def Roomy (v : Fat32) (h need : Nat) (V : Vol) : Prop :=
  ∀ cs, V.Chain h cs →
    (∃ k, v.IsPlace (V.slots cs) need k ∧ Endless ((V.slots cs).take k)) ∨
      (∀ k, ¬ v.IsPlace (V.slots cs) need k) ∧ Endless (V.slots cs) ∧
        ∀ x, v.firstFree V = some x → ∀ j, need ≤ j → ∀ s, (slotsOf (V.data x))[j]? = some s → isFreeSlot s = true

theorem Roomy.cleanTail (hr : v.Roomy h need V) (hc : V.Chain h cs)
    (p : v.Placed V cs new k run V') (hn : run.length = need) : Placed.CleanTail V new need := by
  cases p.place with
  | inl hp =>
    unfold Placed.CleanTail
    simp [hp.1]
  | inr hp =>
    obtain ⟨x, hnew, hf, _, hno⟩ := hp
    rw [hn] at hno
    obtain ⟨_, _, hfree⟩ := (hr cs hc).resolve_left fun ⟨k, hk, _⟩ => hno k hk
    intro c hc j hj s hs
    rw [hnew, mem_singleton] at hc
    subst hc
    exact isLive_of_isFreeSlot (hfree _ hf j hj s hs)

theorem Roomy.newDir (hr : v.Roomy h need (V.alloc none c)) (h0 : V.fat c = 0) (hc : V.Chain h cs)
    (up : Nat) : v.Roomy h need (v.newDirVol c up V) := by
  have ⟨hc1, hd⟩ := newDirVol_chain (v := v) h0 up hc
  intro cs' hc'
  cases hc'.unique hc1
  have hslots : (v.newDirVol c up V).slots cs = (V.alloc none c).slots cs :=
    slots_congr fun x hx => by rw [alloc_data, hd x hx]
  rw [hslots]
  refine (hr cs (hc1.congr fun x _ => link_congr (by rw [newDirVol_fat]))).imp_right
    fun ⟨h1, h2, h3⟩ => ⟨h1, h2, fun x hf j hj s hs => ?_⟩
  have hf : v.firstFree (V.alloc none c) = some x := firstFree_congr newDirVol_fat ▸ hf
  have hne : x ≠ c := by
    rintro rfl
    have := (firstFree_eq_some hf).2
    rw [alloc_fat_self (by simp)] at this
    exact absurd this (by decide)
  rw [newDirVol_data_of_ne hne] at hs
  exact h3 x hf j hj s (by rw [alloc_data, hs])

theorem mem_window {S : List Bytes} (h : s ∈ (S.drop k).take n) : ∃ j < n, S[k + j]? = some s := by
  obtain ⟨j, hj⟩ := mem_iff_getElem?.mp h
  rw [getElem?_take] at hj
  split_ifs at hj with hlt
  exact ⟨j, hlt, getElem?_drop ▸ hj⟩

theorem OrderedSlots.free_behind {S : List Bytes} (ho : OrderedSlots S) (h : ¬Endless ((S.drop k).take n)) :
    ∀ s ∈ S.drop (k + n), isFreeSlot s = true := by
  intro s hs
  unfold Endless at h
  simp only [not_forall, not_not] at h
  obtain ⟨t, ht, hm⟩ := h
  obtain ⟨i, hlt, hi⟩ := mem_window ht
  obtain ⟨j, hj⟩ := mem_iff_getElem?.mp hs
  rw [getElem?_drop] at hj
  exact ho _ _ t s hi hj (by omega) hm

theorem Placed.split {run : List Bytes} (p : v.Placed V cs new k run V') (hc : V.Chain h cs)
    (ho : OrderedSlots (V.slots cs)) (hr : v.Roomy h run.length V) (hne : run ≠ []) :
    ∃ A F B, Endless A ∧ A.length = k ∧ V'.slots (cs ++ new) = A ++ run ++ B ∧
      ((F ≠ [] ∧ F.length = run.length ∧ V.slots cs = A ++ F ++ B ∧ (∀ s ∈ F, isFreeSlot s = true) ∧
          (¬ Endless F → ∀ s ∈ B, isFreeSlot s = true)) ∨ V.slots cs = A ∧ ∀ s ∈ B, isFreeSlot s = true) := by
  have hlen := length_pos_of_ne_nil hne
  have hfits := p.fits
  cases p.place with
  | inl hp =>
    obtain ⟨rfl, hk, hleast⟩ := hp
    rw [append_nil] at hfits
    have hend : Endless ((V.slots cs).take k) := by
      cases hr cs hc with
      | inl h =>
        obtain ⟨k', hk', he⟩ := h
        exact fun s hs => he s (take_subset_take_left _ (hleast k' hk') hs)
      | inr h => exact absurd hk (h.1 k)
    have hF : (((V.slots cs).drop k).take run.length).length = run.length := by
      rw [length_take, length_drop]
      omega
    refine ⟨(V.slots cs).take k, ((V.slots cs).drop k).take run.length, (V.slots cs).drop (k + run.length),
      hend, ?_, ?_, .inl ⟨?_, hF, ?_, fun s hs => ?_, OrderedSlots.free_behind ho⟩⟩
    · rw [length_take]
      omega
    · rw [p.slots, append_nil]
      rfl
    · exact ne_nil_of_length_pos (hlen.trans_eq hF.symm)
    · rw [← drop_drop, append_assoc, take_append_drop, take_append_drop]
    · obtain ⟨j, hlt, hj⟩ := mem_window hs
      exact hk.2.2 j hlt s hj
  | inr hp =>
    obtain ⟨x, rfl, hf, hk, hno⟩ := hp
    obtain ⟨_, hend, hfree⟩ := (hr cs hc).resolve_left fun ⟨k, hk, _⟩ => hno k hk
    have hx : V.slots (cs ++ [x]) = V.slots cs ++ slotsOf (V.data x) := by
      rw [Vol.slots_append]
      simp [Vol.slots]
    refine ⟨V.slots cs, [], (slotsOf (V.data x)).drop run.length, hend, hk.symm, ?_, .inr ⟨rfl, fun s hs => ?_⟩⟩
    · rw [p.slots, overwrite, hx, hk, take_left' rfl, drop_append]
      simp
    · obtain ⟨j, hj⟩ := mem_iff_getElem?.mp hs
      rw [getElem?_drop] at hj
      exact hfree x hf _ (Nat.le_add_right _ _) s hj

section placed

variable (p : v.Placed V cs new k (lfn ++ [slot]) V') (hc : V.Chain h cs)
variable (ho : OrderedSlots (V.slots cs)) (hr : v.Roomy h (lfn.length + 1) V)
variable (hlfn : ∀ s ∈ lfn, slotAttr s = attrLfn ∧ slotMark s ≠ slotEnd) (hl : isLive slot = true)
include p hc ho hr hlfn hl

theorem Placed.ordered : OrderedSlots (V'.slots (cs ++ new)) := by
  have ⟨A, F, B, hA, _, hV', hV⟩ := p.split hc ho (by simpa using hr) (by simp)
  have hrun : Endless (lfn ++ [slot]) := by
    intro s hs
    cases mem_append.mp hs with
    | inl hs => exact (hlfn s hs).2
    | inr hs => exact mem_singleton.mp hs ▸ (isLive_iff.mp hl).1
  have hend : Endless (A ++ (lfn ++ [slot])) := fun s hs => (mem_append.mp hs).elim (hA s) (hrun s)
  -- An end marker can only be behind the run, where nothing has changed.
  intro i j s t hi hj hlt hm
  rw [hV', getElem?_append] at hi hj
  split_ifs at hi with hi'
  · exact absurd hm (hend s (mem_of_getElem? hi))
  rw [if_neg (by omega)] at hj
  cases hV with
  | inr hV => exact hV.2 t (mem_of_getElem? hj)
  | inl hV =>
    have ⟨_, hF, hV, _, _⟩ := hV
    rw [hV] at ho
    have hlen : (A ++ F).length = (A ++ (lfn ++ [slot])).length := by simp [hF]
    have hget {j : Nat} (hj' : ¬ j < (A ++ (lfn ++ [slot])).length) :
        (A ++ F ++ B)[j]? = B[j - (A ++ (lfn ++ [slot])).length]? := by
      rw [getElem?_append_right (by omega), hlen]
    exact ho i j s t (by rw [hget hi', hi]) (by rw [hget (by omega), hj]) hlt hm

theorem Placed.entriesOf_eq : ∃ pre post run, entriesOf h (V.slots cs) = pre ++ post ∧
      entriesOf h (V'.slots (cs ++ new)) = pre ++ entryOf h run slot (k + lfn.length) :: post := by
  have ⟨A, F, B, hA, hk, hV', hV⟩ := p.split hc ho (by simpa using hr) (by simp)
  refine ⟨(scanSlots h 0 .empty A).1, (scanSlots h (k + (lfn.length + 1)) .empty B).1,
    pendingRun (pendingRun .empty A) lfn, ?_, ?_⟩
  · cases hV with
    | inl hV =>
      have ⟨hne, hlen, hV, hF, hB⟩ := hV
      have hlen : F.length = lfn.length + 1 := by simpa using hlen
      rw [hV, entriesOf, append_assoc, scanSlots_append hA]
      simp only [scanSlots_free_append hF hne hB, Nat.zero_add, hk, hlen]
    | inr hV =>
      rw [hV.1, entriesOf, scanSlots_of_not_live fun s hs => isLive_of_isFreeSlot (hV.2 s hs), append_nil]
  · rw [hV', entriesOf, append_assoc, scanSlots_append hA]
    simp only [scanSlots_entry_append hlfn hl, Nat.zero_add, hk]

end placed

theorem Placed.not_ordered (p : v.Placed V cs new k (lfn ++ [slot]) V')
    (hl : isLive slot = true) (hi : (V.slots cs)[i]? = some s) (hm : slotMark s = slotEnd) (hlt : i < k) :
    ¬ OrderedSlots (V'.slots (cs ++ new)) := by
  intro ho
  have h1 : (V'.slots (cs ++ new))[i]? = some s := by
    rw [p.slots, getElem?_overwrite p.fits, if_pos hlt, slots_append,
      getElem?_append_left (List.getElem?_eq_some_iff.mp hi).1, hi]
  have h2 : (V'.slots (cs ++ new))[k + lfn.length]? = some slot := by
    rw [p.slots, getElem?_overwrite p.fits]
    simp
  have := ho i (k + lfn.length) s slot h1 h2 (by omega) hm
  simp [not_isFreeSlot_of_isLive hl] at this

theorem Placed.lfn_slots (p : v.Placed V cs new k (lfn ++ [slot]) V') (hd : Derived name short lfn)
    (w : v.Wf V L) (hspc : v.sectorsPerCluster ≤ 16) : ∀ s ∈ lfn, slotAttr s = attrLfn ∧ slotMark s ≠ slotEnd := by
  have hper : v.slotsPerCluster ≤ 256 := by
    simp only [slotsPerCluster, clusterBytes, AtaDrive.sectorSize]
    omega
  have hlen : (lfn ++ [slot]).length = lfn.length + 1 := by simp
  have hlt : lfn.length < 256 := by
    cases p.place with
    | inl hp =>
      have := hp.2.1.1
      omega
    | inr hp =>
      obtain ⟨x, hnew, hf, hk, _⟩ := hp
      have hx : (slotsOf (V.data x)).length = v.slotsPerCluster := by
        rw [length_slotsOf, w.length_data (firstFree_eq_some hf).1, slotsPerCluster]
      have hfits := p.fits
      have hlast : V.slots [x] = slotsOf (V.data x) := by simp [Vol.slots]
      rw [hlen, hnew, slots_append, length_append, hlast, hk] at hfits
      omega
  exact fun s hs => ⟨(hd.lfn s hs).2.1, (hd.lfn s hs).2.2 hlt⟩

end Fat32
