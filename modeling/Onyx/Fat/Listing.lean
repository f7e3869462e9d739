import Onyx.Fat.Cleared
import Onyx.Fat.Ordered

-- What a scan of a directory shows when a run of slots has been placed in it, wherever that was.

open Lib Fat List

namespace Fat32

variable {v : Fat32} {V V' : Vol} {h k : Nat} {cs new : List Nat} {run lfn : List Bytes} {slot : Bytes}

namespace Placed

section

variable (p : v.Placed V cs new k run V')
include p

theorem le_length : k ≤ (V.slots cs).length := by
  cases p.place with
  | inl hp => exact Nat.le_trans (Nat.le_add_right ..) hp.2.1.2.1
  | inr hp =>
    have ⟨_, _, _, hk, _⟩ := hp
    exact le_of_eq hk

def behind (V : Vol) (cs new : List Nat) (n : Nat) : List Bytes := (V.slots (cs ++ new)).drop n

theorem slots_eq : V'.slots (cs ++ new) = (V.slots cs).take k ++ run ++ behind V cs new (k + run.length) := by
  have htake : (V.slots (cs ++ new)).take k = (V.slots cs).take k := by
    rw [Vol.slots_append, take_append_of_le_length p.le_length]
  rw [p.slots, overwrite, htake]
  rfl

theorem free_slot (hj : k ≤ j) (hj' : j < k + run.length) (hs : (V.slots cs)[j]? = some s) : isFreeSlot s = true := by
  cases p.place with
  | inl hp =>
    refine hp.2.1.2.2 (j - k) (by omega) s ?_
    rwa [Nat.add_sub_cancel' hj]
  | inr hp =>
    have ⟨_, _, _, hk, _⟩ := hp
    have := (List.getElem?_eq_some_iff.mp hs).1
    omega

theorem entriesOf_hidden (hend : ¬Endless ((V.slots cs).take k)) :
    entriesOf h (V'.slots (cs ++ new)) = entriesOf h (V.slots cs) := by
  have hold : entriesOf h (V.slots cs) = (scanSlots h 0 .empty ((V.slots cs).take k)).1 := by
    rw [entriesOf, ← take_append_drop k (V.slots cs), scanSlots_append_of_end, take_append_drop]
    exact hend
  rw [hold, p.slots_eq, entriesOf, append_assoc, scanSlots_append_of_end hend]

end

theorem entriesOf_shown (p : v.Placed V cs new k (lfn ++ [slot]) V') (hend : Endless ((V.slots cs).take k))
    (hlfn : ∀ s ∈ lfn, slotAttr s = attrLfn ∧ slotMark s ≠ slotEnd) (hl : isLive slot = true) :
    entriesOf h (V'.slots (cs ++ new)) = (scanSlots h 0 .empty ((V.slots cs).take k)).1 ++
      entryOf h (pendingRun .empty ((V.slots cs).take k ++ lfn)) slot (k + lfn.length) ::
        (scanSlots h (k + (lfn.length + 1)) .empty (behind V cs new (k + (lfn.length + 1)))).1 := by
  have hlen : (lfn ++ [slot]).length = lfn.length + 1 := length_append
  have hk : ((V.slots cs).take k).length = k := length_take_of_le p.le_length
  rw [p.slots_eq, hlen, entriesOf, append_assoc, scanSlots_append hend]
  simp only [scanSlots_entry_append hlfn hl, zero_add, hk, pendingRun, foldl_append]

-- The run has left all end markers in place and has not extended the directory.
def Within (V : Vol) (cs new : List Nat) (k n : Nat) : Prop := new = [] ∧ Endless (((V.slots cs).drop k).take n)

instance : Decidable (Within V cs new k n) := inferInstanceAs (Decidable (_ ∧ ∀ s ∈ _, _))

theorem entriesOf_before (p : v.Placed V cs new k run V') (hend : Endless ((V.slots cs).take k)) (hne : run ≠ []) :
    entriesOf h (V.slots cs) = (scanSlots h 0 .empty ((V.slots cs).take k)).1 ++
      if Within V cs new k run.length then (scanSlots h (k + run.length) .empty (behind V cs new (k + run.length))).1 else [] := by
  have hk : ((V.slots cs).take k).length = k := length_take_of_le p.le_length
  by_cases hnew : new = []
  · subst hnew
    have hfits := p.fits
    rw [append_nil] at hfits
    have hsplit : V.slots cs = (V.slots cs).take k ++ (((V.slots cs).drop k).take run.length ++ behind V cs [] (k + run.length)) := by
      rw [behind, append_nil, ← drop_drop, take_append_drop, take_append_drop]
    have hF : ∀ s ∈ ((V.slots cs).drop k).take run.length, isFreeSlot s = true := by
      intro s hs
      obtain ⟨j, hj⟩ := mem_iff_getElem?.mp hs
      rw [getElem?_take] at hj
      split_ifs at hj with hlt
      rw [getElem?_drop] at hj
      exact p.free_slot (Nat.le_add_right k j) (Nat.add_lt_add_left hlt k) hj
    have hlen : (((V.slots cs).drop k).take run.length).length = run.length := by
      rw [length_take, length_drop]
      omega
    conv => lhs; rw [hsplit]
    rw [entriesOf, scanSlots_append hend, hk, zero_add]
    simp only
    by_cases hin : Endless (((V.slots cs).drop k).take run.length)
    · have hF0 : ((V.slots cs).drop k).take run.length ≠ [] := ne_nil_of_length_pos (by
        rw [hlen]
        exact length_pos_of_ne_nil hne)
      rw [if_pos ⟨rfl, hin⟩, scanSlots_free_append hF hF0 (fun h => absurd hin h), hlen]
    · rw [if_neg fun h => hin h.2, scanSlots_append_of_end hin]
      simp [scanSlots_of_not_live fun s hs => isLive_of_isFreeSlot (hF s hs)]
  · have hall : (V.slots cs).take k = V.slots cs := by
      cases p.place with
      | inl hp => exact absurd hp.1 hnew
      | inr hp =>
        obtain ⟨_, _, _, hk, _⟩ := hp
        exact take_of_length_le (le_of_eq hk.symm)
    rw [if_neg fun h => hnew h.1, append_nil, hall]
    rfl

theorem dirIndex_ne (p : v.Placed V cs new k (lfn ++ [slot]) V') (he : e ∈ entriesOf h (V.slots cs)) :
    e.dirIndex ≠ k + lfn.length := by
  intro heq
  have ⟨j, s, hj, hl, _, he⟩ := mem_scanSlots.mp he
  have hidx : e.dirIndex = j := by
    rw [he]
    exact zero_add j
  have hfree := p.free_slot (j := j) (by omega) (by rw [length_append, length_singleton]; omega) hj
  rw [isLive_of_isFreeSlot hfree] at hl
  cases hl

theorem entriesOf_ne (p : v.Placed V cs new k (lfn ++ [slot]) V') (hend : Endless ((V.slots cs).take k))
    (hlfn : ∀ s ∈ lfn, slotAttr s = attrLfn ∧ slotMark s ≠ slotEnd) (hl : isLive slot = true) :
    entriesOf h (V'.slots (cs ++ new)) ≠ entriesOf h (V.slots cs) := by
  intro heq
  have hmem : entryOf h (pendingRun .empty ((V.slots cs).take k ++ lfn)) slot (k + lfn.length) ∈
      entriesOf h (V.slots cs) := by
    rw [← heq, p.entriesOf_shown hend hlfn hl]
    exact mem_append_right _ (mem_cons_self ..)
  exact p.dirIndex_ne hmem rfl

-- Nothing that would be listed stands in front of the next end marker.
def Bare (B : List Bytes) : Prop := ∀ (j : Nat) (s : Bytes), B[j]? = some s → isLive s = true → ¬Endless (B.take j)

theorem bare_iff : Bare B ↔ (scanSlots h idx pend B).1 = [] := by
  rw [eq_nil_iff_forall_not_mem]
  constructor
  · intro hb e he
    have ⟨j, s, hj, hl, hend, _⟩ := mem_scanSlots.mp he
    exact hb j s hj hl hend
  · intro hno j s hj hl hend
    exact hno _ (mem_scanSlots.mpr ⟨j, s, hj, hl, hend, rfl⟩)

-- The entries that come into the reach of a scan.
def revealed (V : Vol) (h : Nat) (cs new : List Nat) (k n : Nat) : List RawEntry :=
  if Within V cs new k n then [] else (scanSlots h (k + n) .empty (behind V cs new (k + n))).1

theorem revealed_eq_nil_iff : revealed V h cs new k n = [] ↔ Within V cs new k n ∨ Bare (behind V cs new (k + n)) := by
  unfold revealed
  split_ifs with hin
  · exact iff_of_true rfl (.inl hin)
  · rw [or_iff_right hin, bare_iff]

section shown

variable (p : v.Placed V cs new k (lfn ++ [slot]) V') (hend : Endless ((V.slots cs).take k))
variable (hlfn : ∀ s ∈ lfn, slotAttr s = attrLfn ∧ slotMark s ≠ slotEnd) (hl : isLive slot = true)
include p hend

theorem ne_of_revealed (he : e ∈ entriesOf h (V.slots cs)) (hr : e' ∈ revealed V h cs new k (lfn.length + 1)) :
    e'.dirIndex ≠ e.dirIndex := by
  have hbefore := p.entriesOf_before (h := h) hend (by simp)
  rw [length_append, length_singleton] at hbefore
  unfold revealed at hr
  split_ifs at hbefore hr with hin
  · cases hr
  rw [hbefore, append_nil] at he
  have h1 := lt_of_mem_scanSlots he
  have h2 := dirIndex_of_mem_scanSlots hr
  rw [length_take] at h1
  omega

include hlfn hl

theorem perm_shown : (entriesOf h (V'.slots (cs ++ new))).Perm
    (entryOf h (pendingRun .empty ((V.slots cs).take k ++ lfn)) slot (k + lfn.length) ::
      (entriesOf h (V.slots cs) ++ revealed V h cs new k (lfn.length + 1))) := by
  have hbefore := p.entriesOf_before (h := h) hend (by simp)
  rw [length_append, length_singleton] at hbefore
  rw [p.entriesOf_shown hend hlfn hl, hbefore]
  refine perm_middle.trans (.cons _ ?_)
  unfold revealed
  split_ifs
  · rw [append_nil]
  · rw [append_nil]

theorem find?_shown (hno : ∀ e ∈ entriesOf h (V.slots cs), P e = false) :
    (entriesOf h (V'.slots (cs ++ new))).find? P =
      (entryOf h (pendingRun .empty ((V.slots cs).take k ++ lfn)) slot (k + lfn.length) ::
        revealed V h cs new k (lfn.length + 1)).find? P := by
  have hbefore := p.entriesOf_before (h := h) hend (by simp)
  rw [length_append, length_singleton] at hbefore
  have hnone {l : List RawEntry} (hl : ∀ e ∈ l, e ∈ entriesOf h (V.slots cs)) : l.find? P = none :=
    find?_eq_none.mpr fun e he => by rw [hno e (hl e he)]; decide
  rw [hbefore] at hnone
  rw [p.entriesOf_shown hend hlfn hl, find?_append, hnone fun e he => mem_append_left _ he, Option.none_or,
    find?_cons, find?_cons]
  unfold revealed
  split_ifs at hnone ⊢
  · rw [hnone fun e he => mem_append_right _ he]
    rfl
  · rfl

end shown

theorem endless_take (p : v.Placed V cs new k run V') (hrun : Endless run) (hi : i ≤ (V.slots cs).length)
    (hend : Endless ((V.slots cs).take i)) : Endless ((V'.slots (cs ++ new)).take i) := by
  intro s hs
  obtain ⟨j, hj⟩ := mem_iff_getElem?.mp hs
  rw [getElem?_take] at hj
  split_ifs at hj with hlt
  have hold : (V.slots (cs ++ new))[j]? = some s → slotMark s ≠ slotEnd := by
    intro h
    rw [Vol.slots_append, getElem?_append_left (by omega)] at h
    refine hend s (mem_iff_getElem?.mpr ⟨j, ?_⟩)
    rw [getElem?_take, if_pos hlt, h]
  rw [p.slots, getElem?_overwrite p.fits] at hj
  split_ifs at hj
  · exact hold hj
  · exact hrun s (mem_of_getElem? hj)
  · exact hold hj

end Placed

-- The files listed on `d` that meet `P` have the same clusters and contents on `d'`.
def KeepsFiles (v : Fat32) (L : Layout) (d d' : AtaDrive) (P : RawEntry → Prop) : Prop :=
  ∀ h ∈ L.dirs, ∀ es, v.scanDir d h = .ok es → ∀ e ∈ es, P e → NotDot e.short → e.isDir = false → e.firstCluster ≠ 0 →
    ∀ as, (v.vol d).Chain e.firstCluster as →
      (v.vol d').Chain e.firstCluster as ∧ ∀ c ∈ as, (v.vol d').data c = (v.vol d).data c

theorem Wf.owner_of_listed (w : v.Wf V L) (hs : v.Shows d V) (hh : h ∈ L.dirs) (hscan : v.scanDir d h = .ok es)
    (he : e ∈ es) (hn : NotDot e.short) (hdir : e.isDir = false) (hfirst : e.firstCluster ≠ 0) (hc : V.Chain e.firstCluster as) :
    ∀ c ∈ as, L.owner c = some (.file h e.dirIndex) := by
  have ⟨as', hc', hv⟩ := w.scanDir hs hh
  rw [hscan] at hv
  rw [(checkIndices_eq_ok.mp hv.symm).1] at he
  have ⟨k, slot, hk, hl, _, heq⟩ := mem_scanSlots.mp he
  have hidx : e.dirIndex = k := by
    rw [heq]
    exact zero_add k
  have hshort : e.short = shortName slot := by rw [heq]; rfl
  have hf : slotFirst slot = e.firstCluster := by rw [heq]; rfl
  have hd : slotIsDir slot = e.isDir := by rw [heq]; rfl
  have hdot : isDot slot = false := by
    simp only [isDot, ← hshort, decide_eq_false_iff_not, not_or]
    exact hn
  rw [hidx]
  cases w.entries hh hc' hk hl hdot with
  | empty hz _ => exact absurd (hf.symm.trans hz) hfirst
  | dir hd' _ _ =>
    rw [hd, hdir] at hd'
    cases hd'
  | file bs _ hb ho _ =>
    rw [hf] at hb
    cases hc.unique hb
    exact ho

theorem Edit.keepsFiles (E : v.Edit V L h i cs V' L') (w : v.Wf V L) (hs : v.Shows d V)
    (hs' : v.Shows d' V') : v.KeepsFiles L d d' fun e => ¬(e.dirCluster = h ∧ e.dirIndex = i) := by
  intro h' hh es hscan e he hne hdot hdir hfirst as hc
  rw [hs.vol] at hc
  rw [hs.vol, hs'.vol]
  have ho := w.owner_of_listed hs hh hscan he hdot hdir hfirst hc
  have ⟨_, _, hv⟩ := w.scanDir hs hh
  rw [hscan] at hv
  rw [(checkIndices_eq_ok.mp hv.symm).1] at he
  rw [dirCluster_of_mem_entriesOf he] at hne
  have ⟨h1, h2, _⟩ := E.chain_of_owner hc ho nofun fun heq => hne (Owner.file.inj heq)
  exact ⟨h1, h2⟩

theorem Wf.keepsFiles_of_frame (w : v.Wf V L) (hs : v.Shows d V) (hs' : v.Shows d' V') (hh : h ∈ L.dirs)
    (hc : V.Chain h cs) (hframe : ∀ c, V.fat c ≠ 0 → c ∉ cs → V'.fat c = V.fat c ∧ V'.data c = V.data c) :
    v.KeepsFiles L d d' fun _ => True := by
  intro h' hh' es hscan e he _ hdot hdir hfirst as has
  rw [hs.vol] at has
  rw [hs.vol, hs'.vol]
  have ho := w.owner_of_listed hs hh' hscan he hdot hdir hfirst has
  have hout (c : Nat) (hm : c ∈ as) : c ∉ cs := fun hm' => by
    cases (ho c hm).symm.trans (w.owner_of_dir hh hc c hm')
  have hkeep (c : Nat) (hm : c ∈ as) := hframe c (has.fat_ne_zero hm) (hout c hm)
  exact ⟨has.congr fun c hm => Vol.link_congr (hkeep c hm).1, fun c hm => (hkeep c hm).2⟩

theorem Wf.scanDir_of_frame (w : v.Wf V L) (hs : v.Shows d V) (hs' : v.Shows d' V') (hh : h ∈ L.dirs)
    (hc : V.Chain h cs) (hframe : ∀ c, V.fat c ≠ 0 → c ∉ cs → V'.fat c = V.fat c ∧ V'.data c = V.data c)
    (hh' : h' ∈ L.dirs) (hne : h' ≠ h) : v.scanDir d' h' = v.scanDir d h' := by
  have ⟨as, has, hscan⟩ := w.scanDir hs hh'
  have hout (c : Nat) (hm : c ∈ as) : c ∉ cs := fun hm' => by
    cases (w.owner_of_dir hh' has c hm).symm.trans (w.owner_of_dir hh hc c hm')
    exact hne rfl
  have hkeep (c : Nat) (hm : c ∈ as) := hframe c (has.fat_ne_zero hm) (hout c hm)
  have has' : V'.Chain h' as := has.congr fun c hm => Vol.link_congr (hkeep c hm).1
  rw [hscan, hs'.scanDir has' (w.chain_valid hh' has), Vol.slots_congr fun c hm => (hkeep c hm).2]

end Fat32
