import Onyx.Fat.Remove
import Onyx.Fat.WriteRead

-- What writing to a file and removing it leave of a well-formed volume.

open Lib Fat List

namespace Fat32

variable {v : Fat32} {V V' : Vol} {L : Layout} {e : RawEntry} {slot buf : Bytes} {now : ℤ} {off : Nat}
variable {dir cs cs' : List Nat}

-- The clusters that `write_at` keeps hold the old contents, and no named chain is freed.
def Keeps (v : Fat32) (e : RawEntry) (newEnd : Nat) : Prop :=
  e.size ≤ v.clustersFor newEnd * v.clusterBytes ∧ (newEnd = 0 → e.firstCluster = 0)

namespace FileAt

variable (a : v.FileAt V L e dir slot cs) (w : v.Wf V L)
include a w

theorem dir_owner (hc : c ∈ dir) : L.owner c = some (.dir e.dirCluster) :=
  w.owner_of_dir a.mem a.storable.dirChain.chain c hc

theorem edit_grown (g : v.Grown V cs new V') :
    v.Edit V L e.dirCluster e.dirIndex dir V' (L.claim new (.file e.dirCluster e.dirIndex)) := by
  have hdir (c : Nat) (hc : c ∈ dir) : c ∉ new := fun hm =>
    a.storable.dirChain.chain.fat_ne_zero hc (g.fresh c hm).2
  refine ⟨?_, ?_, rfl, ?_, ?_, w.root_parent, fun hp _ => hp,
    g.chain_of_disjoint a.storable.dirChain.chain a.storable.disjoint, ?_⟩
  · intro c hc
    rw [g.data, w.length_data hc]
  · intro c hf _ ho
    refine ⟨g.fat_of_ne_zero hf fun hm => ho (a.owner c (mem_of_mem_getLast? hm)), by rw [g.data]⟩
  · intro c o ho
    simp only [Layout.claim] at ho
    split_ifs at ho with hm
    · exact (g.fresh c hm).1
    · exact w.valid ho
  · intro c o hf ho _
    have hn : c ∉ new := fun hm => hf (g.fresh c hm).2
    simp [Layout.claim, hn, ho]
  · intro c hc
    simp [Layout.claim, hdir c hc, a.dir_owner w hc]

theorem wf_grown (g : v.Grown V cs new V') : v.Wf V' (L.claim new (.file e.dirCluster e.dirIndex)) := by
  have E := a.edit_grown w g
  have hslots : V'.slots dir = V.slots dir := Vol.slots_congr fun c _ => by rw [g.data]
  refine E.wf w ?_ ?_
  · intro j s hj hl hd
    rw [hslots] at hj
    by_cases hji : j = e.dirIndex
    · subst hji
      cases hj.symm.trans a.storable.index
      cases a.storable.names with
      | inl hn =>
        have hz := a.size_le
        rw [hn.2, length_nil, zero_mul] at hz
        exact .empty (a.first.trans hn.1) fun _ => by rw [a.size]; omega
      | inr hn =>
        refine .file (cs ++ new) a.isDir (a.first ▸ g.chain _ (.inl hn.2)) ?_ ?_
        · intro c hc
          simp only [Layout.claim]
          split_ifs with hm
          · rfl
          · exact a.owner c ((mem_append.mp hc).resolve_right hm)
        · have := a.size_le
          rw [a.size, length_append, add_mul]
          omega
    · exact E.entryOk (w.entries a.mem a.storable.dirChain.chain hj hl hd) (by simp [hji])
  · intro j s hj hl hd
    rw [hslots] at hj ⊢
    exact w.dots a.mem a.storable.dirChain.chain hj hl hd

end FileAt
namespace StoreStep

variable {V1 : Vol} (st : v.StoreStep V L e off buf dir slot cs cs' V1)
include st

theorem entryOk (hs : v.Shows d V) (hk : v.Keeps e (off + buf.length)) :
    v.EntryOk (v.storedVol now e dir slot cs cs' off buf V1) (L.claim cs' (.file e.dirCluster e.dirIndex))
      e.dirCluster e.dirIndex (direntSlot now (storedEntry e cs cs' (off + buf.length)) slot) := by
  have hhead := slotHead_direntSlot (st.storable.dirChain.length_slot st.storable.spc_pos st.storable.index) now
    (storedEntry e cs cs' (off + buf.length))
  have hend := le_clustersFor_mul (n := off + buf.length) st.storable.clusterBytes_pos
  have hfirst := st.slotFirst_eq now hs
  have hsize := st.slotSize_eq now
  cases eq_zero_or_pos (v.clustersFor (off + buf.length)) with
  | inl h0 =>
    rw [h0, zero_mul] at hend
    have hz := hk.1
    rw [h0, zero_mul] at hz
    have he0 := hk.2 (by omega)
    have hnil : cs' = [] := eq_nil_of_length_eq_zero (st.fitted.length.trans h0)
    refine .empty ?_ fun _ => by rw [hsize]; omega
    rw [hfirst]
    simp [storedEntry, hnil, he0]
  | inr hp =>
    obtain ⟨_, hc⟩ := st.chain_eq now hp
    refine .file cs' ((slotIsDir_eq_of_slotHead hhead).trans st.isDir) (hfirst ▸ hc) ?_ ?_
    · intro c hm
      simp [Layout.claim, hm]
    · have := hk.1
      rw [hsize, st.fitted.length]
      omega

variable (now) in
theorem edit (w : v.Wf V L) : v.Edit V L e.dirCluster e.dirIndex dir (v.storedVol now e dir slot cs cs' off buf V1)
      (L.claim cs' (.file e.dirCluster e.dirIndex)) := by
  have hdir {c : Nat} (hc : c ∈ dir) : c ∉ cs' := st.storable.dir_disjoint st.fitted hc
  refine ⟨?_, ?_, rfl, ?_, ?_, w.root_parent, fun hp _ => hp, ?_, ?_⟩
  · intro c hc
    rw [length_storedVol st.fitted st.storable, w.length_data hc]
  · intro c hf hd ho
    have h1 : c ∉ cs := fun hm => ho (st.owner c hm)
    have h2 : c ∉ cs' := fun hm => hf (st.fitted.fresh c hm h1)
    have h3 : c ∉ dir := fun hm => hd (st.toFileAt.dir_owner w hm)
    exact ⟨by rw [storedVol_fat, st.fitted.fat c h1 h2], storedVol_data_of_not_mem st.fitted h3 h2⟩
  · intro c o ho
    simp only [Layout.claim] at ho
    split_ifs at ho with hm
    · exact st.fitted.valid c hm
    · exact w.valid ho
  · intro c o hf ho hne
    have hn : c ∉ cs' := fun hm => hf <| st.fitted.fresh c hm fun hc => hne <|
      Option.some.inj (ho.symm.trans (st.owner c hc))
    simp [Layout.claim, hn, ho]
  · refine (st.fitted.chain_of_disjoint st.storable.dirChain.chain st.storable.disjoint).congr
      fun c _ => Vol.link_congr ?_
    rw [storedVol_fat]
  · intro c hc
    simp [Layout.claim, hdir hc, st.toFileAt.dir_owner w hc]

theorem wf (w : v.Wf V L) (hs : v.Shows d V) (hk : v.Keeps e (off + buf.length)) :
    v.Wf (v.storedVol now e dir slot cs cs' off buf V1) (L.claim cs' (.file e.dirCluster e.dirIndex)) := by
  have r := st.storable.dirChain
  have E := st.edit now w
  have hhead := slotHead_direntSlot (r.length_slot st.storable.spc_pos st.storable.index) now
    (storedEntry e cs cs' (off + buf.length))
  have hlt := (List.getElem?_eq_some_iff.mp st.storable.index).1
  have hslots := storedVol_slots now st.fitted st.storable
  refine E.wf w ?_ ?_
  · intro j s hj hl hd
    rw [hslots, List.getElem?_set] at hj
    split_ifs at hj with hji
    · subst hji
      cases hj
      exact st.entryOk hs hk
    · exact E.entryOk (w.entries st.mem r.chain hj hl hd) (by simpa [eq_comm] using hji)
  · intro j s hj hl hd
    rw [hslots, List.getElem?_set] at hj
    split_ifs at hj with hji
    · cases hj
      simp [isDot_eq_of_slotHead hhead, st.notDot] at hd
    refine (w.dots st.mem r.chain hj hl hd).imp_right fun ⟨h1, s', hs', hl', hd'⟩ => ⟨h1, s', ?_, hl', hd'⟩
    rw [hslots, List.getElem?_set, if_neg ?_]
    · exact hs'
    · intro h0
      rw [← h0, st.storable.index] at hs'
      cases hs'
      simp [st.notDot] at hd'

end StoreStep

def unlinkVol (v : Fat32) (e : RawEntry) (dir cs : List Nat) (V : Vol) : Vol :=
  if e.firstCluster ≠ 0 then (v.removeVol dir e.dirIndex V).cut cs 0 else v.removeVol dir e.dirIndex V

theorem unlinkVol_data : (v.unlinkVol e dir cs V).data = (v.removeVol dir e.dirIndex V).data := by
  unfold unlinkVol
  split_ifs <;> simp

theorem unlinkVol_fat_of_not_mem (hc : c ∉ cs) : (v.unlinkVol e dir cs V).fat c = V.fat c := by
  unfold unlinkVol
  split_ifs
  · rw [cut_fat_of_not_mem hc, removeVol_fat]
  · rw [removeVol_fat]

theorem DirChain.length_mem_slots (r : v.DirChain V h cs) (hp : 0 < v.sectorsPerCluster) :
    ∀ s ∈ V.slots cs, s.length = 32 := by
  intro s hs
  have ⟨k, hk⟩ := mem_iff_getElem?.mp hs
  exact r.length_slot hp hk

namespace FileAt

variable (a : v.FileAt V L e dir slot cs)
include a

theorem does_deleteEntry : v.Does (v.deleteEntry e) V (.ok ()) (v.unlinkVol e dir cs V) := by
  have st := a.storable
  have hk := (List.getElem?_eq_some_iff.mp st.index).1
  refine .bind (st.dirChain.does_removeDirSlots st.spc_pos hk rfl rfl) ?_
  unfold unlinkVol
  cases st.names with
  | inl hn =>
    rw [if_neg (by simp [hn.1]), if_neg (by simp [hn.1])]
    exact .pure
  | inr hn =>
    rw [if_pos hn.1, if_pos hn.1]
    refine does_freeFrom (hn.2.congr fun c _ => Vol.link_congr ?_) st.valid (Nat.zero_le _)
    rw [removeVol_fat]

theorem edit_unlinkVol (w : v.Wf V L) : v.Edit V L e.dirCluster e.dirIndex dir (v.unlinkVol e dir cs V) L := by
  have st := a.storable
  have r := st.dirChain
  have hk := (List.getElem?_eq_some_iff.mp st.index).1
  refine ⟨?_, ?_, rfl, w.valid, fun _ ho _ => ho, w.root_parent, fun hp _ => hp, ?_, fun c hc => a.dir_owner w hc⟩
  · intro c hc
    rw [unlinkVol_data, r.length_removeVol st.spc_pos hk, w.length_data hc]
  · intro c hf hd ho
    exact ⟨unlinkVol_fat_of_not_mem fun hm => ho (a.owner c hm), by
      rw [unlinkVol_data, removeVol_data_of_not_mem fun hm => hd (a.dir_owner w hm)]⟩
  · exact r.chain.congr fun c hc => Vol.link_congr (unlinkVol_fat_of_not_mem (st.disjoint c hc))

theorem erased_unlinkVol : Erased (V.slots dir) ((v.unlinkVol e dir cs V).slots dir) e.dirIndex := by
  have st := a.storable
  have hk := (List.getElem?_eq_some_iff.mp st.index).1
  have hs : (v.unlinkVol e dir cs V).slots dir = (v.removeVol dir e.dirIndex V).slots dir :=
    Vol.slots_congr fun c _ => by rw [unlinkVol_data]
  exact hs ▸ st.dirChain.erased_removeVol st.spc_pos hk

theorem wf_unlinkVol (w : v.Wf V L) : v.Wf (v.unlinkVol e dir cs V) L := by
  have st := a.storable
  have r := st.dirChain
  have E := a.edit_unlinkVol w
  have her := a.erased_unlinkVol
  have hlen := r.length_mem_slots st.spc_pos
  refine E.wf w ?_ ?_
  · intro j s hj hl hd
    have ⟨hne, hj'⟩ := her.live_slot hlen hj hl
    exact E.entryOk (w.entries a.mem r.chain hj' hl hd) (by simpa using hne)
  · intro j s hj hl hd
    have ⟨_, hj'⟩ := her.live_slot hlen hj hl
    refine (w.dots a.mem r.chain hj' hl hd).imp_right fun ⟨h1, s', hs', hl', hd'⟩ => ⟨h1, s', ?_, hl', hd'⟩
    refine her.getElem?_of_live hs' (fun h0 => ?_) hl'
    rw [h0, st.index] at hs'
    cases hs'
    simp [a.notDot] at hd'

end FileAt

end Fat32
