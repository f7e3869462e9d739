import Onyx.Fat.Call
import Onyx.Lib.Execution

-- Cluster allocation over whole runs of the driver.

open Lib Fat Option

namespace Fat32

-- The slot holds an entry for a file or a directory, other than `.` and `..`.
structure IsEntry (V : Vol) (h i : Nat) (slot : Bytes) : Prop where
  index : ∃ cs, V.Chain h cs ∧ (V.slots cs)[i]? = some slot
  live : isLive slot = true
  notDot : isDot slot = false

-- The first clusters of the directories that can be reached from the root.
inductive IsDirectory (v : Fat32) (V : Vol) : Nat → Prop
  | root : IsDirectory v V v.rootCluster
  | entry : IsDirectory v V h → IsEntry V h i slot → slotIsDir slot = true → slotFirst slot ≠ 0 →
    IsDirectory v V (slotFirst slot)

structure Heads (v : Fat32) (V : Vol) (h i : Nat) (slot : Bytes) (cs : List Nat) : Prop where
  dir : v.IsDirectory V h
  entry : IsEntry V h i slot
  first : slotFirst slot ≠ 0
  chain : V.Chain (slotFirst slot) cs

-- The allocation of clusters, as the directories and the FAT show it.
structure Allocated (v : Fat32) (V : Vol) : Prop where
  -- An entry with a first cluster heads a chain of clusters in use.
  chain : ∀ {h i slot}, v.IsDirectory V h → IsEntry V h i slot → slotFirst slot ≠ 0 →
    ∃ cs, V.Chain (slotFirst slot) cs ∧ ∀ c ∈ cs, V.fat c ≠ 0
  -- No cluster is in the chains of two entries.
  entries : ∀ {h i slot cs h' i' slot' cs'}, v.Heads V h i slot cs → v.Heads V h' i' slot' cs' →
    (h, i) ≠ (h', i') → ∀ c ∈ cs, c ∉ cs'
  dirs : ∀ {h i slot cs h' cs'}, v.Heads V h i slot cs → v.IsDirectory V h' → V.Chain h' cs' →
    ¬ (slotIsDir slot = true ∧ slotFirst slot = h') → ∀ c ∈ cs, c ∉ cs'
  -- The chain of a file holds its size; a file without clusters is empty.
  size : ∀ {h i slot}, v.IsDirectory V h → IsEntry V h i slot → slotIsDir slot = false →
    slotFirst slot = 0 ∧ slotSize slot = 0 ∨
      ∃ cs, V.Chain (slotFirst slot) cs ∧ slotSize slot ≤ cs.length * v.clusterBytes

variable {v : Fat32} {V : Vol} {L : Layout} {d d' : AtaDrive} {h i : Nat} {slot : Bytes} {cs : List Nat}

namespace Wf

variable (w : v.Wf V L)
include w

theorem entryOk_of_isEntry (hh : h ∈ L.dirs) (e : IsEntry V h i slot) : v.EntryOk V L h i slot := by
  have ⟨_, hc, hi⟩ := e.index
  exact w.entries hh hc hi e.live e.notDot

theorem mem_of_isDirectory (hd : v.IsDirectory V h) : h ∈ L.dirs := by
  induction hd with
  | root => exact w.root
  | entry _ e hd h0 hi =>
    cases w.entryOk_of_isEntry hi e with
    | empty h1 _ => exact absurd h1 h0
    | dir _ hm _ => exact hm
    | file _ h1 _ _ _ => simp [hd] at h1

theorem owner_of_heads (e : v.Heads V h i slot cs) : (∀ c ∈ cs, L.owner c = some (.file h i)) ∨
      slotIsDir slot = true ∧ L.parent (slotFirst slot) = some (h, i) ∧
        ∀ c ∈ cs, L.owner c = some (.dir (slotFirst slot)) := by
  cases w.entryOk_of_isEntry (w.mem_of_isDirectory e.dir) e.entry with
  | empty h1 _ => exact absurd h1 e.first
  | dir h1 hm hp => exact .inr ⟨h1, hp, w.owner_of_dir hm e.chain⟩
  | file cs' _ hc' ho _ => exact .inl (e.chain.unique hc' ▸ ho)

theorem allocated : v.Allocated V where
  chain hd e h0 := by
    cases w.entryOk_of_isEntry (w.mem_of_isDirectory hd) e with
    | empty h1 _ => exact absurd h1 h0
    | dir _ hm _ =>
      have ⟨cs, hc, _⟩ := w.dirs hm
      exact ⟨cs, hc, fun _ => hc.fat_ne_zero⟩
    | file cs _ hc _ _ => exact ⟨cs, hc, fun _ => hc.fat_ne_zero⟩
  entries e e' hne c hm hm' := by
    -- Two owners of one cluster are the same, and a directory has only one entry.
    cases w.owner_of_heads e with
    | inl ho =>
      cases w.owner_of_heads e' with
      | inl ho' =>
        have := (ho c hm).symm.trans (ho' c hm')
        simp only [some.injEq, Owner.file.injEq] at this
        exact hne (by simp [this])
      | inr ho' =>
        have := (ho c hm).symm.trans (ho'.2.2 c hm')
        simp at this
    | inr ho =>
      cases w.owner_of_heads e' with
      | inl ho' =>
        have := (ho.2.2 c hm).symm.trans (ho' c hm')
        simp at this
      | inr ho' =>
        have := (ho.2.2 c hm).symm.trans (ho'.2.2 c hm')
        simp only [some.injEq, Owner.dir.injEq] at this
        have hp := ho.2.1
        rw [this, ho'.2.1] at hp
        exact hne (some.inj hp).symm
  dirs e hd hc hne c hm hm' := by
    have ho' := w.owner_of_dir (w.mem_of_isDirectory hd) hc c hm'
    cases w.owner_of_heads e with
    | inl ho =>
      have := (ho c hm).symm.trans ho'
      simp at this
    | inr ho =>
      have := (ho.2.2 c hm).symm.trans ho'
      simp only [some.injEq, Owner.dir.injEq] at this
      exact hne ⟨ho.1, this⟩
  size hd e hf := by
    cases w.entryOk_of_isEntry (w.mem_of_isDirectory hd) e with
    | empty h1 h2 => exact .inl ⟨h1, h2 hf⟩
    | dir h1 _ _ => simp [hf] at h1
    | file cs _ hc _ hs => exact .inr ⟨cs, hc, hs⟩

end Wf

def Step (v : Fat32) (d : AtaDrive) (c : Call) (d' : AtaDrive) : Prop :=
  ∃ r, (v.exec c).run d = (.ok r, d')

theorem Step.of_writeAt (h : (v.writeAt now path off buf).run d = (.ok n, d')) :
    v.Step d (.writeAt now path off buf) d' :=
  ⟨_, exec_writeAt h⟩

theorem WellFormed.step (w : v.WellFormed d) (hT : v.Tidy d c) (hs : v.Step d c d') : v.WellFormed d' := by
  have ⟨r, d1, d2, h1, _, ha⟩ := w.alike.exec hT (.inr rfl)
  have ⟨_, h⟩ := hs
  cases h1.symm.trans h
  exact (ha (by simp [abort])).left

theorem StoreStep.not_allocated
    (st : v.StoreStep V L e off buf dir slot cs cs' V1) (w : v.Wf V L) (hs : v.Shows d V)
    (hdir : v.IsDirectory (v.storedVol now e dir slot cs cs' off buf V1) e.dirCluster)
    (h0 : off + buf.length = 0) (hf : e.firstCluster ≠ 0) :
    ¬ v.Allocated (v.storedVol now e dir slot cs cs' off buf V1) := by
  intro A
  have hhead := slotHead_direntSlot (st.storable.dirChain.length_slot st.storable.spc_pos st.storable.index) now
    (storedEntry e cs cs' (off + buf.length))
  have hlt := (List.getElem?_eq_some_iff.mp st.storable.index).1
  have hE : IsEntry (v.storedVol now e dir slot cs cs' off buf V1) e.dirCluster e.dirIndex
      (direntSlot now (storedEntry e cs cs' (off + buf.length)) slot) := by
    refine ⟨⟨dir, (st.edit now w).chain, ?_⟩, (isLive_eq_of_slotHead hhead).trans st.live,
      (isDot_eq_of_slotHead hhead).trans st.notDot⟩
    rw [storedVol_slots now st.fitted st.storable, List.getElem?_set_self hlt]
  have hc := (st.storable.names.resolve_left fun h => hf h.1).2
  have hfirst : slotFirst (direntSlot now (storedEntry e cs cs' (off + buf.length)) slot) = e.firstCluster :=
    (st.slotFirst_eq now hs).trans (if_neg hc.ne_nil)
  have ⟨_, hc', _⟩ := A.chain hdir hE (hfirst ▸ hf)
  rw [hfirst] at hc'
  refine hc'.fat_ne_zero hc'.mem_head ?_
  have hnil : cs' = [] := by
    refine List.eq_nil_of_length_eq_zero (st.fitted.length.trans ?_)
    rw [h0, clustersFor, Nat.zero_add]
    exact Nat.div_eq_of_lt (Nat.sub_lt st.storable.clusterBytes_pos Nat.one_pos)
  rw [storedVol_fat, st.fitted.freed _ hc.mem_head (by simp [hnil])]

end Fat32
