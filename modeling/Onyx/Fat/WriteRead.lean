import Onyx.Fat.Image
import Onyx.Fat.Store

-- The law of reading after writing for `write_at` on an existing file.

open Lib Fat List

namespace Fat32

variable {v : Fat32} {V V' : Vol} {L : Layout} {d d' : AtaDrive} {e : RawEntry} {s slot : Bytes}
variable {dir cs : List Nat}

-- `V'` is `V` with a slot of a file's entry rewritten behind its head.
structure Reslotted (V : Vol) (L : Layout) (V' : Vol) (e : RawEntry) (dir : List Nat) (s : Bytes) :
    Prop where
  chain : ∀ {h cs}, h ∈ L.dirs → V.Chain h cs → V'.Chain h cs
  other : ∀ {h cs}, h ∈ L.dirs → h ≠ e.dirCluster → V.Chain h cs → V'.slots cs = V.slots cs
  slots : V'.slots dir = (V.slots dir).set e.dirIndex s

def restamp (e : RawEntry) (s : Bytes) (e' : RawEntry) : RawEntry :=
  if e'.dirCluster = e.dirCluster ∧ e'.dirIndex = e.dirIndex ∧ e'.isDir = false then reslot s e' else e'

theorem restamp_self (h : e.isDir = false) : restamp e s e = reslot s e :=
  if_pos ⟨rfl, rfl, h⟩

theorem checkIndices_map (hf : ∀ e, (f e).dirIndex = e.dirIndex) :
    checkIndices (es.map f) = (checkIndices es).map (map f) := by
  have : (fun e => decide (2 ^ 32 ≤ e.dirIndex)) ∘ f = fun e => decide (2 ^ 32 ≤ e.dirIndex) := by
    funext e
    simp [hf]
  simp only [checkIndices, any_map, this]
  split_ifs <;> rfl

theorem dirCluster_of_mem_entriesOf (he : e ∈ entriesOf h slots) : e.dirCluster = h := by
  have ⟨_, _, _, _, _, he⟩ := mem_scanSlots.mp he
  exact congrArg RawEntry.dirCluster he

theorem Reslotted.entriesOf_eq (r : Reslotted V L V' e dir s) (l : Located V L e dir slot)
    (hd : e.isDir = false) (hs : slotHead s = slotHead slot) (hh : h ∈ L.dirs) (hc : V.Chain h cs) :
    entriesOf h (V'.slots cs) = (entriesOf h (V.slots cs)).map (restamp e s) := by
  by_cases he : h = e.dirCluster
  · subst he
    cases hc.unique l.chain
    rw [r.slots, entriesOf, scanSlots_set l.index l.live hs]
    refine map_congr_left fun e' he' => ?_
    have hdc := dirCluster_of_mem_entriesOf he'
    unfold restamp
    by_cases hi : e'.dirIndex = e.dirIndex
    · have hd' : e'.isDir = false := by
        have ⟨k, slot', hk, _, _, hr⟩ := mem_scanSlots.mp he'
        have hk' : e'.dirIndex = 0 + k := congrArg RawEntry.dirIndex hr
        have : k = e.dirIndex := by omega
        rw [this, l.index] at hk
        cases hk
        have : e'.isDir = slotIsDir slot := congrArg RawEntry.isDir hr
        rw [this, ← l.isDir, hd]
      simp [hdc, hi, hd']
    · simp [hi]
  · rw [r.other hh he hc]
    refine (map_id' _).symm.trans (map_congr_left fun e' he' => ?_)
    have hdc := dirCluster_of_mem_entriesOf he'
    exact (if_neg fun hn => he (hdc.symm.trans hn.1)).symm

theorem Reslotted.sameNames (r : Reslotted V L V' e dir s) (w : v.Wf V L) (hv : v.Shows d V)
    (hv' : v.Shows d' V') (l : Located V L e dir slot) (hd : e.isDir = false)
    (hs : slotHead s = slotHead slot) : SameNames v L (restamp e s) d d' := by
  refine ⟨?_, ?_, ?_, ?_, ?_⟩
  · intro h hh
    have ⟨cs, hc, hscan⟩ := w.scanDir hv hh
    rw [hscan, hv'.scanDir (r.chain hh hc) (w.chain_valid hh hc), r.entriesOf_eq l hd hs hh hc, checkIndices_map]
    intro e'
    unfold restamp
    split_ifs <;> rfl
  all_goals
    intro e'
    unfold restamp
    split_ifs with hc <;> simp_all [reslot]

-- The situation of a file of a well-formed volume: its slot, and its clusters.
structure FileAt (v : Fat32) (V : Vol) (L : Layout) (e : RawEntry) (dir : List Nat) (slot : Bytes)
    (cs : List Nat) : Prop where
  mem : e.dirCluster ∈ L.dirs
  storable : v.Storable V e dir slot cs
  live : isLive slot = true
  notDot : isDot slot = false
  isDir : slotIsDir slot = false
  first : slotFirst slot = e.firstCluster
  size : slotSize slot = e.size
  size_le : e.size ≤ cs.length * v.clusterBytes
  owner : ∀ c ∈ cs, L.owner c = some (.file e.dirCluster e.dirIndex)

theorem Located.fileAt (w : v.Wf V L) (l : Located V L e dir slot) (hd : e.isDir = false) :
    ∃ cs, v.FileAt V L e dir slot cs := by
  have r := w.dirChain l.dir l.chain
  have hown := w.owner_of_dir l.dir l.chain
  have hf := l.firstCluster
  have hsz := l.size
  rw [l.isDir] at hd
  cases l.entryOk w with
  | empty hf' hs =>
    refine ⟨[], l.dir, ⟨w.spc_pos, w.length_data, r, l.index, .inl ⟨hf.trans hf', rfl⟩, ?_, ?_⟩, l.live,
      l.notDot, hd, hf.symm, hsz.symm, ?_, ?_⟩
    · simp
    · simp
    · rw [hsz, hs hd]
      simp
    · simp
  | dir hd' _ _ => simp [hd] at hd'
  | file cs _ hc ho hs =>
    have hv (c) (hm : c ∈ cs) : v.Valid c := w.valid (ho c hm)
    have h0 : e.firstCluster ≠ 0 := by
      rw [hf]
      have := (hv _ hc.mem_head).1
      omega
    refine ⟨cs, l.dir, ⟨w.spc_pos, w.length_data, r, l.index, .inr ⟨h0, hf ▸ hc⟩, hv, ?_⟩, l.live, l.notDot,
      hd, hf.symm, hsz.symm, hsz ▸ hs, ho⟩
    intro c hm hm'
    have := (hown c hm).symm.trans (ho c hm')
    simp at this

theorem Wf.two_le_total (w : v.Wf V L) (hc : c ∈ cs) (ho : ∀ c ∈ cs, L.owner c = some (.file h i)) :
    2 ≤ v.totalClusters := by
  have ⟨rs, hr, hro⟩ := w.dirs w.root
  have hrm := hr.mem_head
  have hne : c ≠ v.rootCluster := fun he => by
    have := (ho c hc).symm.trans (he ▸ hro _ hrm)
    simp at this
  have h1 := w.valid (ho c hc)
  have h₂ := w.valid (hro _ hrm)
  simp only [Valid] at h1 h₂
  omega

section stored

variable {cs' : List Nat} {off : Nat} {buf : Bytes} {now : ℤ}
variable (w : v.Wf V L) (ho : ∀ c ∈ cs, L.owner c = some (.file e.dirCluster e.dirIndex))
variable (f : v.Fitted V cs (v.clustersFor (off + buf.length)) cs' V')
include w ho f

theorem dir_not_mem_file (hh : h ∈ L.dirs) (hc : V.Chain h as) (ha : a ∈ as) : a ∉ cs ∧ a ∉ cs' := by
  have hne : a ∉ cs := fun hm => by
    have := (w.owner_of_dir hh hc a ha).symm.trans (ho a hm)
    simp at this
  exact ⟨hne, fun hm => hc.fat_ne_zero ha (f.fresh a hm hne)⟩

variable (now) in
theorem reslotted_storedVol (st : v.Storable V e dir slot cs) (l : Located V L e dir slot) :
    Reslotted V L (v.storedVol now e dir slot cs cs' off buf V') e dir
      (direntSlot now (storedEntry e cs cs' (off + buf.length)) slot) where
  chain hh hc := by
    refine (f.chain_of_disjoint hc fun a ha => (dir_not_mem_file w ho f hh hc ha).1).congr
      fun a _ => Vol.link_congr ?_
    rw [storedVol_fat]
  other hh hne hc := by
    refine Vol.slots_congr fun a ha => storedVol_data_of_not_mem f (fun hm => hne ?_)
      (dir_not_mem_file w ho f hh hc ha).2
    have := (w.owner_of_dir hh hc a ha).symm.trans (w.owner_of_dir l.dir l.chain a hm)
    simpa using this
  slots := storedVol_slots now f st

end stored

theorem writeAt_run_of_file (hr : v.resolve d path = .ok (some (.entry e))) (hd : e.isDir = false) :
    (v.writeAt now path off buf).run d = (v.storeAt now e off buf).run d := by
  have ho : (v.openForWrite now path).run d = (.ok e, d) := by
    simp [openForWrite, read_bind_run, hr, hd]
  exact bind_run_ok ho

theorem lt_of_storeAt (h : (v.storeAt now e off buf).run d = (.ok n, d')) : off + buf.length < 2 ^ 32 := by
  unfold storeAt at h
  have ⟨newEnd, _, h1, h⟩ := bind_eq_ok.mp h
  have hn : newEnd = off + buf.length := by
    simp only [Prog.lift_run, Prod.mk.injEq, checked] at h1
    split_ifs at h1 <;> simp_all [abort]
  split_ifs at h with hgt
  · simp [fail] at h
  · omega

structure StoreStep (v : Fat32) (V : Vol) (L : Layout) (e : RawEntry) (off : Nat)
    (buf : Bytes) (dir : List Nat) (slot : Bytes) (cs cs' : List Nat) (V1 : Vol) : Prop
    extends v.FileAt V L e dir slot cs where
  fitted : v.Fitted V cs (v.clustersFor (off + buf.length)) cs' V1
  end_lt : off + buf.length < 2 ^ 32

theorem FileAt.storeStep (a : v.FileAt V L e dir slot cs) (hs : v.Shows d V)
    (h : (v.storeAt now e off buf).run d = (.ok n, d')) : ∃ cs' V1, v.StoreStep V L e off buf dir slot cs cs' V1 ∧
      v.Shows d' (v.storedVol now e dir slot cs cs' off buf V1) := by
  have hlt := lt_of_storeAt h
  have ⟨hok, hs'⟩ := (does_storeAt a.storable hlt now).run_eq hs h
  unfold storeVol at hok hs'
  cases hf : v.fitVol cs (v.clustersFor (off + buf.length)) V with | mk r V1
  rw [hf] at hok hs'
  cases r with
  | error _ => simp at hok
  | ok cs' =>
    have f := fitVol_fitted hs.geometry.links a.storable.valid (congrArg Prod.fst hf)
    rw [hf] at f
    exact ⟨cs', V1, ⟨a, f, hlt⟩, hs'⟩

theorem Wf.storeStep (w : v.Wf V L) (hs : v.Shows d V)
    (hr : v.resolve d path = .ok (some (.entry e))) (hd : e.isDir = false)
    (h : (v.writeAt now path off buf).run d = (.ok n, d')) :
    ∃ dir slot cs cs' V1, Located V L e dir slot ∧ v.StoreStep V L e off buf dir slot cs cs' V1 ∧
      v.Shows d' (v.storedVol now e dir slot cs cs' off buf V1) := by
  have ⟨dir, slot, l⟩ := w.located_of_resolve hs hr
  have ⟨cs, a⟩ := l.fileAt w hd
  rw [writeAt_run_of_file hr hd] at h
  have ⟨cs', V1, st, hs'⟩ := a.storeStep hs h
  exact ⟨dir, slot, cs, cs', V1, l, st, hs'⟩

namespace StoreStep

variable {cs' : List Nat} {off : Nat} {buf : Bytes} {now : ℤ} {V1 : Vol} {path : Text}
variable (st : v.StoreStep V L e off buf dir slot cs cs' V1)
include st

theorem firstCluster_lt (hs : v.Shows d V) : (storedEntry e cs cs' (off + buf.length)).firstCluster < 2 ^ 32 := by
  have he := slotFirst_lt slot
  rw [st.first] at he
  simp only [storedEntry]
  split_ifs with h
  · cases hh : cs'.head? with
    | none => exact he
    | some c =>
      have := (st.fitted.valid c (mem_of_mem_head? hh)).2
      have := hs.geometry.links
      simp only [Option.getD_some]
      omega
  · exact he

variable (now) in
theorem slotFirst_eq (hs : v.Shows d V) : slotFirst (direntSlot now (storedEntry e cs cs' (off + buf.length)) slot) =
      (storedEntry e cs cs' (off + buf.length)).firstCluster :=
  slotFirst_direntSlot (st.storable.dirChain.length_slot st.storable.spc_pos st.storable.index)
    (st.firstCluster_lt hs)

variable (now) in
theorem slotSize_eq : slotSize (direntSlot now (storedEntry e cs cs' (off + buf.length)) slot) =
    max e.size (off + buf.length) := by
  have he := slotSize_lt slot
  rw [st.size] at he
  have := st.end_lt
  have hl := st.storable.dirChain.length_slot st.storable.spc_pos st.storable.index
  exact slotSize_direntSlot hl (by simp only [storedEntry]; omega)

variable (now) in
theorem chain_eq (hn : 0 < v.clustersFor (off + buf.length)) :
    (storedEntry e cs cs' (off + buf.length)).firstCluster ≠ 0 ∧ (v.storedVol now e dir slot cs cs' off buf V1).Chain
        (storedEntry e cs cs' (off + buf.length)).firstCluster cs' := by
  have hc : V1.Chain (storedEntry e cs cs' (off + buf.length)).firstCluster cs' := by
    cases st.storable.names with
    | inr h =>
      simp only [storedEntry, if_neg h.2.ne_nil]
      exact st.fitted.chain hn _ (.inl h.2)
    | inl h =>
      cases hh : cs'.head? with
      | none =>
        have := st.fitted.length
        rw [head?_eq_none_iff.mp hh, length_nil] at this
        omega
      | some c =>
        simp only [storedEntry, if_pos h.2, hh, Option.getD_some]
        exact st.fitted.chain hn c (.inr ⟨h.2, hh⟩)
  constructor
  · have := (st.fitted.valid _ hc.mem_head).1
    omega
  · exact hc.congr fun c _ => Vol.link_congr (by rw [storedVol_fat])

theorem content_eq (hs : v.Shows d V) (hr : v.resolve d path = .ok (some (.entry e)))
    (hd : e.isDir = false) (hf : v.FileIs d path C) : e.size = C.length ∧ C = (V.bytes cs).take e.size := by
  have ⟨e', hr', _, hsz, hread⟩ := hf
  cases hr.symm.trans hr'
  refine ⟨hsz, ?_⟩
  cases st.storable.names with
  | inl h =>
    have := st.size_le
    rw [h.2, length_nil, zero_mul] at this
    simp [eq_nil_of_length_eq_zero (by omega : C.length = 0), h.2, Vol.bytes]
  | inr h =>
    have h1 := hread 0 e.size
    rw [hs.readAt hr hd h.1 h.2 st.storable.valid st.size_le, Except.ok.injEq] at h1
    simpa [hsz, take_take] using h1.symm

theorem getElem?_bytes (hp : p < e.size) (hfit : e.size ≤ v.clustersFor (off + buf.length) * v.clusterBytes) :
    (V.bytes cs')[p]? = (V.bytes cs)[p]? := by
  have ⟨new, hnew⟩ := st.fitted.keep
  have hle := st.size_le
  have hlen : (V.bytes (cs.take (v.clustersFor (off + buf.length)))).length =
      min (v.clustersFor (off + buf.length)) cs.length * v.clusterBytes := by
    rw [Vol.length_bytes fun c hc => st.storable.length (st.storable.valid c (mem_of_mem_take hc)),
      length_take]
  have hlt : p < (V.bytes (cs.take (v.clustersFor (off + buf.length)))).length := by
    rw [hlen]
    rcases le_total (v.clustersFor (off + buf.length)) cs.length with h | h
    · rw [min_eq_left h]
      omega
    · rw [min_eq_right h]
      omega
  have hcs : V.bytes cs = V.bytes (cs.take (v.clustersFor (off + buf.length))) ++
      V.bytes (cs.drop (v.clustersFor (off + buf.length))) := by
    rw [← Vol.bytes_append, take_append_drop]
  rw [hnew, hcs, Vol.bytes_append, getElem?_append_left hlt, getElem?_append_left hlt]

end StoreStep

section run

variable {cs' : List Nat} {off : Nat} {buf : Bytes} {now : ℤ} {V1 : Vol} {path : Text}
variable (st : v.StoreStep V L e off buf dir slot cs cs' V1) (l : Located V L e dir slot) (w : v.Wf V L)
variable (hs : v.Shows d V) (hs' : v.Shows d' (v.storedVol now e dir slot cs cs' off buf V1))
variable (hr : v.resolve d path = .ok (some (.entry e))) (hd : e.isDir = false)
include st l w hs hs' hr hd

theorem StoreStep.resolve_eq : v.resolve d' path = .ok (some (.entry
      (reslot (direntSlot now (storedEntry e cs cs' (off + buf.length)) slot) e))) := by
  have r := reslotted_storedVol now w st.owner st.fitted st.storable l
  have hl := st.storable.dirChain.length_slot st.storable.spc_pos st.storable.index
  rw [(r.sameNames w hs hs' l hd (slotHead_direntSlot hl now _)).resolve w hs, hr, ← restamp_self hd]
  rfl

theorem StoreStep.fileIs (hfit : e.size ≤ v.clustersFor (off + buf.length) * v.clusterBytes) :
    v.FileIs d' path ((overwrite (V.bytes cs') off buf).take (max e.size (off + buf.length))) := by
  have hr' := st.resolve_eq l w hs hs' hr hd
  have hfit' := le_clustersFor_mul (n := off + buf.length) st.storable.clusterBytes_pos
  have hlen : (V.bytes cs').length = v.clustersFor (off + buf.length) * v.clusterBytes := by
    rw [Vol.length_bytes fun c hc => st.storable.length (st.fitted.valid c hc), st.fitted.length]
  have hsz : (reslot (direntSlot now (storedEntry e cs cs' (off + buf.length)) slot) e).size =
      max e.size (off + buf.length) := st.slotSize_eq now
  refine ⟨_, hr', hd, ?_, ?_⟩
  · rw [hsz, length_take, length_overwrite (by omega)]
    omega
  · intro p n
    cases eq_zero_or_pos (v.clustersFor (off + buf.length)) with
    | inl h0 =>
      -- Nothing is left of the file, and nothing was in it.
      rw [h0, zero_mul] at hfit hfit'
      have hz : max e.size (off + buf.length) = 0 := by omega
      simp only [Fat32.readAt, hr', ok_bind]
      rw [if_neg (by simp [reslot, hd]), if_pos (.inr (by rw [hsz, hz]; exact Nat.zero_le _)), hz]
      simp
      rfl
    | inr hp =>
      obtain ⟨h0, hc⟩ := st.chain_eq now hp
      have hfc : (reslot (direntSlot now (storedEntry e cs cs' (off + buf.length)) slot) e).firstCluster =
          (storedEntry e cs cs' (off + buf.length)).firstCluster := st.slotFirst_eq now hs
      rw [hs'.readAt hr' hd (hfc ▸ h0) (hfc ▸ hc) st.fitted.valid ?_, hsz, storedVol_bytes st.fitted st.storable]
      rw [hsz, st.fitted.length]
      omega

def wanted (content : Bytes) (off : Nat) (buf : Bytes) (p : Nat) : Option UInt8 :=
  if off ≤ p ∧ p < off + buf.length then buf[p - off]? else content[p]?

-- What the file at `path` is after a write of `buf` at `off`, if it was `content` before.
def WriteLaw (v : Fat32) (d : AtaDrive) (path : Text) (content : Bytes) (off : Nat) (buf : Bytes) : Prop :=
  ∃ e, v.resolve d path = .ok (some (.entry e)) ∧ e.isDir = false ∧
    e.size = max content.length (off + buf.length) ∧
    ∀ p < e.size, ∀ b ∈ wanted content off buf p, v.readAt d path p 1 = .ok [b]

theorem StoreStep.law (hc : e.size = C.length ∧ C = (V.bytes cs).take e.size)
    (hfit : e.size ≤ v.clustersFor (off + buf.length) * v.clusterBytes) : v.WriteLaw d' path C off buf := by
  have ⟨e', hr', hd', hsz', hread⟩ := st.fileIs l w hs hs' hr hd hfit
  have hlen : (V.bytes cs').length = v.clustersFor (off + buf.length) * v.clusterBytes := by
    rw [Vol.length_bytes fun c hc => st.storable.length (st.fitted.valid c hc), st.fitted.length]
  have hend := le_clustersFor_mul (n := off + buf.length) st.storable.clusterBytes_pos
  have hsz : e'.size = max C.length (off + buf.length) := by
    rw [hsz', length_take, length_overwrite (by omega)]
    omega
  refine ⟨e', hr', hd', hsz, ?_⟩
  intro p hp b hb
  have hget : ((overwrite (V.bytes cs') off buf).take (max e.size (off + buf.length)))[p]? = some b := by
    rw [getElem?_take_of_lt (by omega), getElem?_overwrite (by omega)]
    unfold wanted at hb
    split_ifs at hb with hin
    · rw [if_neg (by omega), if_pos hin.2]
      exact hb
    have hpC : p < C.length := (List.getElem?_eq_some_iff.mp hb).1
    rw [hc.2, getElem?_take_of_lt (by omega)] at hb
    have hold := st.getElem?_bytes (p := p) (by omega) hfit
    rw [hold]
    split_ifs <;> first | exact hb | omega
  rw [hread, take_one, head?_drop, hget]
  rfl

theorem StoreStep.readAt_ne (hcut : v.clustersFor (off + buf.length) * v.clusterBytes < e.size) :
    v.readAt d' path (v.clustersFor (off + buf.length) * v.clusterBytes) 1 ≠ .ok [b] := by
  have hr' := st.resolve_eq l w hs hs' hr hd
  have hsz : (reslot (direntSlot now (storedEntry e cs cs' (off + buf.length)) slot) e).size =
      max e.size (off + buf.length) := st.slotSize_eq now
  have hfc : (reslot (direntSlot now (storedEntry e cs cs' (off + buf.length)) slot) e).firstCluster =
      (storedEntry e cs cs' (off + buf.length)).firstCluster := st.slotFirst_eq now hs
  have hnames : e.firstCluster ≠ 0 ∧ V.Chain e.firstCluster cs := by
    refine st.storable.names.resolve_left fun h => ?_
    have := st.size_le
    rw [h.2, length_nil, zero_mul] at this
    omega
  have hfirst : (storedEntry e cs cs' (off + buf.length)).firstCluster = e.firstCluster := if_neg hnames.2.ne_nil
  simp only [Fat32.readAt, hr', ok_bind]
  rw [if_neg (by simp [reslot, hd]), if_neg (by rw [hsz, hfc, hfirst]; have := hnames.1; omega), hfc, hfirst]
  cases eq_zero_or_pos (v.clustersFor (off + buf.length)) with
  | inl h0 =>
    -- The whole chain is gone, but the entry still names it.
    have hm := hnames.2.mem_head
    have hnil : cs' = [] := eq_nil_of_length_eq_zero (st.fitted.length.trans h0)
    have hfree : (v.storedVol now e dir slot cs cs' off buf V1).fat e.firstCluster = 0 := by
      rw [storedVol_fat, st.fitted.freed _ hm (by simp [hnil])]
    rw [hs'.walkChain_of_free (st.storable.valid _ hm) hfree (w.two_le_total hm st.owner)]
    simp [fail]
  | inr hp =>
    obtain ⟨_, hc⟩ := st.chain_eq now hp
    rw [hfirst] at hc
    rw [hs'.walkChain hc st.fitted.valid, ok_bind, Nat.mul_div_cancel _ st.storable.clusterBytes_pos,
      drop_eq_nil_of_le (le_of_eq st.fitted.length)]
    simp [readLoop]

theorem StoreStep.not_law (hc : e.size = C.length)
    (hcut : v.clustersFor (off + buf.length) * v.clusterBytes < C.length) : ¬ v.WriteLaw d' path C off buf := by
  intro ⟨e', _, _, hsz, hread⟩
  have hend := le_clustersFor_mul (n := off + buf.length) st.storable.clusterBytes_pos
  have ⟨b, hb⟩ : ∃ b, wanted C off buf (v.clustersFor (off + buf.length) * v.clusterBytes) = some b :=
    ⟨_, (if_neg (by omega)).trans (getElem?_eq_getElem hcut)⟩
  exact st.readAt_ne l w hs hs' hr hd (hc ▸ hcut) (hread _ (by omega) b hb)

end run

theorem FileAt.writeAt_of_fit (a : v.FileAt V L e dir slot cs) (hs : v.Shows d V)
    (hr : v.resolve d path = .ok (some (.entry e))) (hd : e.isDir = false) (hlt : off + buf.length < 2 ^ 32)
    (hf : (v.fitVol cs (v.clustersFor (off + buf.length)) V).1 = .ok cs') (now : ℤ) :
    ∃ d', (v.writeAt now path off buf).run d = (.ok buf.length, d') := by
  have ⟨d', hrun, _⟩ := does_storeAt a.storable hlt now d hs
  refine ⟨d', ?_⟩
  rw [writeAt_run_of_file hr hd, hrun, storeVol]
  cases hv : v.fitVol cs (v.clustersFor (off + buf.length)) V with | mk r V'
  rw [hv] at hf
  subst hf
  rfl

theorem Wf.writeAt_inside (w : v.Wf V L) (hs : v.Shows d V)
    (hr : v.resolve d path = .ok (some (.entry e))) (hd : e.isDir = false) (now : ℤ) (hin : off + buf.length ≤ e.size) :
    ∃ d', (v.writeAt now path off buf).run d = (.ok buf.length, d') := by
  have ⟨dir, slot, l⟩ := w.located_of_resolve hs hr
  have ⟨cs, a⟩ := l.fileAt w hd
  have hsz := a.size_le
  have hp := a.storable.clusterBytes_pos
  have hlt : off + buf.length < 2 ^ 32 := by
    have := slotSize_lt slot
    rw [← l.size] at this
    omega
  have hle : v.clustersFor (off + buf.length) ≤ cs.length := by
    refine Nat.lt_succ_iff.mp (Nat.div_lt_of_lt_mul ?_)
    rw [Nat.mul_comm, Nat.succ_mul]
    omega
  have hfit : (v.fitVol cs (v.clustersFor (off + buf.length)) V).1 =
      .ok (cs.take (v.clustersFor (off + buf.length))) := by
    unfold fitVol
    split_ifs with h
    · have heq : v.clustersFor (off + buf.length) = cs.length := by omega
      rw [heq, Nat.sub_self, take_length]
      rfl
    · rfl
  exact a.writeAt_of_fit hs hr hd hlt hfit now

def twoClusterSlot : Bytes := packSlot (65 :: replicate 10 32) attrArchive 3 1024 .zero

def twoClusterVol : Vol :=
  smallVol [0, 0, eoc, 4, eoc] [twoClusterSlot] fun _ => replicate 512 1

def twoClusterLayout : Layout where
  dirs := {2}
  owner c := if c = 2 then some (.dir 2) else if c = 3 ∨ c = 4 then some (.file 2 0) else none
  parent _ := none

theorem fits_twoCluster : small.Fits twoClusterVol :=
  fits_small (by decide) (by decide) (by decide) (by decide) fun _ => length_replicate

theorem wf_twoCluster : small.Wf twoClusterVol twoClusterLayout := by
  refine wf_small fits_twoCluster (by decide) rfl rfl rfl rfl ?_ (by decide) ?_
  · intro c o h
    simp only [twoClusterLayout] at h
    split_ifs at h with h1 h₂
    · exact h1 ▸ by decide
    cases h₂ with
    | inl h => exact h ▸ by decide
    | inr h => exact h ▸ by decide
  · intro i slot hi _
    cases i with
    | succ i => simp at hi
    | zero =>
      cases hi
      refine .file [3, 4] (by decide) (.cons (b := 4) (by decide) (.last (by decide))) ?_ (by decide)
      simp [twoClusterLayout]

def twoClusterEntry : RawEntry := entryOf 2 .empty twoClusterSlot 0

theorem resolve_twoCluster : small.resolve (small.image twoClusterVol) ['/', 'A'] =
    .ok (some (.entry twoClusterEntry)) := by
  have hpath : Vfs.splitPath ['/', 'A'] = some [['A']] := by decide
  have hscan : small.scanDir (small.image twoClusterVol) 2 = .ok [twoClusterEntry] := by
    rw [(shows_image fits_twoCluster).scanDir (chain_small rfl) (by simp; decide), twoClusterVol,
      slots_smallVol (by decide)]
    rfl
  have hroot : small.rootCluster = 2 := rfl
  simp only [Fat32.resolve, hpath, getLast?_singleton, dropLast_singleton, descend,
    ok_bind, findIn, hroot, hscan]
  rfl

theorem fileIs_twoCluster : small.FileIs (small.image twoClusterVol) ['/', 'A'] (replicate 1024 1) := by
  have hs := shows_image fits_twoCluster
  have hc : twoClusterVol.Chain twoClusterEntry.firstCluster [3, 4] := .cons (b := 4) (by decide) (.last (by decide))
  have hd {c : Nat} (h2 : c ≠ 2) (hv : small.Valid c) : twoClusterVol.data c = replicate 512 1 :=
    (if_neg h2).trans (if_pos hv)
  have hb : (twoClusterVol.bytes [3, 4]).take 1024 = replicate 1024 1 := by
    rw [Vol.bytes_cons, Vol.bytes_cons, hd (by decide) (by decide), hd (by decide) (by decide)]
    simp only [Vol.bytes, flatMap_nil, append_nil, replicate_append_replicate,
      take_replicate, Nat.reduceAdd, Nat.min_self]
  refine ⟨twoClusterEntry, resolve_twoCluster, rfl, length_replicate.symm, fun p n => ?_⟩
  rw [hs.readAt resolve_twoCluster rfl (by decide) hc (by simp; decide) (by decide), ← hb]
  rfl

end Fat32
