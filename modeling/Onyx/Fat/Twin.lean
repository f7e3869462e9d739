import Onyx.Fat.Move
import Onyx.Fat.NewDir

-- Two volumes with the same files and directories that may differ in what no entry leads to.

open Lib Fat List Vol

namespace Fat32

variable {v : Fat32} {V1 V2 V1' V2' : Vol} {L L' : Layout} {h i : Nat} {cs : List Nat}

-- The same FAT, the same directories, and the same contents of files up to their sizes.
structure Same (L : Layout) (V1 V2 : Vol) : Prop where
  fat : V1.fat = V2.fat
  dirs : ∀ {h cs}, h ∈ L.dirs → V1.Chain h cs → ∀ c ∈ cs, V1.data c = V2.data c
  files : ∀ {h cs as} {j : Nat} {slot}, h ∈ L.dirs → V1.Chain h cs → (V1.slots cs)[j]? = some slot →
    isLive slot = true → isDot slot = false → slotIsDir slot = false → V1.Chain (slotFirst slot) as →
    (V1.bytes as).take (slotSize slot) = (V2.bytes as).take (slotSize slot)

namespace Same

theorem refl (V : Vol) : Same L V V :=
  ⟨rfl, fun _ _ _ _ => rfl, fun _ _ _ _ _ _ _ => rfl⟩

variable (s : Same L V1 V2)
include s

theorem chain (hc : V1.Chain a as) : V2.Chain a as :=
  hc.congr fun c _ => link_congr (by rw [s.fat])

theorem slots (hh : h ∈ L.dirs) (hc : V1.Chain h cs) : V1.slots cs = V2.slots cs :=
  slots_congr (s.dirs hh hc)

theorem firstFree (v : Fat32) : v.firstFree V1 = v.firstFree V2 := by
  simp [Fat32.firstFree, s.fat]

section

variable (w1 : v.Wf V1 L) (E1 : v.Edit V1 L h i cs V1' L') (E2 : v.Edit V2 L h i cs V2' L')
include w1 E1 E2

theorem file_of_edit (hh : h' ∈ L.dirs) (hc : V1.Chain h' bs)
    (hj : (V1.slots bs)[j]? = some slot) (hl : isLive slot = true) (hd : isDot slot = false)
    (hf : slotIsDir slot = false) (hne : (h', j) ≠ (h, i)) (ha : V1'.Chain (slotFirst slot) as) :
    (V1'.bytes as).take (slotSize slot) = (V2'.bytes as).take (slotSize slot) := by
  cases w1.entries hh hc hj hl hd with
  | empty _ h2 => simp [h2 hf]
  | dir h1 _ _ => simp [hf] at h1
  | file as' _ h2 h3 _ =>
    have hne' : Owner.file h' j ≠ .file h i := by simpa using hne
    have ⟨hc1, hd1, _⟩ := E1.chain_of_owner h2 h3 (by simp) hne'
    have ⟨_, hd2, _⟩ := E2.chain_of_owner (s.chain h2) h3 (by simp) hne'
    cases ha.unique hc1
    rw [bytes_congr hd1, bytes_congr hd2]
    exact s.files hh hc hj hl hd hf h2

theorem edit (hfat : V1'.fat = V2'.fat) (hdir : ∀ c ∈ cs, V1'.data c = V2'.data c)
    (hfile : ∀ {as} {j : Nat} {slot}, (V1'.slots cs)[j]? = some slot → isLive slot = true →
      isDot slot = false → slotIsDir slot = false → V1'.Chain (slotFirst slot) as →
      (V1'.bytes as).take (slotSize slot) = (V2'.bytes as).take (slotSize slot)) : Same L' V1' V2' := by
  -- The chain of another directory is the one it had.
  have hold {h' bs} (hh : h' ∈ L'.dirs) (hne : h' ≠ h) (hc : V1'.Chain h' bs) :
      h' ∈ L.dirs ∧ V1.Chain h' bs := by
    rw [E1.dirs] at hh
    have ⟨bs', hc', _⟩ := w1.dirs hh
    cases hc.unique (E1.dir_of_ne w1 hh hne hc').1
    exact ⟨hh, hc'⟩
  refine ⟨hfat, ?_, ?_⟩
  · intro h' bs hh hc
    by_cases hne : h' = h
    · subst hne
      cases hc.unique E1.chain
      exact hdir
    have ⟨hh', hc'⟩ := hold hh hne hc
    have ho := w1.owner_of_dir hh' hc'
    have ⟨_, hd1, _⟩ := E1.chain_of_owner hc' ho (by simpa using hne) (by simp)
    have ⟨_, hd2, _⟩ := E2.chain_of_owner (s.chain hc') ho (by simpa using hne) (by simp)
    intro c hm
    rw [hd1 c hm, hd2 c hm, s.dirs hh' hc' c hm]
  · intro h' bs as j slot hh hc hj hl hd hf ha
    by_cases hne : h' = h
    · subst hne
      cases hc.unique E1.chain
      exact hfile hj hl hd hf ha
    · have ⟨hh', hc'⟩ := hold hh hne hc
      rw [(E1.dir_of_ne w1 hh' hne hc').2.2] at hj
      exact s.file_of_edit w1 E1 E2 hh' hc' hj hl hd hf (by simp [hne]) ha

end

end Same

structure Follows (V1 V2 V1' V2' : Vol) : Prop where
  fat : V1'.fat = V2'.fat
  data : ∀ {c}, V1.data c = V2.data c → V1'.data c = V2'.data c

namespace Follows

variable {V1'' V2'' : Vol} {c : Nat} {prev : Option Nat} {b : Bytes}

theorem refl (hf : V1.fat = V2.fat) : Follows V1 V2 V1 V2 :=
  ⟨hf, id⟩

theorem trans (f : Follows V1 V2 V1' V2') (g : Follows V1' V2' V1'' V2'') : Follows V1 V2 V1'' V2'' :=
  ⟨g.fat, fun h => g.data (f.data h)⟩

theorem alloc (hf : V1.fat = V2.fat) : Follows V1 V2 (V1.alloc prev c) (V2.alloc prev c) := by
  refine ⟨?_, fun h => by rwa [alloc_data, alloc_data]⟩
  cases prev <;> simp [alloc, setFat, hf]

theorem cut (hf : V1.fat = V2.fat) : Follows V1 V2 (V1.cut cs keep) (V2.cut cs keep) := by
  refine ⟨?_, fun h => by rwa [cut_data, cut_data]⟩
  unfold Vol.cut
  split
  · split_ifs <;> simp [clear, setFat, hf]
  · simp [clear, hf]

theorem setData (hf : V1.fat = V2.fat) : Follows V1 V2 (V1.setData c b) (V2.setData c b) := by
  refine ⟨hf, fun {x} h => ?_⟩
  by_cases hx : x = c
  · rw [hx, setData_data_self, setData_data_self]
  · rwa [setData_data_of_ne hx, setData_data_of_ne hx]

end Follows

theorem exists_of_fst_eq (h : p.1 = q.1) : ∃ r a b, p = (r, a) ∧ q = (r, b) :=
  ⟨p.1, p.2, q.2, rfl, by rw [h]⟩

section follows

theorem searchRun_congr (hd : ∀ c ∈ cs, V1.data c = V2.data c) : V1.searchRun need ci cs = V2.searchRun need ci cs := by
  induction cs generalizing ci with
  | nil => rfl
  | cons c cs hi =>
    rw [Vol.searchRun, Vol.searchRun, hd c (.head _), hi fun c hc => hd c (.tail _ hc)]

variable (hf : V1.fat = V2.fat)
include hf

theorem firstFree_congr : v.firstFree V1 = v.firstFree V2 := by
  simp [Fat32.firstFree, hf]

theorem growVol_follows : (v.growVol k cs V1).1 = (v.growVol k cs V2).1 ∧
    Follows V1 V2 (v.growVol k cs V1).2 (v.growVol k cs V2).2 := by
  induction k generalizing cs V1 V2 with
  | zero => exact ⟨rfl, .refl hf⟩
  | succ k hi =>
    simp only [growVol, ← firstFree_congr hf]
    cases v.firstFree V1 with
    | none => exact ⟨rfl, .refl hf⟩
    | some c =>
      have ha : Follows V1 V2 (V1.alloc cs.getLast? c) (V2.alloc cs.getLast? c) := .alloc hf
      exact ⟨(hi ha.fat).1, ha.trans (hi ha.fat).2⟩

theorem fitVol_follows (cs : List Nat) (need : Nat) : (v.fitVol cs need V1).1 = (v.fitVol cs need V2).1 ∧
    Follows V1 V2 (v.fitVol cs need V1).2 (v.fitVol cs need V2).2 := by
  unfold fitVol
  split_ifs
  · exact growVol_follows hf
  · exact ⟨rfl, .cut hf⟩

section

variable (hd : ∀ c ∈ cs, V1.data c = V2.data c)
include hd

theorem removeVol_follows : Follows V1 V2 (v.removeVol cs k V1) (v.removeVol cs k V2) := by
  unfold removeVol
  split
  · exact .refl hf
  case h_2 c h =>
    rw [hd c (mem_of_getElem? h)]
    exact .setData hf

theorem setSlot_follows : Follows V1 V2 (v.setSlot V1 cs k slot) (v.setSlot V2 cs k slot) := by
  unfold setSlot
  split
  · exact .refl hf
  case h_2 c h =>
    rw [hd c (mem_of_getElem? h)]
    exact .setData hf

theorem writeRunVol_follows (ci si : Nat) (run : List Bytes) :
    (writeRunVol cs ci si run V1).1 = (writeRunVol cs ci si run V2).1 ∧
      Follows V1 V2 (writeRunVol cs ci si run V1).2 (writeRunVol cs ci si run V2).2 := by
  unfold writeRunVol
  split
  · exact ⟨rfl, .refl hf⟩
  case h_2 c h =>
    rw [hd c (mem_of_getElem? h)]
    split
    · exact ⟨rfl, .setData hf⟩
    · exact ⟨rfl, .refl hf⟩

end

variable (hd : ∀ c ∈ cs, V1.data c = V2.data c)
include hd

-- The cluster a directory is extended with has to be the same in both volumes.
variable (hext : V1.searchRun need 0 cs = none → ∀ c, v.firstFree V1 = some c → V1.data c = V2.data c)

include hext in
theorem runVol_follows : v.runVol cs need V1 = none ∧ v.runVol cs need V2 = none ∨
      ∃ place V1' V2', v.runVol cs need V1 = some (place, V1') ∧
        v.runVol cs need V2 = some (place, V2') ∧ Follows V1 V2 V1' V2' ∧ ∀ c ∈ place.1, V1'.data c = V2'.data c := by
  unfold runVol
  rw [← searchRun_congr hd, ← firstFree_congr hf]
  cases hs : V1.searchRun need 0 cs with
  | some p => exact .inr ⟨_, _, _, rfl, rfl, .refl hf, hd⟩
  | none =>
    cases hff : v.firstFree V1 with
    | none => exact .inl ⟨rfl, rfl⟩
    | some c =>
      refine .inr ⟨_, _, _, rfl, rfl, .alloc hf, fun x hx => ?_⟩
      rw [alloc_data, alloc_data]
      cases mem_append.mp hx with
      | inl hx => exact hd x hx
      | inr hx => exact mem_singleton.mp hx ▸ hext hs c hff

theorem enterVol_follows (lfn : List Bytes) (slot : Bytes) (hext : V1.searchRun (lfn.length + 1) 0 cs = none →
      ∀ c, v.firstFree V1 = some c → V1.data c = V2.data c) :
    (v.enterVol cs lfn slot V1).1 = (v.enterVol cs lfn slot V2).1 ∧
      Follows V1 V2 (v.enterVol cs lfn slot V1).2 (v.enterVol cs lfn slot V2).2 := by
  unfold enterVol
  cases runVol_follows hf hd hext with
  | inl h =>
    rw [h.1, h.2]
    exact ⟨rfl, .refl hf⟩
  | inr h =>
    have ⟨⟨cs', ci, si⟩, V1', V2', h1, h2, hF, hd'⟩ := h
    rw [h1, h2]
    simp only
    split
    · exact ⟨rfl, hF⟩
    have ⟨hr, hF'⟩ := writeRunVol_follows hF.fat hd' ci si (lfn ++ [slot])
    obtain ⟨r, W1, W2, hw1, hw2⟩ := exists_of_fst_eq hr
    rw [hw1, hw2] at hF' ⊢
    cases r <;> exact ⟨rfl, hF.trans hF'⟩

theorem createVol_follows (hext : V1.searchRun (slotsFor name) 0 cs = none →
      ∀ c, v.firstFree V1 = some c → V1.data c = V2.data c) (now : ℤ) (h first : Nat) (isDir : Bool) :
    (v.createVol now h cs name first isDir V1).1 = (v.createVol now h cs name first isDir V2).1 ∧
      Follows V1 V2 (v.createVol now h cs name first isDir V1).2 (v.createVol now h cs name first isDir V2).2 := by
  have hscan : scanVol V1 h cs = scanVol V2 h cs := by rw [scanVol, scanVol, slots_congr hd]
  unfold createVol
  split_ifs
  · exact ⟨rfl, .refl hf⟩
  rw [← hscan]
  cases hder : deriveFrom (scanVol V1 h cs) name none with
  | error f => exact ⟨rfl, .refl hf⟩
  | ok p =>
    have ⟨short, lfn⟩ := p
    have hl := (deriveFrom_eq_ok hder).length_lfn
    have ⟨hr, hF⟩ := enterVol_follows hf hd lfn (packSlot short (entryAttr isDir) first 0 (.ofNow now))
      (hl ▸ hext)
    obtain ⟨r, W1, W2, hw1, hw2⟩ := exists_of_fst_eq hr
    simp only [hw1, hw2] at hF ⊢
    cases r <;> exact ⟨rfl, hF⟩

theorem placeVol_follows (lfn : List Bytes) (slot : Bytes) (hext : V1.searchRun (lfn.length + 1) 0 cs = none →
      ∀ c, v.firstFree V1 = some c → V1.data c = V2.data c) :
    (v.placeVol cs lfn slot V1).1 = (v.placeVol cs lfn slot V2).1 ∧
      Follows V1 V2 (v.placeVol cs lfn slot V1).2 (v.placeVol cs lfn slot V2).2 ∧
      ∀ cs', (v.placeVol cs lfn slot V1).1 = .ok cs' →
        ∀ c ∈ cs', (v.placeVol cs lfn slot V1).2.data c = (v.placeVol cs lfn slot V2).2.data c := by
  unfold placeVol
  cases runVol_follows hf hd hext with
  | inl h =>
    rw [h.1, h.2]
    exact ⟨rfl, .refl hf, by simp [fail]⟩
  | inr h =>
    obtain ⟨⟨cs', ci, si⟩, V1', V2', h1, h2, hF, hd'⟩ := h
    rw [h1, h2]
    simp only
    obtain ⟨hr, hF'⟩ := writeRunVol_follows hF.fat hd' ci si (lfn ++ [slot])
    obtain ⟨r, W1, W2, hw1, hw2⟩ := exists_of_fst_eq hr
    rw [hw1, hw2] at hF' ⊢
    cases r with
    | error f => exact ⟨rfl, hF.trans hF', by simp⟩
    | ok u => exact ⟨rfl, hF.trans hF', fun as ha c hc => hF'.data (hd' c (by simp_all))⟩

theorem moveVol_follows (hext : V1.searchRun (slotsFor name) 0 cs = none →
      ∀ c, v.firstFree V1 = some c → V1.data c = V2.data c) : (v.moveVol e cs name V1).1 = (v.moveVol e cs name V2).1 ∧
      Follows V1 V2 (v.moveVol e cs name V1).2 (v.moveVol e cs name V2).2 := by
  have hscan : scanVol V1 e.dirCluster cs = scanVol V2 e.dirCluster cs := by
    rw [scanVol, scanVol, slots_congr hd]
  unfold moveVol
  rw [← hscan]
  cases hder : deriveFrom (scanVol V1 e.dirCluster cs) name (some e.short) with
  | error f => exact ⟨rfl, .refl hf⟩
  | ok p =>
    have ⟨short, lfn⟩ := p
    have hl := (deriveFrom_eq_ok hder).length_lfn
    have ⟨hr, hF, hd'⟩ := placeVol_follows hf hd lfn
      (packSlot short (entryAttr e.isDir) e.firstCluster e.size (.ofEntry e)) (hl ▸ hext)
    obtain ⟨r, W1, W2, hw1, hw2⟩ := exists_of_fst_eq hr
    simp only [hw1, hw2] at hF hd' ⊢
    cases r with
    | error f => exact ⟨rfl, hF⟩
    | ok cs' => exact ⟨rfl, hF.trans (removeVol_follows hF.fat (hd' cs' rfl))⟩

theorem unlinkVol_follows (e : RawEntry) (as : List Nat) :
    Follows V1 V2 (v.unlinkVol e cs as V1) (v.unlinkVol e cs as V2) := by
  have hF := removeVol_follows (v := v) (k := e.dirIndex) hf hd
  unfold unlinkVol
  split_ifs
  · exact hF.trans (.cut hF.fat)
  · exact hF

end follows

end Fat32
