import Onyx.Fat.Call

-- What is in free clusters, and whether it can be seen.

open Lib Fat List Prog Vol

namespace Fat32

variable {v : Fat32} {V : Vol} {L : Layout} {d d1 d2 : AtaDrive}

-- The same volume, apart from what is in the clusters that the FAT says are free.
structure SameInUse (v : Fat32) (d1 d2 : AtaDrive) : Prop where
  geometry : v.Geometry d2
  fat : (v.vol d1).fat = (v.vol d2).fat
  data : ∀ {c}, (v.vol d1).fat c ≠ 0 → (v.vol d1).data c = (v.vol d2).data c

namespace SameInUse

variable (u : v.SameInUse d1 d2)
include u

theorem chain : (v.vol d1).Chain a as ↔ (v.vol d2).Chain a as :=
  ⟨fun h => h.congr fun _ _ => link_congr (by rw [u.fat]),
    fun h => h.congr fun _ _ => link_congr (by rw [u.fat])⟩

theorem slots (h : (v.vol d1).Chain a as) : (v.vol d1).slots as = (v.vol d2).slots as :=
  slots_congr fun _ hc => u.data (h.fat_ne_zero hc)

theorem wf (w : v.Wf (v.vol d1) L) : v.Wf (v.vol d2) L where
  length_data hc := by simp [vol, hc]
  spc_pos := w.spc_pos
  valid := w.valid
  root := w.root
  root_parent := w.root_parent
  dirs hh :=
    have ⟨cs, hc, ho⟩ := w.dirs hh
    ⟨cs, u.chain.mp hc, ho⟩
  entries hh hc hi hl hd := by
    have hc := u.chain.mpr hc
    cases w.entries hh hc (u.slots hc ▸ hi) hl hd with
    | empty h1 h₂ => exact .empty h1 h₂
    | dir h1 h₂ h3 => exact .dir h1 h₂ h3
    | file as h1 h₂ h3 h4 => exact .file as h1 (u.chain.mp h₂) h3 h4
  dots hh hc hi hl hd := by
    have hc := u.chain.mpr hc
    rw [← u.slots hc] at hi ⊢
    exact w.dots hh hc hi hl hd

theorem alike (w : v.WellFormed d1) : v.Alike d1 d2 := by
  have ⟨V, L, hs, w⟩ := w
  cases hs.vol
  refine ⟨L, _, _, hs, ⟨u.geometry, rfl⟩, w, u.wf w, u.fat, ?_, ?_⟩
  · exact fun _ hc c hm => u.data (hc.fat_ne_zero hm)
  · intro _ _ as _ _ _ _ _ _ _ _ ha
    rw [bytes_congr fun c hm => u.data (ha.fat_ne_zero hm)]

end SameInUse

-- An empty file in a small volume whose free clusters are full of one byte.
def emptyFileSlot : Bytes := packSlot (65 :: replicate 10 32) attrArchive 0 0 .zero

def emptyFileVol (x : UInt8) : Vol :=
  smallVol [0, 0, eoc] [emptyFileSlot] fun _ => replicate 512 x

theorem fits_emptyFile (x : UInt8) : small.Fits (emptyFileVol x) :=
  fits_small (by decide) (by decide) (by decide) (by decide) fun _ => length_replicate

theorem wf_emptyFile (x : UInt8) : small.Wf (emptyFileVol x) rootLayout :=
  wf_root (fits_emptyFile x) (by decide) rfl (by decide) (by decide)

def emptyFileEntry : RawEntry := entryOf 2 .empty emptyFileSlot 0

theorem scanDir_emptyFile (x : UInt8) : small.scanDir (small.image (emptyFileVol x)) 2 = .ok [emptyFileEntry] := by
  rw [(shows_image (fits_emptyFile x)).scanDir (chain_small rfl) (by simp; decide), emptyFileVol,
    slots_smallVol (by decide)]
  rfl

theorem resolve_emptyFile (x : UInt8) : small.resolve (small.image (emptyFileVol x)) ['/', 'A'] =
    .ok (some (.entry emptyFileEntry)) :=
  resolve_in_root (by decide : Vfs.splitPath ['/', 'A'] = some [['A']]) (scanDir_emptyFile x)

theorem sameInUse_emptyFile (x y : UInt8) :
    small.SameInUse (small.image (emptyFileVol x)) (small.image (emptyFileVol y)) := by
  refine ⟨geometry_image (fits_emptyFile y), ?_, ?_⟩
  all_goals rw [(shows_image (fits_emptyFile x)).vol, (shows_image (fits_emptyFile y)).vol]
  · rfl
  · intro c hc
    have h2 : c = 2 := by
      unfold emptyFileVol smallVol at hc
      simp only at hc
      match c with
      | 0 => exact absurd rfl hc
      | 1 => exact absurd rfl hc
      | 2 => rfl
      | c + 3 => simp at hc
    subst h2
    rfl

theorem writeAt_emptyFile (x : UInt8) (ho : off + 1 ≤ 512) :
    ∃ d', (small.writeAt 0 ['/', 'A'] off [2]).run (small.image (emptyFileVol x)) = (.ok 1, d') ∧
      small.FileIs d' ['/', 'A'] ((overwrite (replicate 512 x) off [2]).take (off + 1)) := by
  have hs := shows_image (fits_emptyFile x)
  have w := wf_emptyFile x
  have hr := resolve_emptyFile x
  have ⟨dir, slot, l⟩ := w.located_of_resolve hs hr
  have ⟨cs, a⟩ := l.fileAt w rfl
  have hcs : cs = [] := (a.storable.names.resolve_right fun h => h.1 rfl).2
  subst hcs
  have hneed : small.clustersFor (off + 1) = 1 := by
    have : small.clusterBytes = 512 := rfl
    simp only [clustersFor, this]
    omega
  have hfit : (small.fitVol [] (small.clustersFor (off + [2].length)) (emptyFileVol x)).1 = .ok [3] := by
    simp only [length_singleton, hneed]
    rfl
  have hlt : off + [(2 : UInt8)].length < 2 ^ 32 := by
    rw [length_singleton]
    omega
  have ⟨d', h⟩ := a.writeAt_of_fit hs hr rfl hlt hfit 0
  have ⟨dir, slot, cs, cs', V1, l, st, hs'⟩ := w.storeStep hs hr rfl h
  refine ⟨d', h, ?_⟩
  have hf := st.fileIs l w hs hs' hr rfl (Nat.zero_le _)
  have hcs : cs = [] := (st.storable.names.resolve_right fun h => h.1 rfl).2
  -- The cluster is one of those that were free.
  have hbytes : (emptyFileVol x).bytes cs' = replicate 512 x := by
    have hl := st.fitted.length
    simp only [length_singleton, hneed] at hl
    have ⟨c, hc⟩ := length_eq_one_iff.mp hl
    subst hc
    have hv := st.fitted.valid c (.head _)
    have h0 := st.fitted.fresh c (.head _) (by simp [hcs])
    have h2 : c ≠ 2 := by
      rintro rfl
      have h0 : eoc = 0 := h0
      exact absurd h0 (by decide)
    rw [bytes_cons, bytes, flatMap_nil, append_nil]
    exact (if_neg h2).trans (if_pos hv)
  rw [hbytes] at hf
  have hsz : max emptyFileEntry.size (off + [2].length) = off + 1 := by
    have : emptyFileEntry.size = 0 := rfl
    simp [this]
  exact hsz ▸ hf

theorem replies_emptyFile (x : UInt8) (ho : off + 1 ≤ 512) :
    replies small.exec [.writeAt 0 ['/', 'A'] off [2], .readAt ['/', 'A'] 0 1] (small.image (emptyFileVol x)) =
      [.ok (.written 1), .ok (.bytes [if off = 0 then 2 else x])] := by
  have ⟨d', h, hf⟩ := writeAt_emptyFile x ho
  have ⟨_, _, _, _, hread⟩ := hf
  have hb : (overwrite (replicate 512 x) off [2])[0]? = some (if off = 0 then 2 else x) := by
    rw [getElem?_overwrite (by rw [length_replicate]; exact ho)]
    by_cases h0 : off = 0
    · subst h0
      rfl
    · rw [if_pos (by omega), if_neg h0, getElem?_replicate, if_pos (by decide)]
  have hr : small.readAt d' ['/', 'A'] 0 1 = .ok [if off = 0 then 2 else x] := by
    rw [hread, drop_zero, take_take, Nat.min_eq_left (by omega), take_one, head?_eq_getElem?, hb]
    rfl
  simp [replies, exec_writeAt h, exec_readAt hr]

end Fat32
