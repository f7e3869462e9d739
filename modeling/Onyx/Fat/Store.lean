import Onyx.Fat.Dirent
import Onyx.Fat.Resize

-- `write_at` on an existing file, as a whole.

open Lib Fat List

namespace Fat32

variable {v : Fat32} {V V' : Vol} {e : RawEntry} {slot buf : Bytes} {now : ℤ} {off : Nat}
variable {dir cs cs' : List Nat}

def Names (V : Vol) (first : Nat) (cs : List Nat) : Prop :=
  first = 0 ∧ cs = [] ∨ first ≠ 0 ∧ V.Chain first cs

theorem Shows.fileChain (hs : v.Shows d V) (hn : Names V first cs) (hv : ∀ c ∈ cs, v.Valid c) :
    v.fileChain d first = .ok cs := by
  unfold Fat32.fileChain
  cases hn with
  | inl h => rw [if_pos h.1, h.2]
  | inr h => rw [if_neg h.1, hs.walkChain h.2 hv]

def storedEntry (e : RawEntry) (cs cs' : List Nat) (newEnd : Nat) : RawEntry :=
  { e with
    firstCluster := if cs = [] then cs'.head?.getD e.firstCluster else e.firstCluster
    size := max e.size newEnd }

-- The volume it leaves behind, `V` being the one with the resized chain `cs'`.
def storedVol (v : Fat32) (now : ℤ) (e : RawEntry) (dir : List Nat) (slot : Bytes) (cs cs' : List Nat)
    (off : Nat) (buf : Bytes) (V : Vol) : Vol :=
  v.setSlot (v.writeBytes (off % v.clusterBytes) (cs'.drop (off / v.clusterBytes)) buf V) dir e.dirIndex
    (direntSlot now (storedEntry e cs cs' (off + buf.length)) slot)

def storeVol (v : Fat32) (now : ℤ) (e : RawEntry) (dir : List Nat) (slot : Bytes) (cs : List Nat)
    (off : Nat) (buf : Bytes) (V : Vol) : Result FsError Nat × Vol :=
  match v.fitVol cs (v.clustersFor (off + buf.length)) V with
  | (.error f, V') => (.error f, V')
  | (.ok cs', V') => (.ok buf.length, v.storedVol now e dir slot cs cs' off buf V')

theorem le_clustersFor_mul (hp : 0 < v.clusterBytes) : n ≤ v.clustersFor n * v.clusterBytes := by
  have h := Nat.div_add_mod (n + v.clusterBytes - 1) v.clusterBytes
  have := Nat.mod_lt (n + v.clusterBytes - 1) hp
  rw [Nat.mul_comm] at h
  unfold clustersFor
  omega

-- The situation `storeAt` is called in.
structure Storable (v : Fat32) (V : Vol) (e : RawEntry) (dir : List Nat) (slot : Bytes)
    (cs : List Nat) : Prop where
  spc_pos : 0 < v.sectorsPerCluster
  length : ∀ {c}, v.Valid c → (V.data c).length = v.clusterBytes
  dirChain : v.DirChain V e.dirCluster dir
  index : (V.slots dir)[e.dirIndex]? = some slot
  names : Names V e.firstCluster cs
  valid : ∀ c ∈ cs, v.Valid c
  disjoint : ∀ c ∈ dir, c ∉ cs

namespace Storable

variable (s : v.Storable V e dir slot cs)
include s

theorem clusterBytes_pos : 0 < v.clusterBytes :=
  Nat.mul_pos s.spc_pos (by decide)

theorem dir_disjoint (f : v.Fitted V cs need cs' V') (hc : c ∈ dir) : c ∉ cs' := fun hm =>
  s.dirChain.chain.fat_ne_zero hc (f.fresh c hm (s.disjoint c hc))

theorem dirChain_writeBytes (f : v.Fitted V cs need cs' V') (rel k : Nat) (buf : Bytes) :
    v.DirChain (v.writeBytes rel (cs'.drop k) buf V') e.dirCluster dir ∧
      (v.writeBytes rel (cs'.drop k) buf V').slots dir = V.slots dir := by
  have hdata (c : Nat) (hc : c ∈ dir) :
      (v.writeBytes rel (cs'.drop k) buf V').data c = V.data c := by
    rw [writeBytes_data_of_not_mem fun hm => s.dir_disjoint f hc (mem_of_mem_drop hm), f.data]
  refine ⟨⟨?_, s.dirChain.valid, ?_⟩, Vol.slots_congr hdata⟩
  · refine (f.chain_of_disjoint s.dirChain.chain s.disjoint).congr fun c _ => Vol.link_congr ?_
    rw [writeBytes_fat]
  · exact fun c hc => by rw [hdata c hc, s.dirChain.length c hc]

end Storable

theorem Fitted.nodup (f : v.Fitted V cs need cs' V') (hn : Names V first cs) : cs'.Nodup := by
  cases Nat.eq_zero_or_pos need with
  | inl h0 => simp [eq_nil_of_length_eq_zero (f.length.trans h0)]
  | inr hp =>
    cases hn with
    | inr hc => exact (f.chain hp _ (.inl hc.2)).nodup
    | inl hc =>
      have hne : cs' ≠ [] := by
        intro he
        have := f.length
        rw [he, length_nil] at this
        omega
      exact (f.chain hp _ (.inr ⟨hc.2, head_mem_head? hne⟩)).nodup

theorem does_writeLoop_fitted (s : v.Storable V e dir slot cs)
    (f : v.Fitted V cs (v.clustersFor (off + buf.length)) cs' V') :
    v.Does (v.writeLoop (off / v.clusterBytes) (cs'.drop (off / v.clusterBytes)) off buf) V' (.ok ())
      (v.writeBytes (off % v.clusterBytes) (cs'.drop (off / v.clusterBytes)) buf V') := by
  have hp := s.clusterBytes_pos
  have hdiv := Nat.div_add_mod off v.clusterBytes
  have hmod := Nat.mod_lt off hp
  have hfit := le_clustersFor_mul (n := off + buf.length) hp
  rw [Nat.mul_comm] at hdiv
  have hrel : off % v.clusterBytes = off - off / v.clusterBytes * v.clusterBytes := by omega
  rw [hrel]
  refine does_writeLoop (fun c hc => f.valid c (mem_of_mem_drop hc)) (fun c hc => ?_)
    ((f.nodup s.names).sublist (drop_sublist ..)) (by omega) (.inl ?_) ?_
  · rw [f.data, s.length (f.valid c (mem_of_mem_drop hc))]
  · rw [Nat.succ_mul]
    omega
  · rw [length_drop, f.length, Nat.sub_mul]
    omega

section storedVol

theorem storedVol_fat : (v.storedVol now e dir slot cs cs' off buf V').fat = V'.fat := by
  rw [storedVol, setSlot_fat, writeBytes_fat]

variable (f : v.Fitted V cs (v.clustersFor (off + buf.length)) cs' V')
include f

theorem storedVol_data_of_not_mem (h1 : c ∉ dir) (h2 : c ∉ cs') :
    (v.storedVol now e dir slot cs cs' off buf V').data c = V.data c := by
  rw [storedVol, setSlot_data_of_not_mem h1, writeBytes_data_of_not_mem fun hm => h2 (mem_of_mem_drop hm), f.data]

variable (s : v.Storable V e dir slot cs)
include s

variable (now) in
theorem storedVol_slots : (v.storedVol now e dir slot cs cs' off buf V').slots dir =
    (V.slots dir).set e.dirIndex (direntSlot now (storedEntry e cs cs' (off + buf.length)) slot) := by
  have ⟨r, hsl⟩ := s.dirChain_writeBytes f (off % v.clusterBytes) (off / v.clusterBytes) buf
  have hk := (List.getElem?_eq_some_iff.mp s.index).1
  have hl := length_direntSlot (s.dirChain.length_slot s.spc_pos s.index) now
    (storedEntry e cs cs' (off + buf.length))
  rw [storedVol, r.slots_setSlot s.spc_pos (hsl ▸ hk) hl, hsl]

theorem length_storedVol (c : Nat) :
    ((v.storedVol now e dir slot cs cs' off buf V').data c).length = (V.data c).length := by
  have ⟨r, hsl⟩ := s.dirChain_writeBytes f (off % v.clusterBytes) (off / v.clusterBytes) buf
  have hk := (List.getElem?_eq_some_iff.mp s.index).1
  have hl := length_direntSlot (s.dirChain.length_slot s.spc_pos s.index) now
    (storedEntry e cs cs' (off + buf.length))
  have hmod := Nat.mod_lt off s.clusterBytes_pos
  rw [storedVol, r.length_data_setSlot s.spc_pos (hsl ▸ hk) hl, length_writeBytes _ (Nat.le_of_lt hmod), f.data]
  intro c hc
  rw [f.data, s.length (f.valid c (List.mem_of_mem_drop hc))]

theorem storedVol_bytes : (v.storedVol now e dir slot cs cs' off buf V').bytes cs' =
    overwrite (V.bytes cs') off buf := by
  have hset : (v.storedVol now e dir slot cs cs' off buf V').bytes cs' =
      (v.writeBytes (off % v.clusterBytes) (cs'.drop (off / v.clusterBytes)) buf V').bytes cs' :=
    Vol.bytes_congr fun c hc => setSlot_data_of_not_mem fun hm => s.dir_disjoint f hm hc
  have hold : V'.bytes cs' = V.bytes cs' := Vol.bytes_congr fun c _ => by rw [f.data]
  have hfit := le_clustersFor_mul (n := off + buf.length) s.clusterBytes_pos
  rw [hset, bytes_writeBytes_drop (f.nodup s.names) (fun c hc => by rw [f.data, s.length (f.valid c hc)])
    s.clusterBytes_pos (by rw [f.length]; exact hfit), hold]

end storedVol

theorem does_storeAt (s : v.Storable V e dir slot cs) (he : off + buf.length < 2 ^ 32) (now : ℤ) :
    v.Does (v.storeAt now e off buf) V (v.storeVol now e dir slot cs off buf V).1
      (v.storeVol now e dir slot cs off buf V).2 := by
  intro d hs
  suffices hd : v.Does (v.storeAt now e off buf) V (v.storeVol now e dir slot cs off buf V).1
    (v.storeVol now e dir slot cs off buf V).2 from hd d hs
  have hfit := does_fitChain (s.names.imp And.right And.right) s.valid (v.clustersFor (off + buf.length))
  rw [storeAt, checked_of_lt (by omega)]
  refine .bind .lift ?_
  rw [if_neg (by omega)]
  refine .read_bind (fun _ hs => hs.fileChain s.names s.valid) ?_
  unfold storeVol
  cases hr : v.fitVol cs (v.clustersFor (off + buf.length)) V with | mk r V'
  rw [hr] at hfit
  cases r with
  | error f => exact .bind_error hfit
  | ok cs' =>
    have f := fitVol_fitted hs.geometry.links s.valid (congrArg Prod.fst hr)
    rw [hr] at f
    have ⟨r, hsl⟩ := s.dirChain_writeBytes f (off % v.clusterBytes) (off / v.clusterBytes) buf
    refine .bind hfit (.bind (does_writeLoop_fitted s f) (.bind (does_writeDirent r s.spc_pos ?_) .pure))
    rw [hsl]
    exact s.index

end Fat32
