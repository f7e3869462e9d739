import Onyx.Fat.File

-- Reads on a medium of any content: the bytes of a file do not depend on how they are read.

open Lib Fat List Result

namespace Fat32

variable {v : Fat32} {d : AtaDrive}

-- A cluster as a read returns it; one that cannot be read is taken to be empty.
def clusterData (v : Fat32) (d : AtaDrive) (c : Nat) : Bytes :=
  match v.readCluster d c with
  | .ok b => b
  | .error _ => List.replicate v.clusterBytes 0

-- What the file at a path holds: the clusters of its chain up to its size.
def fileBytes (v : Fat32) (d : AtaDrive) (path : Text) : Bytes :=
  match v.resolve d path with
  | .ok (some (.entry e)) =>
    match v.walkChain d e.firstCluster v.totalClusters with
    | .ok chain => (chain.flatMap (v.clusterData d)).take e.size
    | .error _ => []
  | _ => []

theorem length_readCluster (h : v.readCluster d c = .ok b) : b.length = v.clusterBytes := by
  have ⟨lba, _, hr⟩ := bind_eq_ok.mp h
  unfold readSectors AtaDrive.readSectors at hr
  split_ifs at hr
  · cases hr
    exact AtaDrive.length_content
  · cases hr

theorem length_clusterData : (v.clusterData d c).length = v.clusterBytes := by
  unfold clusterData
  split
  case h_1 h => exact length_readCluster h
  case h_2 => simp

theorem flatMap_drop (chain : List Nat) (k : Nat) :
    (chain.drop k).flatMap (v.clusterData d) = (chain.flatMap (v.clusterData d)).drop (k * v.clusterBytes) := by
  induction k generalizing chain with
  | zero => simp
  | succ k hi =>
    cases chain with
    | nil => simp
    | cons c chain =>
      rw [drop_succ_cons, hi, flatMap_cons, Nat.succ_mul, Nat.add_comm, ← drop_drop,
        drop_left' length_clusterData]

-- A round that leaves the loop running ends with its cluster.
theorem readLoop_within (h : v.readLoop d size idx cs filePos want = .ok b) (hlo : idx * v.clusterBytes ≤ filePos)
    (hhi : filePos ≤ (idx + 1) * v.clusterBytes) :
    b <+: ((cs.flatMap (v.clusterData d)).drop (filePos - idx * v.clusterBytes)).take (size - filePos) ∧ b.length ≤ want := by
  induction cs generalizing idx filePos want b with
  | nil =>
    cases h
    exact ⟨List.nil_prefix, Nat.zero_le _⟩
  | cons c cs hi =>
    obtain ⟨cbuf, hc, h⟩ := bind_eq_ok.mp h
    dsimp only at h
    have hlen := length_readCluster hc
    have hdata : v.clusterData d c = cbuf := by rw [clusterData, hc]
    rw [flatMap_cons, hdata]
    rw [Nat.succ_mul] at hhi
    have hin : filePos - idx * v.clusterBytes ≤ cbuf.length := by omega
    generalize hoff : filePos - idx * v.clusterBytes = inOff at h hin ⊢
    generalize hn : min (min (v.clusterBytes - inOff) want) (size - filePos) = n at h
    rw [drop_append_of_le_length hin]
    have hsize : n ≤ size - filePos := by omega
    have hfit : n ≤ (cbuf.drop inOff).length := by
      rw [length_drop]
      omega
    have hout : cbuf.slice inOff n <+: (cbuf.drop inOff ++ cs.flatMap (v.clusterData d)).take (size - filePos) := by
      rw [Bytes.slice, ← take_append_of_le_length hfit]
      exact take_prefix_take_left hsize
    have houtLen : (cbuf.slice inOff n).length = n := by
      rw [Bytes.slice, length_take, Nat.min_eq_left hfit]
    split_ifs at h with hend
    · cases h
      exact ⟨hout, by omega⟩
    obtain ⟨rest, hrest, h⟩ := bind_eq_ok.mp h
    cases h
    have hfull : n = v.clusterBytes - inOff := by omega
    have hnext : filePos + n = (idx + 1) * v.clusterBytes := by
      rw [Nat.succ_mul]
      omega
    obtain ⟨hpre, hle⟩ := hi hrest (Nat.le_of_eq hnext.symm) (by rw [hnext]; exact Nat.mul_le_mul_right _ (Nat.le_succ _))
    have hsl : cbuf.slice inOff n = cbuf.drop inOff := by
      rw [Bytes.slice, take_of_length_le]
      rw [length_drop]
      omega
    rw [hnext, Nat.sub_self, drop_zero, ← hnext] at hpre
    have hsplit : (size - filePos) - (cbuf.drop inOff).length = size - (filePos + n) := by
      rw [← hsl, houtLen]
      omega
    refine ⟨?_, by rw [length_append, houtLen]; omega⟩
    rw [hsl, take_append, hsplit, take_of_length_le (by rw [← hsl, houtLen]; omega)]
    exact (prefix_append_right_inj _).mpr hpre

theorem readAt_within (hp : 0 < v.clusterBytes) (h : v.readAt d path off len = .ok b) :
    b <+: (v.fileBytes d path).drop off ∧ b.length ≤ len := by
  have ⟨node, hnode, h⟩ := bind_eq_ok.mp h
  match node with
  | none => cases h
  | some .root => cases h
  | some (.entry e) =>
    dsimp only at h
    by_cases hdir : e.isDir
    · rw [if_pos hdir] at h
      cases h
    by_cases hempty : e.firstCluster = 0 ∨ off ≥ e.size
    · rw [if_neg hdir, if_pos hempty] at h
      cases h
      exact ⟨List.nil_prefix, Nat.zero_le _⟩
    rw [if_neg hdir, if_neg hempty] at h
    have ⟨chain, hchain, h⟩ := bind_eq_ok.mp h
    have hlo := Nat.div_mul_le_self off v.clusterBytes
    have hhi : off ≤ (off / v.clusterBytes + 1) * v.clusterBytes := by
      rw [Nat.mul_comm]
      exact (Nat.lt_mul_div_succ off hp).le
    have ⟨hpre, hlen⟩ := readLoop_within h hlo hhi
    refine ⟨?_, hlen⟩
    simp only [fileBytes, hnode, hchain]
    rw [flatMap_drop, drop_drop, Nat.add_sub_cancel' hlo, ← drop_take] at hpre
    exact hpre

end Fat32
