import Onyx.Fat.File
import Onyx.Fat.Resolve

-- The bytes of a file: what `read_at` returns of them and what `write_at` does to them.

open Lib Fat List Bytes Vol

def Vol.bytes (V : Vol) (cs : List Nat) : Bytes := cs.flatMap V.data

namespace Vol

variable {V V' : Vol} {cs : List Nat} {c n : Nat} {b : Bytes}

theorem bytes_cons : V.bytes (c :: cs) = V.data c ++ V.bytes cs :=
  rfl

theorem bytes_append : V.bytes (cs ++ cs') = V.bytes cs ++ V.bytes cs' := by
  simp [bytes]

theorem bytes_congr (h : ∀ c ∈ cs, V'.data c = V.data c) : V'.bytes cs = V.bytes cs :=
  flatMap_congr h

theorem length_bytes (h : ∀ c ∈ cs, (V.data c).length = n) : (V.bytes cs).length = cs.length * n := by
  induction cs with
  | nil => simp [bytes]
  | cons c cs hi =>
    rw [bytes_cons, length_append, h c (.head _), hi fun c hc => h c (.tail _ hc),
      length_cons, Nat.succ_mul, Nat.add_comm]

theorem bytes_drop (h : ∀ c ∈ cs, (V.data c).length = n) (k : Nat) :
    V.bytes (cs.drop k) = (V.bytes cs).drop (k * n) := by
  induction cs generalizing k with
  | nil => simp [bytes]
  | cons c cs hi =>
    cases k with
    | zero => simp
    | succ k =>
      have hc := h c (.head _)
      rw [drop_succ_cons, hi (fun c hc => h c (.tail _ hc)), bytes_cons, Nat.succ_mul,
        add_comm, ← hc, drop_length_add_append]

end Vol

namespace Fat32

variable {v : Fat32} {V : Vol} {d : AtaDrive} {c idx filePos : Nat} {cs : List Nat} {buf : Bytes}

-- The effect of the write loop: `rel` is the offset in the first cluster.
def writeBytes (v : Fat32) : Nat → List Nat → Bytes → Vol → Vol
  | _, [], _, V => V
  | rel, c :: cs, buf, V =>
    if buf = [] then V
    else
      let n := min (v.clusterBytes - rel) buf.length
      writeBytes v 0 cs (buf.drop n) (V.setData c ((V.data c).patch rel (buf.take n)))

theorem writeBytes_nil : v.writeBytes rel cs [] V = V := by
  cases cs <;> simp [writeBytes]

theorem writeBytes_fat : (v.writeBytes rel cs buf V).fat = V.fat := by
  induction cs generalizing rel buf V with
  | nil => rfl
  | cons c cs hi =>
    simp only [writeBytes]
    split_ifs
    · rfl
    · rw [hi, setData_fat]

theorem writeBytes_data_of_not_mem (hc : c ∉ cs) : (v.writeBytes rel cs buf V).data c = V.data c := by
  induction cs generalizing rel buf V with
  | nil => rfl
  | cons c' cs hi =>
    simp only [mem_cons, not_or] at hc
    simp only [writeBytes]
    split_ifs
    · rfl
    · rw [hi hc.2, setData_data_of_ne hc.1]

theorem length_writeBytes (hl : ∀ c ∈ cs, (V.data c).length = v.clusterBytes) (hr : rel ≤ v.clusterBytes) (c : Nat) :
    ((v.writeBytes rel cs buf V).data c).length = (V.data c).length := by
  induction cs generalizing rel buf V with
  | nil => rfl
  | cons c' cs hi =>
    simp only [writeBytes]
    split_ifs
    · rfl
    have hp : ((V.data c').patch rel (buf.take (min (v.clusterBytes - rel) buf.length))).length =
        (V.data c').length := by
      apply length_patch
      rw [hl c' (.head _), length_take]
      omega
    have hset (c : Nat) : ((V.setData c' ((V.data c').patch rel
        (buf.take (min (v.clusterBytes - rel) buf.length)))).data c).length =
        (V.data c).length := by
      by_cases hc : c = c'
      · rw [hc, setData_data_self, hp]
      · rw [setData_data_of_ne hc]
    rw [hi (fun c hc => (hset c).trans (hl c (.tail _ hc))) (Nat.zero_le _), hset]

theorem bytes_writeBytes (hd : cs.Nodup) (hl : ∀ c ∈ cs, (V.data c).length = v.clusterBytes)
    (hr : rel ≤ v.clusterBytes) (hb : rel + buf.length ≤ cs.length * v.clusterBytes) :
    (v.writeBytes rel cs buf V).bytes cs = overwrite (V.bytes cs) rel buf := by
  induction cs generalizing rel buf V with
  | nil =>
    have : buf = [] := eq_nil_of_length_eq_zero (by
      rw [length_nil, zero_mul] at hb
      omega)
    simp [this, writeBytes, overwrite]
  | cons c cs hi =>
    obtain ⟨hc, hd⟩ := nodup_cons.mp hd
    have hlc := hl c (.head _)
    simp only [writeBytes]
    split_ifs with h0
    · simp [h0, overwrite]
    have hne (c' : Nat) (hc' : c' ∈ cs) : c' ≠ c := fun h => hc (h ▸ hc')
    rw [bytes_cons, writeBytes_data_of_not_mem hc, setData_data_self, hi hd]
    · rw [bytes_cons, overwrite_append (by rw [hlc]; exact hr), hlc,
        bytes_congr fun c' hc' => setData_data_of_ne (hne c' hc')]
      rfl
    · exact fun c' hc' => by rw [setData_data_of_ne (hne c' hc'), hl c' (.tail _ hc')]
    · exact Nat.zero_le _
    · rw [length_cons, Nat.succ_mul] at hb
      rw [length_drop]
      omega

theorem bytes_writeBytes_drop (hd : cs.Nodup) (hl : ∀ c ∈ cs, (V.data c).length = v.clusterBytes)
    (hp : 0 < v.clusterBytes) (hb : off + buf.length ≤ cs.length * v.clusterBytes) :
    (v.writeBytes (off % v.clusterBytes) (cs.drop (off / v.clusterBytes)) buf V).bytes cs =
      overwrite (V.bytes cs) off buf := by
  by_cases hbuf : buf = []
  · simp [hbuf, writeBytes_nil, overwrite]
  have hlen := length_pos_of_ne_nil hbuf
  have hdiv := Nat.div_add_mod off v.clusterBytes
  have hmod := Nat.mod_lt off hp
  rw [mul_comm] at hdiv
  generalize off / v.clusterBytes = k at *
  generalize off % v.clusterBytes = rel at *
  have hk : k < cs.length := Nat.lt_of_mul_lt_mul_right (a := v.clusterBytes) (by omega)
  have hdis := disjoint_take_drop hd (le_refl k)
  have htake : ∀ c ∈ cs.take k, (V.data c).length = v.clusterBytes := fun c hc => hl c (mem_of_mem_take hc)
  have hlt : (V.bytes (cs.take k)).length = k * v.clusterBytes := by
    rw [length_bytes htake, length_take, min_eq_left (le_of_lt hk)]
  have hfront : (v.writeBytes rel (cs.drop k) buf V).bytes (cs.take k) = V.bytes (cs.take k) :=
    bytes_congr fun c hc => writeBytes_data_of_not_mem (hdis hc)
  have hback : (v.writeBytes rel (cs.drop k) buf V).bytes (cs.drop k) = overwrite (V.bytes (cs.drop k)) rel buf :=
    bytes_writeBytes (hd.sublist (drop_sublist k cs)) (fun c hc => hl c (mem_of_mem_drop hc))
    (Nat.le_of_lt hmod) (by rw [length_drop, Nat.sub_mul]; omega)
  nth_rewrite 2 [← take_append_drop k cs]
  rw [bytes_append, hfront, hback, ← hdiv, ← hlt, ← overwrite_append_right, ← bytes_append,
    take_append_drop]

theorem does_writePart (hv : v.Valid c) (hl : (V.data c).length = v.clusterBytes)
    (hr : rel + part.length ≤ v.clusterBytes) :
    v.Does (v.writePart c rel part) V (.ok ()) (V.setData c ((V.data c).patch rel part)) := by
  unfold writePart
  split_ifs with h
  · have h0 : rel = 0 := by omega
    have hp : (V.data c).patch 0 part = part := by
      simp [Bytes.patch, overwrite, drop_eq_nil_of_le, hl, h]
    rw [h0, hp]
    exact does_writeCluster hv h
  · refine .read_bind (fun _ hs => hs.readCluster hv) ?_
    exact does_writeCluster hv (by rw [length_patch (by omega), hl])

theorem writeLoop_nil : v.writeLoop idx cs filePos [] = pure () := by
  cases cs <;> rfl

theorem writeLoop_cons (hb : buf ≠ []) :
    v.writeLoop idx (c :: cs) filePos buf = (do
      let n := min (v.clusterBytes - (filePos - idx * v.clusterBytes)) buf.length
      v.writePart c (filePos - idx * v.clusterBytes) (buf.take n)
      v.writeLoop (idx + 1) cs (filePos + n) (buf.drop n)) := by
  cases buf with
  | nil => exact absurd rfl hb
  | cons _ _ => rfl

theorem does_writeLoop (hv : ∀ c ∈ cs, v.Valid c) (hl : ∀ c ∈ cs, (V.data c).length = v.clusterBytes) (hd : cs.Nodup)
    (hp : idx * v.clusterBytes ≤ filePos) (hr : filePos < (idx + 1) * v.clusterBytes ∨ buf = [])
    (hb : filePos - idx * v.clusterBytes + buf.length ≤ cs.length * v.clusterBytes) :
    v.Does (v.writeLoop idx cs filePos buf) V (.ok ()) (v.writeBytes (filePos - idx * v.clusterBytes) cs buf V) := by
  induction cs generalizing idx filePos buf V with
  | nil =>
    have : buf = [] := eq_nil_of_length_eq_zero (by
      rw [length_nil, zero_mul] at hb
      omega)
    subst this
    exact .pure
  | cons c cs hi =>
    have ⟨hc, hd⟩ := nodup_cons.mp hd
    by_cases hbuf : buf = []
    · subst hbuf
      rw [writeBytes_nil]
      exact .pure
    have hr := hr.resolve_right hbuf
    have hne (c' : Nat) (hc' : c' ∈ cs) : c' ≠ c := fun h => hc (h ▸ hc')
    rw [Nat.succ_mul] at hr
    rw [length_cons, Nat.succ_mul] at hb
    generalize hrel : filePos - idx * v.clusterBytes = rel at *
    rw [writeLoop_cons hbuf, writeBytes, if_neg hbuf, hrel]
    generalize hn : min (v.clusterBytes - rel) buf.length = n
    refine .bind (does_writePart (hv c (.head _)) (hl c (.head _)) (by simp; omega)) ?_
    by_cases hdrop : buf.drop n = []
    · simp only [hdrop, writeLoop_nil, writeBytes_nil]
      exact .pure
    -- The buffer goes on in the next cluster, at its start.
    have hlt : n < buf.length := by simpa using hdrop
    have hpos : filePos + n = (idx + 1) * v.clusterBytes := by rw [Nat.succ_mul]; omega
    have hnext := @hi (V.setData c ((V.data c).patch rel (buf.take n))) (idx + 1) (filePos + n) (buf.drop n)
      (fun c hc => hv c (.tail _ hc)) (fun c' hc' => by rw [setData_data_of_ne (hne c' hc'), hl c' (.tail _ hc')]) hd
      (Nat.le_of_eq hpos.symm) (.inl (by rw [Nat.succ_mul]; omega))
      (by rw [length_drop]; omega)
    rwa [hpos, Nat.sub_self, ← hpos] at hnext

theorem Shows.readLoop (hs : v.Shows d V) (hv : ∀ c ∈ cs, v.Valid c) (hpos : filePos < size)
    (hp : idx * v.clusterBytes ≤ filePos) (hr : filePos < (idx + 1) * v.clusterBytes)
    (hb : size - idx * v.clusterBytes ≤ cs.length * v.clusterBytes) : v.readLoop d size idx cs filePos want =
      .ok (((V.bytes cs).drop (filePos - idx * v.clusterBytes)).take (min want (size - filePos))) := by
  induction cs generalizing idx filePos want with
  | nil =>
    rw [length_nil, zero_mul] at hb
    omega
  | cons c cs hi =>
    have hl := hs.length_data (hv c (.head _))
    rw [length_cons, Nat.succ_mul] at hb
    rw [Nat.succ_mul] at hr
    simp only [Fat32.readLoop, hs.readCluster (hv c (.head _)), ok_bind]
    generalize hrel : filePos - idx * v.clusterBytes = rel
    generalize hn : min (min (v.clusterBytes - rel) want) (size - filePos) = n
    have hpart : ((V.bytes (c :: cs)).drop rel).take n = (V.data c).slice rel n := by
      rw [bytes_cons, drop_append_of_le_length (by omega), take_append_of_le_length (by simp; omega)]
      rfl
    split_ifs with hend
    · have : min want (size - filePos) = n := by omega
      rw [this, hpart]
      rfl
    have hpos' : filePos + n = (idx + 1) * v.clusterBytes := by rw [Nat.succ_mul]; omega
    rw [hi (fun c hc => hv c (.tail _ hc)) (by omega) (le_of_eq hpos'.symm)
      (by rw [Nat.succ_mul]; omega) (by rw [Nat.succ_mul]; omega), ok_bind, hpos',
      Nat.sub_self, drop_zero, ← hpos']
    have hm : min want (size - filePos) = n + min (want - n) (size - (filePos + n)) := by omega
    have hd : ((V.data c).drop rel).length = n := by rw [length_drop, hl]; omega
    rw [hm, bytes_cons, drop_append_of_le_length (by omega), ← hd,
      take_length_add_append, hd, slice, take_of_length_le (le_of_eq hd)]
    rfl

def FileIs (v : Fat32) (d : AtaDrive) (path : Text) (content : Bytes) : Prop :=
  ∃ e, v.resolve d path = .ok (some (.entry e)) ∧ e.isDir = false ∧ e.size = content.length ∧
    ∀ off len, v.readAt d path off len = .ok ((content.drop off).take len)

theorem Geometry.clusterBytes_pos (g : v.Geometry d) : 0 < v.clusterBytes :=
  mul_pos g.spc_pos (by decide)

theorem Shows.readAt (hs : v.Shows d V) (hr : v.resolve d path = .ok (some (.entry e)))
    (hd : e.isDir = false) (h0 : e.firstCluster ≠ 0) (hc : V.Chain e.firstCluster cs)
    (hv : ∀ c ∈ cs, v.Valid c) (hsz : e.size ≤ cs.length * v.clusterBytes) (off len : Nat) :
    v.readAt d path off len = .ok ((((V.bytes cs).take e.size).drop off).take len) := by
  have hp := hs.geometry.clusterBytes_pos
  simp only [Fat32.readAt, hr, ok_bind, hd, h0, false_or]
  by_cases ho : off ≥ e.size
  · have : ((V.bytes cs).take e.size).drop off = [] := drop_eq_nil_of_le (by simp; omega)
    simp [ho, this]
    rfl
  have hdiv := Nat.div_add_mod off v.clusterBytes
  have hmod := Nat.mod_lt off hp
  rw [mul_comm] at hdiv
  simp only [ho, if_false, hs.walkChain hc hv, ok_bind, Bool.false_eq_true]
  rw [hs.readLoop (fun c hc => hv c (mem_of_mem_drop hc)) (by omega) (by omega)
    (by rw [Nat.succ_mul]; omega),
    bytes_drop fun c hc => hs.length_data (hv c hc), drop_drop, drop_take,
    take_take]
  · congr 3
    omega
  · rw [length_drop, Nat.sub_mul]
    omega

end Fat32
