import Onyx.Fat.Bounded
import Onyx.Fat.Cleared
import Onyx.Fat.Logged

-- What must be true of a medium for the calls not to panic and to stay in the volume.

open Lib Fat Lib.Prog List Bytes Result

namespace Fat32

variable {v : Fat32} {d d' d1 : AtaDrive} {h c k a : Nat} {cs : List Nat} {name path : Text} {e : RawEntry}

structure Readable (v : Fat32) (d : AtaDrive) (h : Nat) : Prop where
  bounds : v.InBounds d h
  short : ∀ cs, v.walkChain d h v.totalClusters = .ok cs → (cs.length + 1) * v.slotsPerCluster ≤ 2 ^ 32

-- So are all directories that a path leads through.
def PathReadable (v : Fat32) (d : AtaDrive) (path : Text) : Prop :=
  ∀ parts, Vfs.splitPath path = some parts → ∀ i h, v.descend d v.rootCluster (parts.dropLast.take i) = .ok h → v.Readable d h

section reads

variable (s : v.Sized)
include s

theorem safe_readCluster (hc : v.Valid c) :
    Safe v.Valid (Logged.readCluster v c) d fun b d' => d' = d ∧ b.length = v.clusterBytes :=
  .note_bind hc (.quiet (returns_readCluster s hc))

theorem safe_writeCluster (hc : v.Valid c) (b : Bytes) :
    Safe v.Valid (Logged.writeCluster v c b) d fun _ d' => v.Regular → v.SameFat d d' :=
  .note_bind hc (.quiet (returns_writeCluster s hc b))

theorem safe_walkChain (ha : a < 2 ^ 32) :
    Safe v.Valid (Logged.walkChain v a k) d fun cs d' => d' = d ∧ v.walkChain d a k = .ok cs :=
  .quiet (.read ((Gives.of_not_panics (not_panics_walkFrom s ha)).mono fun _ hcs => ⟨rfl, hcs⟩))

theorem safe_scanClusters (run : LfnRun) (hcs : ∀ c ∈ cs, v.Valid c) (hshort : (k + cs.length) * v.slotsPerCluster ≤ 2 ^ 32) :
    Safe v.Valid (Logged.scanClusters v h k run cs) d fun _ d' => d' = d := by
  induction cs generalizing k run with
  | nil => exact .pure rfl
  | cons c cs hi =>
    refine .keep (safe_readCluster s (hcs c (mem_cons_self ..))) fun buf hlen => ?_
    -- Every slot of the cluster has an index below the end of the cluster.
    have hsmall : ¬((scanSlots h (k * v.slotsPerCluster) run (slotsOf buf)).1.any fun e => 2 ^ 32 ≤ e.dirIndex) = true := by
      intro hany
      obtain ⟨e, he, hbig⟩ := any_eq_true.mp hany
      have hlt := lt_of_mem_scanSlots he
      have hslots : (slotsOf buf).length = v.slotsPerCluster := by
        unfold slotsOf
        rw [length_map, length_range, hlen]
        rfl
      have hle : (k + 1) * v.slotsPerCluster ≤ (k + (c :: cs).length) * v.slotsPerCluster :=
        Nat.mul_le_mul_right _ (by rw [length_cons]; omega)
      rw [Nat.succ_mul] at hle
      rw [hslots] at hlt
      have := of_decide_eq_true hbig
      omega
    match hscan : scanSlots h (k * v.slotsPerCluster) run (slotsOf buf) with
    | (out, run') =>
      rw [hscan] at hsmall
      simp only [hsmall]
      cases run' with
      | none => exact .pure rfl
      | some run' =>
        refine .bind (hi run' (fun x hx => hcs x (mem_cons_of_mem _ hx)) ?_) fun _ t ht => .pure ht
        rw [length_cons] at hshort
        rwa [add_assoc, add_comm 1]

theorem safe_scanDir (hh : v.Readable d h) : Safe v.Valid (Logged.scanDir v h) d fun _ d' => d' = d := by
  refine .keep (safe_walkChain s (s.lt hh.bounds.valid.2)) fun cs hcs => ?_
  refine safe_scanClusters s .empty (fun c hc => (walkFrom_inBounds hh.bounds hcs c hc).valid) ?_
  have := hh.short cs hcs
  rw [Nat.succ_mul] at this
  rw [Nat.zero_add]
  omega

theorem safe_findIn (hh : v.Readable d h) (name : Text) :
    Safe v.Valid (Logged.findIn v h name) d fun o d' => d' = d ∧ v.findIn d h name = .ok o := by
  exact .of_reads (.bind (safe_scanDir s hh) fun _ t ht => .pure ht) Logged.records_findIn

theorem safe_descend (comps : List Text) (hh : ∀ i h', v.descend d h (comps.take i) = .ok h' → v.Readable d h') :
    Safe v.Valid (Logged.descend v h comps) d fun h' d' => d' = d ∧ v.Readable d h' ∧ v.descend d h comps = .ok h' := by
  induction comps generalizing h with
  | nil => exact .pure ⟨rfl, hh 0 h rfl, rfl⟩
  | cons comp comps hi =>
    refine .keep (safe_findIn s (hh 0 h rfl) comp) fun o ho => ?_
    cases o with
    | none => exact .fail
    | some e =>
      simp only
      split_ifs with hbad
      · exact .fail
      have hstep (rest : List Text) : v.descend d h (comp :: rest) = v.descend d e.firstCluster rest := by
        rw [descend, ho, ok_bind]
        exact if_neg hbad
      refine (hi fun i h' hd => hh (i + 1) h' ?_).mono fun h' t' h => ⟨h.1, h.2.1, (hstep comps).trans h.2.2⟩
      rw [take_succ_cons, hstep]
      exact hd

theorem safe_resolve (hp : v.PathReadable d path) :
    Safe v.Valid (Logged.resolve v path) d fun o d' => d' = d ∧ v.resolve d path = .ok o := by
  refine .of_reads ?_ Logged.records_resolve
  unfold Logged.resolve
  cases hsplit : Vfs.splitPath path with
  | none => exact .fail
  | some parts =>
    simp only
    cases parts.getLast? with
    | none => exact .pure rfl
    | some last =>
      refine .keep (safe_descend s _ (hp parts hsplit)) fun h ⟨hr, _⟩ => ?_
      exact .bind (safe_findIn s hr last) fun _ t ⟨ht, _⟩ => .pure ht

theorem safe_resolveParent (hp : v.PathReadable d path) : Safe v.Valid (Logged.resolveParent v path) d
    fun q d' => d' = d ∧ v.resolveParent d path = .ok q ∧ v.Readable d q.1 := by
  refine (Safe.records (Q := fun q d' => d' = d ∧ v.Readable d q.1) ?_ Logged.records_resolveParent).mono
    fun o t ⟨⟨ht, hread⟩, hr⟩ => ⟨ht, (Prod.mk.inj hr).1, hread⟩
  unfold Logged.resolveParent
  cases hsplit : Vfs.splitPath path with
  | none => exact .fail
  | some parts =>
    simp only
    cases parts.getLast? with
    | none => exact .fail
    | some last => exact .bind (safe_descend s _ (hp parts hsplit)) fun h t ⟨ht, hr, _⟩ => .pure ⟨ht, hr⟩

omit s in
theorem mem_scanClusters {run : LfnRun} (hscan : v.scanClusters d h k run cs = .ok es) :
    ∀ e ∈ es, e.dirCluster = h ∧ e.firstCluster < 2 ^ 32 := by
  induction cs generalizing k run es with
  | nil =>
    cases hscan
    exact fun _ he => absurd he not_mem_nil
  | cons c cs hi =>
    have ⟨buf, _, hscan⟩ := bind_eq_ok.mp hscan
    have hout : ∀ e ∈ (scanSlots h (k * v.slotsPerCluster) run (slotsOf buf)).1, e.dirCluster = h ∧ e.firstCluster < 2 ^ 32 := by
      intro e he
      have ⟨_, slot, _, _, _, heq⟩ := mem_scanSlots.mp he
      rw [heq]
      exact ⟨rfl, slotFirst_lt slot⟩
    match hs : scanSlots h (k * v.slotsPerCluster) run (slotsOf buf) with
    | (out, run') =>
      rw [hs] at hscan hout
      simp only at hscan
      split_ifs at hscan
      · cases hscan
      cases run' with
      | none =>
        cases hscan
        exact hout
      | some run' =>
        have ⟨es', hes, hscan⟩ := bind_eq_ok.mp hscan
        cases hscan
        exact fun e he => (mem_append.mp he).elim (hout e) (hi hes e)

omit s in
theorem entry_of_resolve (hp : v.PathReadable d path) (hr : v.resolve d path = .ok (some (.entry e))) :
    v.Readable d e.dirCluster ∧ e.firstCluster < 2 ^ 32 := by
  unfold resolve at hr
  cases hsplit : Vfs.splitPath path with
  | none =>
    rw [hsplit] at hr
    cases hr
  | some parts =>
    rw [hsplit] at hr
    simp only at hr
    cases hlast : parts.getLast? with
    | none =>
      rw [hlast] at hr
      cases hr
    | some last =>
      rw [hlast] at hr
      have ⟨h, hd, hr⟩ := bind_eq_ok.mp hr
      have ⟨o, ho, hr⟩ := bind_eq_ok.mp hr
      have ⟨e', he', hr⟩ := Option.map_eq_some_iff.mp (Except.ok.inj hr)
      cases hr
      have ⟨es, hes, ho⟩ := bind_eq_ok.mp ho
      have ⟨cs, _, hes⟩ := bind_eq_ok.mp hes
      have hmem := mem_of_find?_eq_some ((Except.ok.inj ho).trans he')
      have ⟨hdc, hfc⟩ := mem_scanClusters hes e hmem
      refine ⟨hdc ▸ hp parts hsplit parts.dropLast.length h ?_, hfc⟩
      rwa [take_length]

omit s in
theorem readable_root (hp : v.PathReadable d path) (hr : v.resolve d path = .ok (some .root)) : v.Readable d v.rootCluster := by
  unfold resolve at hr
  cases hsplit : Vfs.splitPath path with
  | none =>
    rw [hsplit] at hr
    cases hr
  | some parts => exact hp parts hsplit 0 v.rootCluster rfl

theorem safe_list (hp : v.PathReadable d path)
    (hdir : ∀ e, v.resolve d path = .ok (some (.entry e)) → e.isDir = true → 2 ≤ e.firstCluster → v.Readable d e.firstCluster) :
    Safe v.Valid (Logged.list v path) d fun _ _ => True := by
  refine .keep (safe_resolve s hp) fun o ho => ?_
  match o with
  | none => exact .fail
  | some .root => exact .ends (safe_scanDir s (readable_root hp ho))
  | some (.entry e) =>
    simp only
    split_ifs with hd
    · exact .ends (safe_scanDir s (hdir e ho hd.1 hd.2))
    · exact .fail

theorem safe_stat (hp : v.PathReadable d path) : Safe v.Valid (Logged.stat v path) d fun _ _ => True := by
  refine .bind (safe_resolve s hp) fun o t ⟨ht, ho⟩ => ?_
  match o with
  | none => exact .fail
  | some .root => exact .pure trivial
  | some (.entry e) => exact .pure trivial

theorem safe_readLoop (size idx filePos want : Nat) (hcs : ∀ c ∈ cs, v.Valid c) :
    Safe v.Valid (Logged.readLoop v size idx cs filePos want) d fun _ _ => True := by
  induction cs generalizing idx filePos want d with
  | nil => exact .pure trivial
  | cons c cs hi =>
    refine .bind (safe_readCluster s (hcs c (mem_cons_self ..))) fun cbuf t _ => ?_
    simp only
    split_ifs
    · exact .pure trivial
    · exact .ends (hi _ _ _ fun x hx => hcs x (mem_cons_of_mem _ hx))

theorem safe_readAt (hp : v.PathReadable d path) (hfile : ∀ e, v.resolve d path = .ok (some (.entry e)) → e.isDir = false →
      e.firstCluster ≠ 0 → off < e.size → v.InBounds d e.firstCluster) :
    Safe v.Valid (Logged.readAt v path off len) d fun _ _ => True := by
  refine .keep (safe_resolve s hp) fun o ho => ?_
  match o with
  | none => exact .fail
  | some .root => exact .fail
  | some (.entry e) =>
    simp only
    split_ifs with hd hend
    · exact .fail
    · exact .pure trivial
    rw [not_or] at hend
    have hb := hfile e ho (Bool.eq_false_iff.mpr hd) hend.1 (Nat.lt_of_not_le hend.2)
    refine .bind (safe_walkChain s (s.lt hb.valid.2)) fun cs t ⟨_, hcs⟩ => ?_
    exact safe_readLoop s _ _ _ _ fun c hc => (walkFrom_inBounds hb hcs c (mem_of_mem_drop hc)).valid

end reads

section writes

variable (s : v.Sized) (g : v.Regular)
include s

theorem safe_searchRun (hcs : ∀ c ∈ cs, v.Valid c) (need : Nat) : Safe v.Valid (Logged.searchRun v need k cs) d
    fun o d' => d' = d ∧ ∀ ci si, o = some (ci, si) → ci < k + cs.length ∧ si + need ≤ v.slotsPerCluster := by
  induction cs generalizing k with
  | nil => exact .pure ⟨rfl, nofun⟩
  | cons c cs hi =>
    refine .keep (safe_readCluster s (hcs c (mem_cons_self ..))) fun buf hlen => ?_
    cases hrun : freeRun need buf with
    | none =>
      refine (hi fun x hx => hcs x (mem_cons_of_mem _ hx)).mono fun o t ⟨ht, ho⟩ => ⟨ht, fun ci si heq => ?_⟩
      have ⟨h1, h2⟩ := ho ci si heq
      rw [length_cons]
      exact ⟨by omega, h2⟩
    | some si =>
      refine .pure ⟨rfl, fun ci' si' heq => ?_⟩
      cases heq
      have hfits := (freeRun_eq_some.mp hrun).1.1
      rw [hlen] at hfits
      exact ⟨by rw [length_cons]; omega, hfits⟩

-- A place for a run of slots: it is in a cluster of the data region, and the run fits in.
structure RunAt (v : Fat32) (need : Nat) (cs : List Nat) (ci si : Nat) : Prop where
  valid : ∀ c ∈ cs, v.Valid c
  index : ci < cs.length
  fits : si + need ≤ v.slotsPerCluster
  small : (ci + 1) * v.slotsPerCluster ≤ 2 ^ 32

include g

theorem safe_allocRun (hh : v.Readable d h) (hneed : need ≤ v.slotsPerCluster) :
    Safe v.Valid (Logged.allocRun v h need) d fun q d' => v.Widens d d' ∧ v.RunAt need q.1 q.2.1 q.2.2 := by
  refine .keep (safe_walkChain s (s.lt hh.bounds.valid.2)) fun cs hcs => ?_
  have hb := walkFrom_inBounds hh.bounds hcs
  have hshort := hh.short cs hcs
  have hle {ci : Nat} (hci : ci ≤ cs.length) : (ci + 1) * v.slotsPerCluster ≤ 2 ^ 32 :=
    Nat.le_trans (Nat.mul_le_mul_right _ (by omega)) hshort
  refine .keep (safe_searchRun s (fun c hc => (hb c hc).valid) need) fun o ho => ?_
  match o with
  | some (ci, si) =>
    have ⟨h1, h2⟩ := ho ci si rfl
    rw [zero_add] at h1
    exact .pure ⟨.refl, fun c hc => (hb c hc).valid, h1, h2, hle (le_of_lt h1)⟩
  | none =>
    have hprev : ∀ p ∈ cs.getLast?, v.Valid p := fun p hp => (hb p (mem_of_mem_getLast? hp)).valid
    refine .bind (.quiet (widens_allocCluster s g hprev)) fun c t' ⟨hw, hc⟩ => .pure ⟨hw, ?_, ?_, ?_, ?_⟩
    · exact fun x hx => (mem_append.mp hx).elim (fun hx => (hb x hx).valid) fun hx => mem_singleton.mp hx ▸ hc.valid
    · rw [length_append, length_singleton]
      exact Nat.lt_succ_self _
    · rwa [zero_add]
    · exact hle (le_refl _)

theorem safe_writeRun (hr : v.RunAt (lfn.length + 1) cs ci si)
    (hlen : ∀ x ∈ lfn ++ [slot], x.length = 32) :
    Safe v.Valid (Logged.writeRun v cs ci si lfn slot) d fun _ d' => v.SameFat d d' := by
  unfold Logged.writeRun
  cases hget : cs[ci]? with
  | none =>
    have := hr.index
    rw [getElem?_eq_none_iff] at hget
    omega
  | some c =>
    have hc := hr.valid c (mem_of_getElem? hget)
    refine .keep (safe_readCluster s hc) fun buf hbuf => ?_
    have hfits := hr.fits
    have hroom : si + (lfn ++ [slot]).length ≤ buf.length / 32 := by
      rwa [hbuf, length_append, length_singleton]
    have ⟨b, hb, _⟩ := putSlots_eq hlen hroom
    rw [hb]
    exact .lift_bind (P := fun _ => True) (.ok trivial) fun b' _ => (safe_writeCluster s hc b').mono fun _ _ h => h g

omit s g in
theorem not_panics_makeShortName : ¬Lib.Panics (makeShortName name) := by
  unfold makeShortName
  simp only
  split_ifs
  all_goals first | exact not_panics_fail | exact not_panics_ok

omit s g in
theorem not_panics_makeUniqueShort : ¬Lib.Panics (makeUniqueShort name taken) := by
  unfold makeUniqueShort
  simp only
  split
  · exact not_panics_makeShortName
  · exact not_panics_fail

omit g in
theorem safe_deriveName (hh : v.Readable d h) (ex : Option Text) : Safe v.Valid (Logged.deriveName v h name ex) d
    fun q d' => d' = d ∧ Derived name q.1 q.2 := by
  refine (Safe.of_reads ?_ (Logged.records_deriveName ex)).mono fun q t ht => ⟨ht.1, deriveFrom_eq_ok ht.2⟩
  unfold Logged.deriveName
  split_ifs
  · refine .bind (safe_scanDir s hh) fun es t ht => ?_
    exact .lift_bind (.of_not_panics not_panics_makeUniqueShort) fun short _ => .pure ht
  · exact .lift_bind (.of_not_panics not_panics_makeShortName) fun short _ => .pure rfl

theorem safe_createEntry (hh : v.Readable d h) (hfit : slotsFor name ≤ v.slotsPerCluster) (now : ℤ) (first : Nat) (isDir : Bool) :
    Safe v.Valid (Logged.createEntry v now h name first isDir) d
      fun e d' => v.Widens d d' ∧ e.dirCluster = h ∧ e.firstCluster = first := by
  unfold Logged.createEntry
  split_ifs
  · exact .fail
  refine .keep (safe_walkChain s (s.lt hh.bounds.valid.2)) fun _ _ => ?_
  refine .keep (safe_deriveName s hh none) fun q hd => ?_
  refine .bind (safe_allocRun s g hh (hd.length_lfn ▸ hfit)) fun q' t' ⟨hw, hr⟩ => ?_
  have hidx : q'.2.1 * v.slotsPerCluster + q'.2.2 + q.2.length < 2 ^ 32 := by
    have h1 := hr.small
    have h2 := hr.fits
    rw [Nat.succ_mul] at h1
    omega
  refine .lift_bind (.checked hidx) fun idx _ => ?_
  exact .bind (safe_writeRun s g hr hd.length_run) fun _ t hsame => .pure ⟨hw.trans hsame.widens, rfl, rfl⟩

omit g in
theorem safe_editSlot (hh : v.InBounds d h) (idx : Nat) (edit : Bytes → Nat → Bytes) :
    Safe v.Valid (Logged.editSlot v h idx edit) d fun _ _ => True := by
  refine .keep (safe_walkChain s (s.lt hh.valid.2)) fun cs hcs => ?_
  cases hget : cs[idx / v.slotsPerCluster]? with
  | none => exact .fail
  | some c =>
    have hc := (walkFrom_inBounds hh hcs c (mem_of_getElem? hget)).valid
    exact .bind (safe_readCluster s hc) fun _ _ _ => (safe_writeCluster s hc _).mono fun _ _ _ => trivial

theorem safe_writePart (hc : v.Valid c) (inOff : Nat) (part : Bytes) :
    Safe v.Valid (Logged.writePart v c inOff part) d fun _ d' => v.SameFat d d' := by
  unfold Logged.writePart
  split_ifs
  · exact (safe_writeCluster s hc _).mono fun _ _ h => h g
  refine .keep (safe_readCluster s hc) fun _ _ => ?_
  exact (safe_writeCluster s hc _).mono fun _ _ h => h g

theorem safe_writeLoop (hcs : ∀ c ∈ cs, v.Valid c)
    (hin : buf = [] ∨ idx * v.clusterBytes ≤ filePos ∧ filePos < (idx + 1) * v.clusterBytes)
    (hroom : filePos + buf.length ≤ (idx + cs.length) * v.clusterBytes) :
    Safe v.Valid (Logged.writeLoop v idx cs filePos buf) d fun _ d' => v.SameFat d d' := by
  induction cs generalizing idx filePos buf d with
  | nil =>
    rw [length_nil, add_zero] at hroom
    obtain rfl : buf = [] := hin.elim id fun h => eq_nil_of_length_eq_zero (by omega)
    exact .pure .refl
  | cons c cs hi =>
    cases buf with
    | nil => exact .pure .refl
    | cons b buf =>
      have ⟨hle, hlt⟩ := hin.resolve_left (cons_ne_nil _ _)
      refine .bind (safe_writePart s g (hcs c (mem_cons_self ..)) _ _) fun _ t ht => ?_
      refine (hi (fun x hx => hcs x (mem_cons_of_mem _ hx)) ?_ ?_).mono fun _ _ h => ht.trans h
      · -- either the bytes end in this cluster or they go on at the start of the next one
        rw [drop_eq_nil_iff]
        simp only [add_mul, one_mul] at hlt ⊢
        omega
      · have hnext : idx + (c :: cs).length = idx + 1 + cs.length := by
          rw [length_cons]
          omega
        rw [hnext] at hroom
        rw [length_drop]
        omega

omit g in
theorem safe_fileChain (ha : a = 0 ∨ v.InBounds d a) :
    Safe v.Valid (Prog.quiet (Prog.read (v.fileChain · a))) d fun cs d' => d' = d ∧ v.IsChain d a cs := by
  refine .quiet (.read ?_)
  unfold fileChain
  split_ifs with h0
  · exact .ok ⟨rfl, .inl ⟨h0, rfl⟩⟩
  · have hb := ha.resolve_left h0
    exact (Gives.of_not_panics (not_panics_walkFrom s (s.lt hb.valid.2))).mono fun cs hcs => ⟨rfl, .inr ⟨hb, hcs⟩⟩

theorem safe_storeAt (he : v.InBounds d e.dirCluster) (hf : e.firstCluster = 0 ∨ v.InBounds d e.firstCluster)
    (hend : off + buf.length < 2 ^ 64) (now : ℤ) : Safe v.Valid (Logged.storeAt v now e off buf) d fun _ _ => True := by
  unfold Logged.storeAt
  refine .lift_bind (.checked hend) fun n hn => ?_
  subst hn
  split_ifs
  · exact .fail
  refine .keep (safe_fileChain s hf) fun cs hcs => ?_
  refine .bind (.quiet (widens_fitChain s g hcs)) fun cs' t ⟨hw, hcs', hlen⟩ => ?_
  have hpos : 0 < v.clusterBytes := mul_pos s.spc_pos (by decide)
  refine .bind (safe_writeLoop s g ?_ ?_ ?_) fun _ t' hsame => ?_
  · exact fun c hc => (hcs' c (mem_of_mem_drop hc)).valid
  · exact .inr ⟨Nat.div_mul_le_self .., by rw [Nat.mul_comm]; exact Nat.lt_mul_div_succ _ hpos⟩
  · refine (le_clustersFor_mul hpos).trans (Nat.mul_le_mul_right _ ?_)
    rw [length_drop, hlen]
    omega
  · exact .ends (safe_editSlot s (hsame.widens _ (hw _ he)) _ _)

omit s g in
theorem noPrev {P : Nat → Prop} : ∀ p ∈ (none : Option Nat), P p := fun _ hp => absurd hp (Option.not_mem_none _)

omit s g in
theorem Readable.of_alloc (hh : v.Readable d h) (hcs : v.walkChain d h v.totalClusters = .ok cs) (h0 : v.fatEntry d c = .ok 0)
    (hset : v.FatSet c eoc d d1) (hsame : v.SameFat d1 d') : v.Readable d' h := by
  have hw := hset.widens fun n hn => absurd hn not_link_eoc
  refine ⟨hsame.widens _ (hw _ hh.bounds), fun cs' hcs' => ?_⟩
  have hwalk : v.walkChain d' h v.totalClusters = .ok cs := by
    refine walkFrom_congr (fun x o ho hx => ?_) hcs
    have hlt := (walkFrom_inBounds hh.bounds hcs x hx).valid.2
    have hne : x ≠ c := by
      rintro rfl
      rw [nextCluster, h0] at ho
      cases ho
    rw [nextCluster, hsame x hlt, hset.other x hlt hne]
    exact ho
  cases hwalk.symm.trans hcs'
  exact hh.short cs hcs

theorem safe_makeDir (hh : v.Readable d h) (hcs : v.walkChain d h v.totalClusters = .ok cs)
    (hfit : slotsFor name ≤ v.slotsPerCluster) (now : ℤ) : Safe v.Valid (Logged.makeDir v now h name) d fun _ _ => True := by
  refine .bind (.quiet (returns_allocCluster s g noPrev)) fun c t ⟨hc, h0, d1, hset, hrest⟩ => ?_
  obtain ⟨_, rfl⟩ | ⟨p, hp, _⟩ := hrest
  · refine .bind (safe_writeCluster s hc _) fun _ t' hsame => ?_
    exact .ends (safe_createEntry s g (hh.of_alloc hcs h0 hset (hsame g)) hfit now c true)
  · cases hp

omit g in
theorem safe_deleteEntry (he : v.InBounds d e.dirCluster) (hf : e.firstCluster < 2 ^ 32) :
    Safe v.Valid (Logged.deleteEntry v e) d fun _ _ => True := by
  refine .bind (safe_editSlot s he _ _) fun _ t _ => ?_
  split_ifs
  · exact .quiet ((widens_freeFrom s hf fun _ _ => Nat.zero_le _).mono fun _ _ _ => trivial)
  · exact .pure trivial

theorem safe_moveEntry (he : v.Readable d e.dirCluster) (hfit : slotsFor name ≤ v.slotsPerCluster) :
    Safe v.Valid (Logged.moveEntry v e name) d fun _ _ => True := by
  refine .keep (safe_deriveName s he (some e.short)) fun q hd => ?_
  refine .bind (safe_allocRun s g he (hd.length_lfn ▸ hfit)) fun q' t' ⟨hw, hr⟩ => ?_
  refine .bind (safe_writeRun s g hr hd.length_run) fun _ t hsame => ?_
  exact safe_editSlot s (hsame.widens _ (hw _ he.bounds)) _ _

end writes

-- The name that a call is to create fits into one cluster of its directory.
def NameFits (v : Fat32) (d : AtaDrive) (path : Text) : Prop :=
  ∀ h name, v.resolve d path = .ok none → v.resolveParent d path = .ok (h, name) → slotsFor name ≤ v.slotsPerCluster

-- What a call follows on the medium stays in the data region.
def Bounded (v : Fat32) (d : AtaDrive) : Call → Prop
  | .list path => v.PathReadable d path ∧ ∀ e, v.resolve d path = .ok (some (.entry e)) → e.isDir = true →
      2 ≤ e.firstCluster → v.Readable d e.firstCluster
  | .stat path => v.PathReadable d path
  | .readAt path off _ => v.PathReadable d path ∧ ∀ e, v.resolve d path = .ok (some (.entry e)) → e.isDir = false →
      e.firstCluster ≠ 0 → off < e.size → v.InBounds d e.firstCluster
  | .writeAt _ path off buf => v.Regular ∧ v.PathReadable d path ∧ v.NameFits d path ∧ off + buf.length < 2 ^ 64 ∧
      ∀ e, v.resolve d path = .ok (some (.entry e)) → e.isDir = false → e.firstCluster = 0 ∨ v.InBounds d e.firstCluster
  | .mkdir _ path => v.Regular ∧ v.PathReadable d path ∧ v.NameFits d path
  | .unlink path => v.PathReadable d path
  | .rename src dst => v.Regular ∧ v.PathReadable d src ∧ v.PathReadable d dst ∧ v.NameFits d dst

section calls

variable (s : v.Sized)
include s

theorem safe_writeAt (hb : v.Bounded d (.writeAt now path off buf)) :
    Safe v.Valid (Logged.writeAt v now path off buf) d fun _ _ => True := by
  have ⟨g, hp, hfit, hend, hfile⟩ := hb
  refine .bind (Q := fun e d' => v.InBounds d' e.dirCluster ∧ (e.firstCluster = 0 ∨ v.InBounds d' e.firstCluster)) ?_
    fun e t ⟨h1, h2⟩ => safe_storeAt s g h1 h2 hend now
  refine .keep (safe_resolve s hp) fun o ho => ?_
  match o with
  | some .root => exact .fail
  | some (.entry e) =>
    simp only
    split_ifs with hdir
    · exact .fail
    · exact .pure ⟨(entry_of_resolve hp ho).1.bounds, hfile e ho (Bool.eq_false_iff.mpr hdir)⟩
  | none =>
    refine .keep (safe_resolveParent s hp) fun (h, name) ⟨hq, hread⟩ => ?_
    refine (safe_createEntry s g hread (hfit h name ho hq) now 0 false).mono fun e t ⟨hw, hdir, hfirst⟩ => ⟨?_, .inl hfirst⟩
    exact hdir ▸ hw h hread.bounds

theorem safe_mkdir (hb : v.Bounded d (.mkdir now path)) :
    Safe v.Valid (Logged.mkdir v now path) d fun _ _ => True := by
  have ⟨g, hp, hfit⟩ := hb
  refine .keep (safe_resolve s hp) fun o ho => ?_
  cases o with
  | some _ => exact .fail
  | none =>
    refine .keep (safe_resolveParent s hp) fun (h, name) ⟨hq, hread⟩ => ?_
    have ⟨es, hes, _⟩ := scan_of_resolve_none ho hq
    have ⟨cs, hcs, _⟩ := bind_eq_ok.mp hes
    exact safe_makeDir s g hread hcs (hfit h name ho hq) now

theorem safe_unlink (hp : v.PathReadable d path) : Safe v.Valid (Logged.unlink v path) d fun _ _ => True := by
  refine .keep (safe_resolve s hp) fun o ho => ?_
  match o with
  | none => exact .fail
  | some .root => exact .fail
  | some (.entry e) =>
    simp only
    split_ifs
    · exact .fail
    · have ⟨hread, hlt⟩ := entry_of_resolve hp ho
      exact safe_deleteEntry s hread.bounds hlt

theorem safe_rename (hb : v.Bounded d (.rename src dst)) :
    Safe v.Valid (Logged.rename v src dst) d fun _ _ => True := by
  have ⟨g, hsrc, hdst, hfit⟩ := hb
  refine .keep (safe_resolve s hsrc) fun o ho => ?_
  match o with
  | none => exact .fail
  | some .root => exact .fail
  | some (.entry e) =>
    refine .keep (safe_resolve s hdst) fun o' ho' => ?_
    match o' with
    | some .root => exact .fail
    | some (.entry e') =>
      simp only
      split_ifs
      · exact .pure trivial
      · exact .fail
    | none =>
      refine .keep (safe_resolveParent s hdst) fun (h, name) ⟨hq, _⟩ => ?_
      simp only
      split_ifs
      · exact .fail
      · exact safe_moveEntry s g (entry_of_resolve hsrc ho).1 (hfit h name ho' hq)

theorem safe_exec (hb : v.Bounded d call) : Safe v.Valid (Logged.exec v call) d fun _ _ => True := by
  cases call with
  | writeAt now path off buf => exact .ends (safe_writeAt s hb)
  | readAt path off len => exact .ends (safe_readAt s hb.1 hb.2)
  | mkdir now path => exact .ends (safe_mkdir s hb)
  | list path => exact .ends (safe_list s hb.1 hb.2)
  | stat path => exact .ends (safe_stat s hb)
  | unlink path => exact .ends (safe_unlink s hb)
  | rename src dst => exact .ends (safe_rename s hb)

end calls

-- The sectors of a cluster are sectors of the volume that was mounted from the drive.
def InVolume (v : Fat32) (d : AtaDrive) (partStart c : Nat) : Prop :=
  ∃ lba, v.clusterLba c = .ok lba ∧ partStart ≤ lba ∧ lba + v.sectorsPerCluster ≤ partStart + totalSectors d partStart

theorem inVolume_of_valid (hm : mount d ps = .ok v) (hd : d.totalSectors ≤ 2 ^ 48) (hc : v.Valid c) : v.InVolume d ps c := by
  have ⟨s, hps, hle⟩ := mount_eq_ok hm hd
  refine ⟨_, s.clusterLba_eq hc, ?_, ?_⟩
  · omega
  · have hlt : (c - 2 + 1) * v.sectorsPerCluster ≤ v.totalClusters * v.sectorsPerCluster :=
      Nat.mul_le_mul_right _ (by have := hc.1; have := hc.2; omega)
    rw [Nat.succ_mul] at hlt
    omega

-- The boot sector passes all checks, and its FATs have more sectors than 32 bits can count.
def Overlarge (d : AtaDrive) (partStart : Nat) : Prop :=
  let sec := d.content (partStart * AtaDrive.sectorSize) AtaDrive.sectorSize
  d.InRange partStart 1 ∧ sec.u16At 11 = AtaDrive.sectorSize ∧ (1 ≤ (sec.getD 13 0).toNat ∧ (sec.getD 13 0).toNat ≤ 16) ∧
    sec.u16At 17 = 0 ∧ sec.u16At 22 = 0 ∧ 2 ≤ sec.u32At 44 ∧ sec.u32At 32 ≠ 0 ∧ sec.u16At 14 ≠ 0 ∧
    2 ^ 32 ≤ sec.u16At 14 + (sec.getD 16 0).toNat * sec.u32At 36

theorem panics_mount_iff : Lib.Panics (mount d ps) ↔ Overlarge d ps := by
  unfold mount Overlarge
  by_cases hr : d.InRange ps 1
  · have hsec : Fat32.readSectors d ps 1 = .ok (d.content (ps * AtaDrive.sectorSize) AtaDrive.sectorSize) := by
      rw [Fat32.readSectors, AtaDrive.readSectors, if_pos hr, one_mul]
    rw [hsec, ok_bind]
    simp only [hr, true_and]
    generalize d.content (ps * AtaDrive.sectorSize) AtaDrive.sectorSize = sec
    constructor
    · intro h
      split_ifs at h with h1 h2 h3
      · exact absurd h not_panics_fail
      · exact absurd h not_panics_fail
      · exact absurd h not_panics_fail
      · rcases panics_bind.mp h with h | ⟨n, _, h⟩
        · have hbig := panics_checked.mp h
          simp only [AtaDrive.sectorSize] at h1 h2 ⊢
          omega
        · split_ifs at h
          · exact absurd h not_panics_fail
          · exact absurd h not_panics_ok
    · rintro ⟨h1, h2, h3, h4, h5, h6, h7, hbig⟩
      have hpos : 0 < (sec.getD 16 0).toNat * sec.u32At 36 := by
        have := u16At_lt sec 14
        omega
      have hfats := pos_of_mul_pos_right hpos
      have hsecs := pos_of_mul_pos_left hpos
      rw [if_neg (not_not.mpr h1), if_neg (by simp only [AtaDrive.sectorSize]; omega), if_neg (by omega)]
      exact panics_bind.mpr (.inl (panics_checked.mpr hbig))
  · have hsec : Fat32.readSectors d ps 1 = fail (.io .outOfRange) := by
      rw [Fat32.readSectors, AtaDrive.readSectors, if_neg hr]
    rw [hsec]
    simp only [hr, false_and, iff_false]
    exact not_panics_fail

-- A call that does not panic, and whose accesses to data clusters are inside the volume.
def Harmless (v : Fat32) (d : AtaDrive) (partStart : Nat) (now : AtaDrive) (call : Call) : Prop :=
  ¬(v.exec call).Panics now ∧ ∀ c ∈ v.touched call now, v.InVolume d partStart c

theorem harmless_of_bounded (hm : mount d ps = .ok v) (hd : d.totalSectors ≤ 2 ^ 48) (hb : v.Bounded d' call) :
    v.Harmless d ps d' call := by
  have ⟨s, _, _⟩ := mount_eq_ok hm hd
  have ⟨htouched, hok, _⟩ := safe_exec s hb [] fun _ h => absurd h not_mem_nil
  have ⟨_, hrun⟩ := (Logged.records_exec (v := v) call).run_eq d' []
  rw [hrun] at hok
  exact ⟨hok, fun c hc => inVolume_of_valid hm hd (htouched c hc)⟩

section media

-- A drive of six sectors: the boot sector, one sector of FAT, and the data region.
def bootSector (numFats : UInt8) (fatSectors : Nat) : Bytes :=
  replicate 11 0 ++ [0, 2, 1, 1, 0, numFats] ++ replicate 15 0 ++ toLe 4 6 ++ toLe 4 fatSectors ++
    replicate 4 0 ++ toLe 4 2

def medium (boot root : Bytes) : AtaDrive where
  totalSectors := 6
  lba48 := false
  bytes a :=
    if a < 512 then boot.getD a 0
    -- the first three entries of the FAT end a chain
    else if a < 1024 then (toLe 4 eoc ++ toLe 4 eoc ++ toLe 4 eoc).getD (a - 512) 0
    else root.getD (a - 1024) 0

-- An entry `A` whose first cluster is 1.
def looseEntry : Bytes :=
  0x41 :: replicate 10 0x20 ++ [0x20] ++ replicate 14 0 ++ [1, 0, 1, 0, 0, 0]

def plain : Fat32 where
  partStart := 0
  sectorsPerCluster := 1
  reserved := 1
  numFats := 1
  fatSectors := 1
  rootCluster := 2
  totalClusters := 4

theorem inBounds_of_end (hc : v.Valid c) (hn : v.nextCluster d c = .ok none) : v.InBounds d c := by
  refine inBounds_of_closed (C := (· = c)) (fun x hx => hx ▸ hc) (fun x n hx hl => ?_) rfl
  subst hx
  cases hn.symm.trans hl

theorem pathReadable_of_end (hsplit : Vfs.splitPath path = some [name]) (hc : v.Valid v.rootCluster)
    (hn : v.nextCluster d v.rootCluster = .ok none) (hwalk : v.walkChain d v.rootCluster v.totalClusters = .ok [v.rootCluster])
    (hfew : 2 * v.slotsPerCluster ≤ 2 ^ 32) : v.PathReadable d path := by
  intro parts hparts i h hd
  cases hsplit.symm.trans hparts
  rw [dropLast_singleton, take_nil] at hd
  cases hd
  refine ⟨inBounds_of_end hc hn, fun cs hcs => ?_⟩
  cases hwalk.symm.trans hcs
  exact hfew

def firstOf (v : Fat32) (d : AtaDrive) (path : Text) : Option Nat :=
  match v.resolve d path with
  | .ok (some (.entry e)) => some e.firstCluster
  | _ => none

theorem firstOf_eq (h : v.resolve d path = .ok (some (.entry e))) : v.firstOf d path = some e.firstCluster := by
  rw [firstOf, h]

def fresh : AtaDrive := medium (bootSector 1 1) []

def written : AtaDrive := ((plain.exec (.writeAt 0 ['/', 'A'] 0 [7])).run fresh).2

theorem bounded_fresh : plain.Bounded fresh (.writeAt 0 ['/', 'A'] 0 [7]) := by
  refine ⟨⟨by decide, by decide⟩, ?_, fun h name _ hp => ?_, by decide, fun e he => ?_⟩
  · exact pathReadable_of_end (show Vfs.splitPath ['/', 'A'] = some [['A']] from rfl) (by decide) (by decide +kernel) (by decide +kernel) (by decide)
  · cases hp
    decide
  · have hnone : plain.firstOf fresh ['/', 'A'] = none := by decide +kernel
    cases (firstOf_eq he).symm.trans hnone

theorem bounded_written : plain.Bounded written (.readAt ['/', 'A'] 0 1) := by
  refine ⟨?_, fun e he _ _ _ => ?_⟩
  · exact pathReadable_of_end (show Vfs.splitPath ['/', 'A'] = some [['A']] from rfl) (by decide) (by decide +kernel) (by decide +kernel) (by decide)
  · have hthree : plain.firstOf written ['/', 'A'] = some 3 := by decide +kernel
    rw [Option.some.inj ((firstOf_eq he).symm.trans hthree)]
    exact inBounds_of_end (by decide) (by decide +kernel)

end media

end Fat32
