import Onyx.Ext2.Inode

-- The block tree of an inode: the places where its pointers stand and what they point to.

open Lib List Bytes Result

namespace Ext2

-- A field of the inode, or an entry of a table below field 12 or 13.
inductive Place
  | field (k : Fin 14)
  | single (k : Fin ptrs)
  | outer (j : Fin ptrs)
  | inner (j k : Fin ptrs)
  deriving DecidableEq

namespace Place

-- The places that have to be followed to get to this one.
def above : Place → List Place
  | field _ => []
  | single _ => [field 12]
  | outer _ => [field 13]
  | inner j _ => [field 13, outer j]

-- The table a place is in, and its number there.
def up : Place → Option (Place × Nat)
  | field _ => none
  | single k => some (field 12, k)
  | outer j => some (field 13, j)
  | inner j k => some (outer j, k)

def IsLeaf : Place → Prop
  | field k => k.val < direct
  | single _ => True
  | outer _ => False
  | inner _ _ => True

instance : DecidablePred IsLeaf
  | field k => inferInstanceAs (Decidable (k.val < direct))
  | single _ => .isTrue trivial
  | outer _ => .isFalse id
  | inner _ _ => .isTrue trivial

end Place

-- Where the pointer to a block of a file stands.
def placeOf (idx : Nat) : Option Place :=
  if h : idx < direct then some (.field ⟨idx, Nat.lt_trans h (by decide)⟩)
  else if h : idx - direct < ptrs then some (.single ⟨idx - direct, h⟩)
  else if h : idx - direct - ptrs < ptrs * ptrs then
    some (.inner ⟨(idx - direct - ptrs) / ptrs, Nat.div_lt_of_lt_mul h⟩ ⟨(idx - direct - ptrs) % ptrs, Nat.mod_lt _ (by decide)⟩)
  else none

namespace Disk

def entry (s : Disk) (t k : Nat) : Nat := if t = 0 then 0 else (s.block t).u32At (k * 4)

def ptr (s : Disk) (i : Inode) : Place → Nat
  | .field k => i.blocks.get ⟨k, Nat.lt_succ_of_lt k.isLt⟩
  | .single k => s.entry (i.blocks.get (12 : Fin 14).castSucc) k
  | .outer j => s.entry (i.blocks.get (13 : Fin 14).castSucc) j
  | .inner j k => s.entry (s.entry (i.blocks.get (13 : Fin 14).castSucc) j) k

-- The tables that lead to a place can be read.
def Reaches (s : Disk) (i : Inode) (p : Place) : Prop := ∀ q ∈ p.above, s.ptr i q = 0 ∨ s.OnDisk (s.ptr i q)

variable {s s' : Disk} {i : Inode} {p q : Place} {idx b : Nat}

theorem entry_zero : s.entry 0 k = 0 := if_pos rfl

theorem ne_zero_of_entry (h : s.entry t k ≠ 0) : t ≠ 0 := by
  rintro rfl
  exact h entry_zero

theorem ptr_of_direct (h12 : i.blocks.get 12 = 0) (h13 : i.blocks.get 13 = 0) : (∃ k, p = .field k) ∨ s.ptr i p = 0 := by
  cases p with
  | field k => exact .inl ⟨k, rfl⟩
  | single k => exact .inr (if_pos h12)
  | outer j => exact .inr (if_pos h13)
  | inner j k => exact .inr (if_pos (if_pos h13))

theorem indirectLookup_eq_ok : s.indirectLookup t k = .ok b ↔ (t = 0 ∨ s.OnDisk t) ∧ s.entry t k = b := by
  unfold indirectLookup entry
  by_cases ht : t = 0
  · rw [if_pos ht, if_pos ht]
    simp [ht, pure, Except.pure]
  rw [if_neg ht, if_neg ht, Result.bind_eq_ok]
  constructor
  · rintro ⟨data, hdata, h⟩
    have ⟨hd, hblock⟩ := readBlock_eq_ok.mp hdata
    subst hblock
    exact ⟨.inr hd, Except.ok.inj h⟩
  · rintro ⟨hd, h⟩
    exact ⟨_, readBlock_eq_ok.mpr ⟨hd.resolve_left ht, rfl⟩, congrArg _ h⟩

theorem reaches_field (k : Fin 14) : s.Reaches i (.field k) := nofun

theorem reaches_single : s.Reaches i (.single k) ↔ i.blocks.get 12 = 0 ∨ s.OnDisk (i.blocks.get 12) := forall_mem_singleton

theorem reaches_outer : s.Reaches i (.outer j) ↔ i.blocks.get 13 = 0 ∨ s.OnDisk (i.blocks.get 13) := forall_mem_singleton

theorem reaches_inner : s.Reaches i (.inner j k) ↔ s.Reaches i (.outer j) ∧ (s.ptr i (.outer j) = 0 ∨ s.OnDisk (s.ptr i (.outer j))) := by
  rw [reaches_outer]
  exact forall_mem_cons.trans (and_congr_right fun _ => forall_mem_singleton)

theorem mapBlock_eq_ok : s.mapBlock i idx = .ok b ↔ ∃ p, placeOf idx = some p ∧ s.Reaches i p ∧ s.ptr i p = b := by
  unfold mapBlock placeOf
  split_ifs with h1 h2 h3
  · simp only [Option.some.injEq, exists_eq_left', Except.ok.injEq]
    exact (and_iff_right (reaches_field _)).symm
  · simp only [Option.some.injEq, exists_eq_left', reaches_single]
    exact indirectLookup_eq_ok
  · simp only [Option.some.injEq, exists_eq_left', reaches_inner, reaches_outer, Result.bind_eq_ok, indirectLookup_eq_ok]
    constructor
    · rintro ⟨mid, ⟨h13, rfl⟩, hmid, h⟩
      exact ⟨⟨h13, hmid⟩, h⟩
    · rintro ⟨⟨h13, hmid⟩, h⟩
      exact ⟨_, ⟨h13, rfl⟩, hmid, h⟩
  · simp [fail]

theorem ptr_congr (h : ∀ q ∈ p.above, s.ptr i q ≠ 0 → s'.block (s.ptr i q) = s.block (s.ptr i q)) : s'.ptr i p = s.ptr i p := by
  have hentry : ∀ t k, (t ≠ 0 → s'.block t = s.block t) → s'.entry t k = s.entry t k := by
    intro t k ht
    unfold entry
    split_ifs with h0
    · rfl
    · rw [ht h0]
  cases p with
  | field k => rfl
  | single k => exact hentry _ _ (h (.field 12) (.head _))
  | outer j => exact hentry _ _ (h (.field 13) (.head _))
  | inner j k =>
    have houter : s'.entry i.blocks[13] j = s.entry i.blocks[13] j := hentry _ _ (h (.field 13) (.head _))
    show s'.entry (s'.entry i.blocks[13] j) k = s.entry (s.entry i.blocks[13] j) k
    rw [houter]
    exact hentry _ _ (h (.outer j) (.tail _ (.head _)))

end Disk

section alters

variable {s s' : Disk} {P : Nat → Prop} (h : Alters P s s') {i : Inode}
include h

theorem Alters.indirectLookup (ht : t ≠ 0 → ¬P t) : s'.indirectLookup t k = s.indirectLookup t k := by
  unfold Disk.indirectLookup
  split_ifs with h0
  · rfl
  · rw [h.readBlock (ht h0)]

theorem Alters.mapBlock (hp : ∀ p, placeOf idx = some p → ∀ q ∈ p.above, s.ptr i q ≠ 0 → ¬P (s.ptr i q)) :
    s'.mapBlock i idx = s.mapBlock i idx := by
  unfold Disk.mapBlock
  unfold placeOf at hp
  split_ifs at hp ⊢ with h1 h2 h3
  · rfl
  · exact h.indirectLookup (hp _ rfl (.field 12) (.head _))
  · show (s'.indirectLookup (s.ptr i (.field 13)) _ >>= _) = (s.indirectLookup (s.ptr i (.field 13)) _ >>= _)
    rw [h.indirectLookup (hp _ rfl (.field 13) (.head _))]
    cases hm : s.indirectLookup (s.ptr i (.field 13)) ((idx - direct - ptrs) / ptrs) with
    | error e => rfl
    | ok mid =>
      obtain ⟨_, rfl⟩ := Disk.indirectLookup_eq_ok.mp hm
      exact h.indirectLookup (hp _ rfl (.outer _) (.tail _ (.head _)))
  · rfl

-- The blocks that a directory is read from: its own, and the tables that lead to them.
def ReadFrom (s : Disk) (dir : Inode) (b : Nat) : Prop :=
  ∃ l p q, l < dir.size / blockSize ∧ placeOf l = some p ∧ (q ∈ p.above ∨ q = p) ∧ s.ptr dir q = b ∧ b ≠ 0

theorem Alters.dirEntries (hd : ∀ b, ReadFrom s dir b → ¬P b) : s'.dirEntries dir = s.dirEntries dir := by
  have hfrom : ∀ ls : List Nat, (∀ l ∈ ls, l < dir.size / blockSize) → s'.entriesFrom dir ls = s.entriesFrom dir ls := by
    intro ls hls
    induction ls with
    | nil => rfl
    | cons l ls hi =>
      have hl := hls l (.head _)
      have hmap : s'.mapBlock dir l = s.mapBlock dir l :=
        h.mapBlock fun p hp q hq h0 => hd _ ⟨l, p, q, hl, hp, .inl hq, rfl, h0⟩
      unfold Disk.entriesFrom
      rw [hmap, hi fun l' hl' => hls l' (.tail _ hl')]
      cases hphys : s.mapBlock dir l with
      | error e => rfl
      | ok phys =>
        have hblock : s'.blockEntries l phys = s.blockEntries l phys := by
          unfold Disk.blockEntries
          split_ifs with h0
          · rfl
          · obtain ⟨p, hp, _, rfl⟩ := Disk.mapBlock_eq_ok.mp hphys
            rw [h.readBlock (hd _ ⟨l, p, p, hl, hp, .inr rfl, rfl, h0⟩)]
        rw [ok_bind, ok_bind, hblock]
  exact hfrom _ fun l hl => mem_range.mp hl

end alters

section collect

variable {s : Disk} {i : Inode}

theorem mem_tableEntries : b ∈ tableEntries t ↔ b ≠ 0 ∧ ∃ k < ptrs, t.u32At (k * 4) = b := by
  simp only [tableEntries, mem_filter, mem_map, mem_range, decide_eq_true_eq]
  exact and_comm

theorem length_tableEntries_le (t : Bytes) : (tableEntries t).length ≤ ptrs := by
  refine (length_filter_le ..).trans ?_
  rw [length_map, length_range]

theorem mem_collectTables (h : s.collectTables ts = .ok out) (hb : b ∈ out) :
    b ∈ ts ∨ ∃ t ∈ ts, b ≠ 0 ∧ ∃ k < ptrs, (s.block t).u32At (k * 4) = b := by
  induction ts generalizing out with
  | nil =>
    cases h
    cases hb
  | cons t ts hi =>
    obtain ⟨data, hdata, h⟩ := bind_eq_ok.mp h
    obtain ⟨rest, hrest, h⟩ := bind_eq_ok.mp h
    cases h
    obtain ⟨_, rfl⟩ := Disk.readBlock_eq_ok.mp hdata
    simp only [mem_append, mem_singleton, mem_tableEntries] at hb
    obtain (hb | rfl) | hb := hb
    · exact .inr ⟨t, .head _, hb⟩
    · exact .inl (.head _)
    · exact (hi hrest hb).imp (.tail _) fun ⟨t', ht', h⟩ => ⟨t', .tail _ ht', h⟩

theorem length_collectTables_le (h : s.collectTables ts = .ok out) : out.length ≤ ts.length * (ptrs + 1) := by
  induction ts generalizing out with
  | nil =>
    cases h
    exact Nat.zero_le _
  | cons t ts hi =>
    obtain ⟨data, _, h⟩ := bind_eq_ok.mp h
    obtain ⟨rest, hrest, h⟩ := bind_eq_ok.mp h
    cases h
    have hrest := hi hrest
    have htable := length_tableEntries_le data
    simp only [length_append, length_cons, length_nil, Nat.add_mul, Nat.one_mul]
    omega

theorem mem_filter_singleton : b ∈ [a].filter (· ≠ 0) ↔ b = a ∧ a ≠ 0 := by
  simp only [mem_filter, mem_singleton, decide_eq_true_eq]
  constructor
  · rintro ⟨rfl, h⟩
    exact ⟨rfl, h⟩
  · rintro ⟨rfl, h⟩
    exact ⟨rfl, h⟩

theorem mem_collectDouble (h : s.collectDouble t = .ok out) (hb : b ∈ out) : t ≠ 0 ∧ (b = t
    ∨ (∃ j < ptrs, (s.block t).u32At (j * 4) = b ∧ b ≠ 0)
    ∨ ∃ j k, j < ptrs ∧ k < ptrs ∧ (s.block ((s.block t).u32At (j * 4))).u32At (k * 4) = b ∧ b ≠ 0 ∧ (s.block t).u32At (j * 4) ≠ 0) := by
  unfold Disk.collectDouble at h
  split_ifs at h with ht
  · cases h
    cases hb
  refine ⟨ht, ?_⟩
  obtain ⟨data, hdata, h⟩ := bind_eq_ok.mp h
  obtain ⟨out', hout, h⟩ := bind_eq_ok.mp h
  cases h
  obtain ⟨_, rfl⟩ := Disk.readBlock_eq_ok.mp hdata
  simp only [mem_append, mem_singleton] at hb
  obtain hb | rfl := hb
  · obtain hb | ⟨m, hm, h0, k, hk, rfl⟩ := mem_collectTables hout hb
    · obtain ⟨h0, j, hj, rfl⟩ := mem_tableEntries.mp hb
      exact .inr (.inl ⟨j, hj, rfl, h0⟩)
    · obtain ⟨hm0, j, hj, rfl⟩ := mem_tableEntries.mp hm
      exact .inr (.inr ⟨j, k, hj, hk, rfl, h0, hm0⟩)
  · exact .inl rfl

theorem length_collectDouble_le (h : s.collectDouble t = .ok out) : out.length ≤ ptrs * (ptrs + 1) + 1 := by
  unfold Disk.collectDouble at h
  split_ifs at h with ht
  · cases h
    exact Nat.zero_le _
  obtain ⟨data, _, h⟩ := bind_eq_ok.mp h
  obtain ⟨out', hout, h⟩ := bind_eq_ok.mp h
  cases h
  have hout := length_collectTables_le hout
  have htable := Nat.mul_le_mul_right (ptrs + 1) (length_tableEntries_le data)
  rw [length_append, length_singleton]
  omega

theorem mem_collectBlocks (h : s.collectBlocks i = .ok out) (hb : b ∈ out) : b ≠ 0 ∧ ∃ p, s.ptr i p = b := by
  obtain ⟨single, hsingle, h⟩ := bind_eq_ok.mp h
  obtain ⟨double, hdouble, h⟩ := bind_eq_ok.mp h
  cases h
  simp only [mem_append, mem_filter, decide_eq_true_eq] at hb
  obtain (⟨hb, h0⟩ | hb) | hb := hb
  · obtain ⟨k, hk, rfl⟩ := mem_take_iff_getElem.mp hb
    refine ⟨h0, .field ⟨k, by simp only [direct] at hk; omega⟩, ?_⟩
    simp [Disk.ptr, Vector.get]
  · obtain hb | ⟨t, ht, h0, k, hk, rfl⟩ := mem_collectTables hsingle hb
    · obtain ⟨rfl, h0⟩ := mem_filter_singleton.mp hb
      exact ⟨h0, .field 12, rfl⟩
    · obtain ⟨rfl, ht0⟩ := mem_filter_singleton.mp ht
      exact ⟨h0, .single ⟨k, hk⟩, if_neg ht0⟩
  · obtain ⟨t0, hb⟩ := mem_collectDouble hdouble hb
    obtain rfl | ⟨j, hj, rfl, h0⟩ | ⟨j, k, hj, hk, rfl, h0, hm0⟩ := hb
    · exact ⟨t0, .field 13, rfl⟩
    · exact ⟨h0, .outer ⟨j, hj⟩, if_neg t0⟩
    · exact ⟨h0, .inner ⟨j, hj⟩ ⟨k, hk⟩, (congrArg (s.entry · k) (if_neg t0)).trans (if_neg hm0)⟩

theorem length_collectBlocks_lt (h : s.collectBlocks i = .ok out) : out.length < 2 ^ 17 := by
  obtain ⟨single, hsingle, h⟩ := bind_eq_ok.mp h
  obtain ⟨double, hdouble, h⟩ := bind_eq_ok.mp h
  cases h
  have hsingle := length_collectTables_le hsingle
  have hdouble := length_collectDouble_le hdouble
  have hone : ([i.blocks[12]].filter (· ≠ 0)).length ≤ 1 := length_filter_le ..
  have hdirect : ((i.blocks.toList.take direct).filter (· ≠ 0)).length ≤ direct :=
    (length_filter_le ..).trans (length_take_le ..)
  simp only [length_append, ptrs, direct, blockSize] at *
  omega

theorem Alters.collectTables (h : Alters P s s') (hp : ∀ t ∈ ts, ¬P t) : s'.collectTables ts = s.collectTables ts := by
  induction ts with
  | nil => rfl
  | cons t ts hi => rw [Disk.collectTables, Disk.collectTables, h.readBlock (hp t (.head _)), hi fun t ht => hp t (.tail _ ht)]

theorem Alters.collectDouble (h : Alters P s s') (hp : t ≠ 0 → ¬P t) (hp' : ∀ j < ptrs, s.entry t j ≠ 0 → ¬P (s.entry t j)) :
    s'.collectDouble t = s.collectDouble t := by
  unfold Disk.collectDouble
  split_ifs with ht
  · rfl
  rw [h.readBlock (hp ht)]
  cases hdata : s.readBlock t with
  | error e => rfl
  | ok data =>
    rw [ok_bind, ok_bind, h.collectTables]
    intro b hb
    obtain ⟨hb0, j, hj, rfl⟩ := mem_tableEntries.mp hb
    have hentry : s.entry t j = data.u32At (j * 4) := by
      rw [← (Disk.readBlock_eq_ok.mp hdata).2]
      exact if_neg ht
    rw [← hentry] at hb0 ⊢
    exact hp' j hj hb0

theorem Alters.collectBlocks (h : Alters P s s') (hp : ∀ q : Place, ¬q.IsLeaf → s.ptr i q ≠ 0 → ¬P (s.ptr i q)) :
    s'.collectBlocks i = s.collectBlocks i := by
  have hsingle : s'.collectTables ([i.blocks[12]].filter (· ≠ 0)) = s.collectTables ([i.blocks[12]].filter (· ≠ 0)) := by
    refine h.collectTables fun t ht => ?_
    obtain ⟨rfl, h0⟩ := mem_filter_singleton.mp ht
    exact hp (.field 12) (by decide) h0
  have hdouble : s'.collectDouble i.blocks[13] = s.collectDouble i.blocks[13] :=
    h.collectDouble (hp (.field 13) (by decide)) fun j hj => hp (.outer ⟨j, hj⟩) id
  rw [Disk.collectBlocks, Disk.collectBlocks, hsingle, hdouble]

end collect

section mapped

variable {s : Disk} {i : Inode}

theorem ensureField_of_mapped (h : i.blocks.get k ≠ 0) : (ensureField i k).run s = (.ok (i.blocks.get k, i), s) := by
  unfold ensureField
  split_ifs with hk
  · rfl
  · exact (hk h).elim

theorem ensureSlot_of_mapped (ht : t = 0 ∨ s.OnDisk t) (h : s.entry t k ≠ 0) : (ensureSlot t k).run s = (.ok (s.entry t k), s) := by
  have h0 := Disk.ne_zero_of_entry h
  unfold Disk.entry at h ⊢
  rw [if_neg h0] at h ⊢
  simp only [ensureSlot, read_bind_run, Disk.readBlock_of_onDisk (ht.resolve_left h0), lift_ok_bind_run, if_pos h]
  rfl

theorem ensureBlock_of_mapped (h : s.mapBlock i idx = .ok b) (hb : b ≠ 0) : (ensureBlock i idx).run s = (.ok (b, i), s) := by
  unfold Disk.mapBlock at h
  unfold ensureBlock
  split_ifs at h ⊢ with h1 h2 h3
  · cases h
    exact ensureField_of_mapped hb
  · have ⟨ht, hentry⟩ := Disk.indirectLookup_eq_ok.mp h
    subst hentry
    have h12 : i.blocks[(12 : Fin 15)] ≠ 0 := Disk.ne_zero_of_entry hb
    rw [bind_run_ok (ensureField_of_mapped h12)]
    exact bind_run_ok (ensureSlot_of_mapped ht hb)
  · generalize (idx - direct - ptrs) / ptrs = j at *
    generalize (idx - direct - ptrs) % ptrs = k at *
    clear h1 h2 h3
    obtain ⟨mid, hmid, h⟩ := bind_eq_ok.mp h
    have ⟨ht, hentry⟩ := Disk.indirectLookup_eq_ok.mp h
    have ⟨ht13, hmid⟩ := Disk.indirectLookup_eq_ok.mp hmid
    subst hentry hmid
    have hmid0 := Disk.ne_zero_of_entry hb
    have h13 : i.blocks[(13 : Fin 15)] ≠ 0 := Disk.ne_zero_of_entry hmid0
    rw [bind_run_ok (ensureField_of_mapped h13)]
    show (ensureSlot i.blocks[13] j >>= _).run s = _
    rw [bind_run_ok (ensureSlot_of_mapped ht13 hmid0)]
    exact bind_run_ok (ensureSlot_of_mapped ht hb)
  · cases h

end mapped

-- A volume of 20 blocks and 16 inodes with a file A of four bytes in its root.
def smallFields : Nat → List (Nat × Bytes)
  | 1 => [(0, toLe 4 16), (4, toLe 4 20), (12, toLe 4 11), (16, toLe 4 5), (20, toLe 4 1),
      (32, toLe 4 8192), (40, toLe 4 16), (56, toLe 2 superMagic)]
  | 2 => [(0, toLe 4 3), (4, toLe 4 4), (8, toLe 4 5)]
  | 3 => [(0, [0xFF])]
  | 4 => [(0, [0xFF, 0x07])]
  | 5 => [(128, toLe 2 modeDir), (132, toLe 4 1024), (168, toLe 4 7)]
  | 6 => [(256, toLe 2 modeReg), (260, toLe 4 4), (296, toLe 4 8)]
  | 7 => [(0, toLe 4 2), (4, toLe 2 12), (6, [1]), (8, [46]), (12, toLe 4 2), (16, toLe 2 12), (18, [2]),
      (20, [46, 46]), (24, toLe 4 11), (28, toLe 2 1000), (30, [1]), (32, [65])]
  | _ => []

def smallByte (a : Nat) : UInt8 :=
  match (smallFields (a / blockSize)).find? fun f => f.1 ≤ a % blockSize ∧ a % blockSize < f.1 + f.2.length with
  | none => 0
  | some f => f.2.getD (a % blockSize - f.1) 0

def small : Disk where
  partStart := 0
  blocksCount := 20
  inodesCount := 16
  blocksPerGroup := 8192
  inodesPerGroup := 16
  blockBitmap := 3
  inodeBitmap := 4
  inodeTable := 5
  freeBlocks := 11
  freeInodes := 5
  dev := { totalSectors := 40, lba48 := false, bytes := smallByte }

theorem mount_small : mount small.dev 0 = .ok small.toExt2 := by decide +kernel

theorem resolve_small : small.resolve ['/', 'A'] = .ok (some (small.node 11)) := by decide +kernel

end Ext2
