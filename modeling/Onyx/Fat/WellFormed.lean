import Onyx.Fat.SlotWrite

-- Well-formed volumes: every cluster in use has one owner, whose chain is as long as its size says.

open Lib Fat

namespace Fat

-- The entries for the directory itself and its parent.
def isDot (slot : Bytes) : Bool := shortName slot = Vfs.dot ∨ shortName slot = Vfs.dotdot

-- A cluster belongs to directory `h`, or to the file of slot `i` of directory `h`.
inductive Owner
  | dir (h : Nat)
  | file (h i : Nat)
  deriving DecidableEq

structure Layout where
  dirs : Set Nat
  owner : Nat → Option Owner
  parent : Nat → Option (Nat × Nat)

def Layout.claim (L : Layout) (cs : List Nat) (o : Owner) : Layout :=
  { L with owner := fun c => if c ∈ cs then some o else L.owner c }

def Layout.addDir (L : Layout) (c : Nat) (p : Nat × Nat) : Layout where
  dirs := insert c L.dirs
  owner x := if x = c then some (.dir c) else L.owner x
  parent x := if x = c then some p else L.parent x

def Layout.move (L : Layout) (h i k : Nat) : Layout where
  dirs := L.dirs
  owner c := (L.owner c).map fun o => if o = .file h i then .file h k else o
  parent x := (L.parent x).map fun p => if p = (h, i) then (h, k) else p

end Fat

namespace Fat32

variable (v : Fat32) (V : Vol) (L : Layout)

inductive EntryOk (h i : Nat) (slot : Bytes) : Prop
  | empty (hf : slotFirst slot = 0) (hs : slotIsDir slot = false → slotSize slot = 0)
  | dir (hd : slotIsDir slot = true) (hm : slotFirst slot ∈ L.dirs)
      (hp : L.parent (slotFirst slot) = some (h, i))
  | file (cs : List Nat) (hd : slotIsDir slot = false) (hc : V.Chain (slotFirst slot) cs)
      (ho : ∀ c ∈ cs, L.owner c = some (.file h i)) (hs : slotSize slot ≤ cs.length * v.clusterBytes)

-- Live slots behind an end marker, which no scan shows, are entries like any other.
structure Wf : Prop where
  length_data : ∀ {c}, v.Valid c → (V.data c).length = v.clusterBytes
  spc_pos : 0 < v.sectorsPerCluster
  valid : ∀ {c o}, L.owner c = some o → v.Valid c
  root : v.rootCluster ∈ L.dirs
  root_parent : L.parent v.rootCluster = none
  dirs : ∀ {h}, h ∈ L.dirs → ∃ cs, V.Chain h cs ∧ ∀ c ∈ cs, L.owner c = some (.dir h)
  entries : ∀ {h cs i slot}, h ∈ L.dirs → V.Chain h cs → (V.slots cs)[i]? = some slot →
    isLive slot = true → isDot slot = false → v.EntryOk V L h i slot
  dots : ∀ {h cs i slot}, h ∈ L.dirs → V.Chain h cs → (V.slots cs)[i]? = some slot →
    isLive slot = true → isDot slot = true →
    i = 0 ∨ i = 1 ∧ ∃ s, (V.slots cs)[0]? = some s ∧ isLive s = true ∧ isDot s = true

def WellFormed (d : AtaDrive) : Prop := ∃ V L, v.Shows d V ∧ v.Wf V L

end Fat32

namespace Fat

theorem asciiLower_eq_dot (h : asciiLower c = '.') : c = '.' := by
  unfold asciiLower at h
  split_ifs at h with hc
  · have hlower : ∀ n < 91, 65 ≤ n → Char.ofNat (n + 32) ≠ '.' := by decide
    exact absurd h (hlower c.toNat (Nat.lt_succ_of_le hc.2) hc.1)
  · exact h

theorem eq_of_eqIgnoreAsciiCase (h : eqIgnoreAsciiCase s t = true) (hs : ∀ c ∈ s, c = '.') : t = s := by
  simp only [eqIgnoreAsciiCase, decide_eq_true_eq] at h
  induction s generalizing t with
  | nil => simpa using h.symm
  | cons c s hi =>
    cases t with
    | nil => simp at h
    | cons c' t =>
      simp only [List.map_cons, List.cons.injEq] at h
      have hc := hs c (.head _)
      subst hc
      rw [asciiLower_eq_dot (h.1.symm.trans (by decide)), hi (fun c hc => hs c (.tail _ hc)) h.2]

theorem not_eqIgnoreAsciiCase_of_dot (hs : s = Vfs.dot ∨ s = Vfs.dotdot)
    (hn : name ≠ Vfs.dot ∧ name ≠ Vfs.dotdot) : eqIgnoreAsciiCase s name = false := by
  cases h : eqIgnoreAsciiCase s name with
  | false => rfl
  | true =>
    have he := eq_of_eqIgnoreAsciiCase h (by cases hs <;> simp_all [Vfs.dot, Vfs.dotdot])
    cases hs with
    | inl hs => exact absurd (he.trans hs) hn.1
    | inr hs => exact absurd (he.trans hs) hn.2

def matchesName (name : Text) (e : RawEntry) : Bool :=
  eqIgnoreAsciiCase e.name name || eqIgnoreAsciiCase e.short name

theorem eqIgnoreAsciiCase_iff : eqIgnoreAsciiCase s t = true ↔ s.map asciiLower = t.map asciiLower := decide_eq_true_iff

theorem matchesName_congr (h : eqIgnoreAsciiCase s t = true) : matchesName s e = matchesName t e := by
  simp [matchesName, eqIgnoreAsciiCase, eqIgnoreAsciiCase_iff.mp h]

end Fat

namespace Fat32.Wf

variable {v : Fat32} {V : Vol} {L : Layout} {h : Nat} {cs : List Nat}

section

variable (w : v.Wf V L) (hd : h ∈ L.dirs) (hc : V.Chain h cs)
include w hd hc

theorem owner_of_dir : ∀ c ∈ cs, L.owner c = some (.dir h) := by
  have ⟨cs', hc', ho⟩ := w.dirs hd
  exact hc.unique hc' ▸ ho

theorem chain_valid : ∀ c ∈ cs, v.Valid c :=
  fun c hm => w.valid (w.owner_of_dir hd hc c hm)

theorem dirChain : v.DirChain V h cs :=
  have hv := w.chain_valid hd hc
  ⟨hc, hv, fun c hm => w.length_data (hv c hm)⟩

theorem slot_of_found (he : e ∈ entriesOf h (V.slots cs)) (hn : name ≠ Vfs.dot ∧ name ≠ Vfs.dotdot)
    (hm : matchesName name e = true) :
    ∃ slot, (V.slots cs)[e.dirIndex]? = some slot ∧ isLive slot = true ∧ isDot slot = false ∧
      ∃ run, e = entryOf h run slot e.dirIndex := by
  obtain ⟨k, slot, hk, hl, _, he⟩ := mem_scanSlots.mp he
  rw [Nat.zero_add] at he
  have hi : e.dirIndex = k := by rw [he]; rfl
  refine ⟨slot, hi ▸ hk, hl, ?_, _, hi.symm ▸ he⟩
  cases hdot : isDot slot with
  | false => rfl
  | true =>
    have hshort : e.short = shortName slot := by rw [he]; rfl
    -- No run can be pending in front of a dot entry, so its name is its short name.
    have hrun : pendingRun .empty ((V.slots cs).take k) = .empty := by
      cases w.dots hd hc hk hl hdot with
      | inl h0 => simp [h0, pendingRun]
      | inr h1 =>
        obtain ⟨h1, s, hs, hl', _⟩ := h1
        have ht : (V.slots cs).take 1 = [s] := by
          cases hsl : V.slots cs <;> simp_all
        simp only [isLive, decide_eq_true_eq] at hl'
        simp [h1, ht, pendingRun, nextRun, hl'.2.2.1]
    have hname : e.name = shortName slot := by
      rw [he, hrun]
      simp [entryOf, LfnRun.empty]
    simp only [isDot, decide_eq_true_eq] at hdot
    have := not_eqIgnoreAsciiCase_of_dot hdot hn
    simp [matchesName, hname, hshort, this] at hm

end

end Fat32.Wf
