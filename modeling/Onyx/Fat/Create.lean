import Onyx.Fat.Edit
import Onyx.Fat.NewSlot
import Onyx.Fat.Place

-- `create_entry`: its effect on the volume.

open Lib Fat List

namespace Fat32

variable {v : Fat32} {V V' : Vol} {d : AtaDrive} {h first : Nat} {cs new : List Nat} {name : Text}
variable {isDir : Bool} {now : ℤ} {short : Bytes} {lfn : List Bytes}

def scanVol (V : Vol) (h : Nat) (cs : List Nat) : Result FsError (List RawEntry) :=
  checkIndices (entriesOf h (V.slots cs))

def newEntry (now : ℤ) (h : Nat) (name : Text) (first : Nat) (isDir : Bool) (short : Bytes) (idx : Nat) :
    RawEntry where
  name
  short := trimSpaces (short.map fun b => .ofNat b.toNat)
  firstCluster := first
  size := 0
  atime := (now % 2 ^ 32).toNat
  mtime := (now % 2 ^ 32).toNat
  ctime := (now % 2 ^ 32).toNat
  isDir
  dirIndex := idx
  dirCluster := h

def enterVol (v : Fat32) (cs : List Nat) (lfn : List Bytes) (slot : Bytes) (V : Vol) :
    Result FsError Nat × Vol :=
  match v.runVol cs (lfn.length + 1) V with
  | none => (fail .noSpace, V)
  | some ((cs', ci, si), V) =>
    match (checked 32 (ci * v.slotsPerCluster + si + lfn.length) : Result FsError Nat) with
    | .error f => (.error f, V)
    | .ok idx =>
      match writeRunVol cs' ci si (lfn ++ [slot]) V with
      | (.error f, V) => (.error f, V)
      | (.ok (), V) => (.ok idx, V)

def createVol (v : Fat32) (now : ℤ) (h : Nat) (cs : List Nat) (name : Text) (first : Nat) (isDir : Bool)
    (V : Vol) : Result FsError RawEntry × Vol :=
  if name.contains '/' ∨ name.contains '\\' then (fail .notSupported, V)
  else match deriveFrom (scanVol V h cs) name none with
    | .error f => (.error f, V)
    | .ok (short, lfn) =>
      match v.enterVol cs lfn (packSlot short (entryAttr isDir) first 0 (.ofNow now)) V with
      | (.error f, V) => (.error f, V)
      | (.ok idx, V) => (.ok (newEntry now h name first isDir short idx), V)

theorem Derived.length_run (hd : Derived name short lfn) :
    ∀ s ∈ lfn ++ [packSlot short (entryAttr isDir) first size t], s.length = 32 := by
  intro s hs
  cases mem_append.mp hs with
  | inl hs => exact (hd.lfn s hs).1
  | inr hs => exact mem_singleton.mp hs ▸ length_packSlot hd.length_short

section

variable (r : v.DirChain V h cs) (hlen : ∀ {c}, v.Valid c → (V.data c).length = v.clusterBytes)
include r hlen

theorem runVol_chain (hr : v.runVol cs need V = some ((cs', ci, si), V')) :
    (∀ c ∈ cs', v.Valid c) ∧ ∀ c ∈ cs', (V'.data c).length = v.clusterBytes := by
  unfold runVol at hr
  split at hr
  · cases hr
    exact ⟨r.valid, r.length⟩
  have ⟨c, hf, he⟩ := Option.map_eq_some_iff.mp hr
  cases he
  have hv : ∀ x ∈ cs ++ [c], v.Valid x := by
    intro x hx
    cases mem_append.mp hx with
    | inl hx => exact r.valid x hx
    | inr hx => exact mem_singleton.mp hx ▸ (firstFree_eq_some hf).1
  exact ⟨hv, fun x hx => by rw [Vol.alloc_data, hlen (hv x hx)]⟩

theorem does_createEntry (now : ℤ) (name : Text) (first : Nat) (isDir : Bool) :
    v.Does (v.createEntry now h name first isDir) V (v.createVol now h cs name first isDir V).1
      (v.createVol now h cs name first isDir V).2 := by
  unfold createEntry createVol
  split_ifs with hn
  · exact .lift
  refine .read_bind (fun _ hs => hs.walkChain r.chain r.valid) ?_
  have hder (d) (hs : v.Shows d V) : v.deriveName d h name none = deriveFrom (scanVol V h cs) name none := by
    rw [deriveName_eq, hs.scanDir r.chain r.valid]
    rfl
  cases hd : deriveFrom (scanVol V h cs) name none with
  | error f => exact .read_bind_error fun d hs => (hder d hs).trans hd
  | ok p =>
    have ⟨short, lfn⟩ := p
    refine .read_bind (fun d hs => (hder d hs).trans hd) ?_
    have hrun : ∀ s ∈ lfn ++ [packSlot short (entryAttr isDir) first 0 (.ofNow now)], s.length = 32 :=
      (deriveFrom_eq_ok hd).length_run
    simp only [enterVol]
    cases hr : v.runVol cs (lfn.length + 1) V with
    | none => exact .bind_error (does_allocRun_none r.chain r.valid hr)
    | some p =>
      have ⟨⟨cs', ci, si⟩, V'⟩ := p
      refine .bind (does_allocRun r.chain r.valid hr) ?_
      have ⟨hv', hl'⟩ := runVol_chain r hlen hr
      simp only
      cases hc : (checked 32 (ci * v.slotsPerCluster + si + lfn.length) : Result FsError Nat) with
      | error f => exact .bind_error .lift
      | ok idx =>
        have hw := does_writeRun hv' hl' hrun ci si
        refine .bind .lift ?_
        simp only
        cases hr : writeRunVol cs' ci si (lfn ++ [packSlot short (entryAttr isDir) first 0 (.ofNow now)]) V' with | mk res V''
        rw [hr] at hw
        cases res with
        | error f => exact .bind_error hw
        | ok u => exact .bind hw .pure

end

theorem writeRunVol_ne_err : writeRunVol cs ci si run V ≠ (.error (.err f), V') := by
  unfold writeRunVol
  split
  · simp [abort]
  split
  · simp
  case h_2 hp =>
    intro he
    cases he
    exact putSlots_ne_err hp

theorem enterVol_err (he : v.enterVol cs lfn slot V = (.error (.err f), V')) : V' = V := by
  unfold enterVol at he
  split at he
  case h_1 => exact (Prod.mk.inj he).2.symm
  case h_2 =>
    split at he
    case h_1 hc =>
      cases he
      exact absurd hc checked_ne_err
    case h_2 =>
      split at he
      case h_1 hw =>
        cases he
        exact absurd hw writeRunVol_ne_err
      case h_2 => cases he

theorem enterVol_ok (r : v.DirChain V h cs) (hp : 0 < v.sectorsPerCluster)
    (hlen : ∀ {c}, v.Valid c → (V.data c).length = v.clusterBytes)
    (hl : v.totalClusters + 2 ≤ 0x0FFFFFF8) (hrun : ∀ s ∈ lfn ++ [slot], s.length = 32)
    (he : v.enterVol cs lfn slot V = (.ok idx, V')) :
    ∃ new k, v.Placed V cs new k (lfn ++ [slot]) V' ∧ idx = k + lfn.length ∧ k + lfn.length < 2 ^ 32 := by
  unfold enterVol at he
  split at he
  case h_1 => cases he
  case h_2 hr =>
    split at he
    case h_1 => cases he
    case h_2 hc =>
      split at he
      case h_1 => cases he
      case h_2 hw =>
        cases he
        have ⟨new, _, hpl⟩ := r.placed hp hlen hl hrun (by simp) (by rw [length_append]; exact hr) hw
        exact ⟨new, _, hpl, checked_eq_ok.mp hc⟩

theorem createVol_err (he : v.createVol now h cs name first isDir V = (.error (.err f), V')) : V' = V := by
  unfold createVol at he
  split_ifs at he
  · exact (Prod.mk.inj he).2.symm
  split at he
  case h_1 => exact (Prod.mk.inj he).2.symm
  case h_2 =>
    split at he
    case h_1 hent =>
      cases he
      exact enterVol_err hent
    case h_2 => cases he

section

variable (r : v.DirChain V h cs) (hp : 0 < v.sectorsPerCluster)
variable (hlen : ∀ {c}, v.Valid c → (V.data c).length = v.clusterBytes)
include r hp hlen

theorem createVol_ok (hl : v.totalClusters + 2 ≤ 0x0FFFFFF8)
    (he : v.createVol now h cs name first isDir V = (.ok e, V')) :
    ∃ short lfn new k, deriveFrom (scanVol V h cs) name none = .ok (short, lfn) ∧
      v.Placed V cs new k (lfn ++ [packSlot short (entryAttr isDir) first 0 (.ofNow now)]) V' ∧
      e = newEntry now h name first isDir short (k + lfn.length) ∧ k + lfn.length < 2 ^ 32 := by
  unfold createVol at he
  split_ifs at he
  · cases (Prod.mk.inj he).1
  split at he
  case h_1 => cases (Prod.mk.inj he).1
  case h_2 hd =>
    split at he
    case h_1 => cases he
    case h_2 hent =>
      cases he
      have ⟨new, k, hpl, hidx, hlt⟩ := enterVol_ok r hp hlen hl (deriveFrom_eq_ok hd).length_run hent
      exact ⟨_, _, new, k, hd, hpl, by rw [hidx], hlt⟩

theorem runVol_fits (hn : 0 < need)
    (hfit : need ≤ v.slotsPerCluster) (hr : v.runVol cs need V = some ((cs', ci, si), V')) :
    ci ≤ cs.length ∧ si + need ≤ v.slotsPerCluster ∧ ∃ c, cs'[ci]? = some c ∧ (V'.data c).length = v.clusterBytes := by
  have ⟨_, hl⟩ := runVol_chain r hlen hr
  unfold runVol at hr
  split at hr
  case h_1 hs =>
    cases hr
    have ⟨c, hc, hsi, _⟩ := r.searchRun_place hp hn hs
    exact ⟨Nat.le_of_lt (List.getElem?_eq_some_iff.mp hc).1, hsi, c, hc, hl c (mem_of_getElem? hc)⟩
  case h_2 =>
    have ⟨c, _, he⟩ := Option.map_eq_some_iff.mp hr
    cases he
    exact ⟨Nat.le_refl _, by rwa [Nat.zero_add], c, getElem?_concat_length, hl c (by simp)⟩

theorem createVol_of_room (hslash : ¬ (name.contains '/' ∨ name.contains '\\'))
    (hd : deriveFrom (scanVol V h cs) name none = .ok (short, lfn))
    (hfit : lfn.length + 1 ≤ v.slotsPerCluster) (hidx : (cs.length + 1) * v.slotsPerCluster ≤ 2 ^ 32)
    (hr : v.runVol cs (lfn.length + 1) V = some ((cs', ci, si), V1)) (now : ℤ) (first : Nat) (isDir : Bool) :
    ∃ e V', v.createVol now h cs name first isDir V = (.ok e, V') := by
  have ⟨hci, hsi, c, hc, hl⟩ := runVol_fits r hp hlen (Nat.succ_pos _) hfit hr
  have hlt : ci * v.slotsPerCluster + si + lfn.length < 2 ^ 32 := by
    have := Nat.mul_le_mul_right v.slotsPerCluster hci
    rw [Nat.succ_mul] at hidx
    omega
  have hrun : ∀ s ∈ lfn ++ [packSlot short (entryAttr isDir) first 0 (.ofNow now)], s.length = 32 :=
    (deriveFrom_eq_ok hd).length_run
  have ⟨b, hb, _⟩ := putSlots_eq (b := V1.data c) (i := si) hrun (by rw [hl]; simpa [slotsPerCluster] using hsi)
  refine ⟨newEntry now h name first isDir short (ci * v.slotsPerCluster + si + lfn.length), V1.setData c b, ?_⟩
  simp only [createVol, if_neg hslash, hd, enterVol, hr, checked_of_lt hlt, writeRunVol, hc, hb]

end

theorem not_isFreeSlot_of_isLive (h : isLive s = true) : isFreeSlot s = false := by
  have ⟨h1, h2, _⟩ := isLive_iff.mp h
  simp [isFreeSlot, h1, h2]

namespace Placed

variable {L : Layout} {k : Nat} {slot : Bytes} {run : List Bytes}

theorem getElem?_of_used {j : Nat} (p : v.Placed V cs new k run V')
    (hj : (V.slots cs)[j]? = some s) (hu : isFreeSlot s = false) : (V'.slots (cs ++ new))[j]? = some s := by
  have hlt := (List.getElem?_eq_some_iff.mp hj).1
  have hout : ¬ (k ≤ j ∧ j < k + run.length) := by
    intro ⟨h1, h2⟩
    cases p.place with
    | inl hp =>
      have := hp.2.1.2.2 (j - k) (by omega) s (by rw [Nat.add_sub_cancel' h1, hj])
      simp [this] at hu
    | inr hp =>
      have ⟨_, _, _, hk, _⟩ := hp
      omega
  rw [p.slots, getElem?_overwrite p.fits, Vol.slots_append, getElem?_append_left hlt, hj]
  split_ifs <;> first | rfl | omega

-- A new cluster that looks empty behind the run that is written to it.
def CleanTail (V : Vol) (new : List Nat) (n : Nat) : Prop :=
  ∀ c ∈ new, ∀ j, n ≤ j → ∀ s, (slotsOf (V.data c))[j]? = some s → isLive s = false

theorem live_slot (p : v.Placed V cs new k (lfn ++ [slot]) V')
    (hlfn : ∀ s ∈ lfn, slotAttr s = attrLfn) (hclean : CleanTail V new (lfn.length + 1))
    (hj : (V'.slots (cs ++ new))[j]? = some s) (hl : isLive s = true) :
    j = k + lfn.length ∧ s = slot ∨ j ≠ k + lfn.length ∧ (V.slots cs)[j]? = some s := by
  have hlen : (lfn ++ [slot]).length = lfn.length + 1 := by simp
  rw [p.slots, getElem?_overwrite p.fits, hlen] at hj
  -- Outside the run the slot is an old one, and not one of a new cluster.
  have hold (hout : j < k ∨ k + (lfn.length + 1) ≤ j) (hj : (V.slots (cs ++ new))[j]? = some s) :
      j ≠ k + lfn.length ∧ (V.slots cs)[j]? = some s := by
    refine ⟨by omega, ?_⟩
    rw [Vol.slots_append, getElem?_append] at hj
    split_ifs at hj with hlt
    · exact hj
    cases p.place with
    | inl hp => simp [hp.1, Vol.slots] at hj
    | inr hp =>
      obtain ⟨c, hn, _, hk, _⟩ := hp
      have := hclean c (by simp [hn]) (j - (V.slots cs).length) (by omega) s (by
        simpa [hn, Vol.slots] using hj)
      simp [this] at hl
  split_ifs at hj with h1 h2
  · exact .inr (hold (.inl h1) hj)
  · rw [getElem?_append] at hj
    split_ifs at hj with h3
    · have := hlfn s (mem_of_getElem? hj)
      simp [(isLive_iff.mp hl).2.2.1] at this
    have h4 : j - k - lfn.length = 0 := by omega
    rw [h4] at hj
    exact .inl ⟨by omega, by simpa using hj.symm⟩
  · exact .inr (hold (.inr (by omega)) hj)

section

variable (p : v.Placed V cs new k run V')
include p

theorem chain_eq (hc : V.Chain h cs) : V'.Chain h (cs ++ new) :=
  p.grown.chain h (.inl hc)

theorem dirChain (r : v.DirChain V h cs)
    (hlen : ∀ {c}, v.Valid c → (V.data c).length = v.clusterBytes) : v.DirChain V' h (cs ++ new) := by
  have hv : ∀ c ∈ cs ++ new, v.Valid c := fun c hc =>
    (mem_append.mp hc).elim (r.valid c) fun hn => (p.grown.fresh c hn).1
  exact ⟨p.chain_eq r.chain, hv, fun c hc => by rw [p.length, hlen (hv c hc)]⟩

theorem frame (hf : V.fat c ≠ 0) (hc : c ∉ cs) : V'.fat c = V.fat c ∧ V'.data c = V.data c := by
  have hn : c ∉ new := fun hm => hf (p.grown.fresh c hm).2
  exact ⟨p.grown.fat_of_ne_zero hf fun hm => hc (mem_of_mem_getLast? hm), p.data (by simp [hc, hn])⟩

theorem edit (w : v.Wf V L) (hh : h ∈ L.dirs) (hc : V.Chain h cs) (i : Nat) :
    v.Edit V L h i (cs ++ new) V' (L.claim new (.dir h)) where
  length hv := by rw [p.length, w.length_data hv]
  frame hf hd _ := p.frame hf fun hm => hd (w.owner_of_dir hh hc _ hm)
  dirs := rfl
  valid {c o} ho := by
    simp only [Layout.claim] at ho
    split_ifs at ho with hm
    · exact (p.grown.fresh c hm).1
    · exact w.valid ho
  owner {c o} hf ho _ := by
    have hn : c ∉ new := fun hm => hf (p.grown.fresh c hm).2
    simp [Layout.claim, hn, ho]
  root_parent := w.root_parent
  parent hp _ := hp
  chain := p.chain_eq hc
  chain_owner c hm := by
    simp only [Layout.claim]
    split_ifs with hn
    · rfl
    · exact w.owner_of_dir hh hc c ((mem_append.mp hm).resolve_right hn)

end

theorem wf (p : v.Placed V cs new k (lfn ++ [slot]) V') (w : v.Wf V L) (hh : h ∈ L.dirs)
    (hc : V.Chain h cs) (hlfn : ∀ s ∈ lfn, slotAttr s = attrLfn)
    (hclean : CleanTail V new (lfn.length + 1)) (hdot : isDot slot = false)
    (hok : v.EntryOk V' (L.claim new (.dir h)) h (k + lfn.length) slot) : v.Wf V' (L.claim new (.dir h)) := by
  have E := p.edit w hh hc (k + lfn.length)
  refine E.wf w ?_ ?_
  · intro j s hj hl hd
    cases p.live_slot hlfn hclean hj hl with
    | inl hn => exact hn.1 ▸ hn.2 ▸ hok
    | inr ho => exact E.entryOk (w.entries hh hc ho.2 hl hd) (by simp [ho.1])
  · intro j s hj hl hd
    cases p.live_slot hlfn hclean hj hl with
    | inl hn => simp [hn.2, hdot] at hd
    | inr ho =>
      refine (w.dots hh hc ho.2 hl hd).imp_right fun ⟨h1, s', hs', hl', hd'⟩ => ⟨h1, s', ?_, hl', hd'⟩
      exact p.getElem?_of_used hs' (not_isFreeSlot_of_isLive hl')

end Placed

end Fat32
