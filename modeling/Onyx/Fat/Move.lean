import Onyx.Fat.Keep

-- `rename`: its effect on the volume.

open Lib Fat

namespace Fat32

variable {v : Fat32} {V V' : Vol} {L : Layout} {e : RawEntry} {slot : Bytes} {h : Nat}
variable {dir cs cs' : List Nat}

-- The effect of `allocRun` and `writeRun` together: the chain and the index of the last slot.
def placeVol (v : Fat32) (cs : List Nat) (lfn : List Bytes) (slot : Bytes) (V : Vol) :
    Result FsError (List Nat) × Vol :=
  match v.runVol cs (lfn.length + 1) V with
  | none => (fail .noSpace, V)
  | some ((cs', ci, si), V) =>
    match writeRunVol cs' ci si (lfn ++ [slot]) V with
    | (.error f, V) => (.error f, V)
    | (.ok (), V) => (.ok cs', V)

def moveVol (v : Fat32) (e : RawEntry) (dir : List Nat) (name : Text) (V : Vol) : Result FsError Unit × Vol :=
  match deriveFrom (scanVol V e.dirCluster dir) name (some e.short) with
  | .error f => (.error f, V)
  | .ok (short, lfn) =>
    match v.placeVol dir lfn
        (packSlot short (entryAttr e.isDir) e.firstCluster e.size (.ofEntry e)) V with
    | (.error f, V) => (.error f, V)
    | (.ok dir', V) => (.ok (), v.removeVol dir' e.dirIndex V)

theorem placeVol_err (he : v.placeVol cs lfn slot V = (.error (.err f), V')) : V' = V := by
  unfold placeVol at he
  split at he
  case h_1 => exact (Prod.mk.inj he).2.symm
  case h_2 =>
    split at he
    case h_1 hw =>
      cases he
      exact absurd hw writeRunVol_ne_err
    case h_2 => cases he

theorem placeVol_ok (r : v.DirChain V h cs) (hp : 0 < v.sectorsPerCluster)
    (hlen : ∀ {c}, v.Valid c → (V.data c).length = v.clusterBytes)
    (hl : v.totalClusters + 2 ≤ 0x0FFFFFF8) (hrun : ∀ s ∈ lfn ++ [slot], s.length = 32)
    (he : v.placeVol cs lfn slot V = (.ok cs', V')) :
    ∃ new k, cs' = cs ++ new ∧ v.Placed V cs new k (lfn ++ [slot]) V' := by
  unfold placeVol at he
  split at he
  case h_1 => cases he
  case h_2 hr =>
    split at he
    case h_1 => cases he
    case h_2 hw =>
      cases he
      have ⟨new, hcs, hpl⟩ := r.placed hp hlen hl hrun (by simp) (by rw [List.length_append]; exact hr) hw
      exact ⟨new, _, hcs, hpl⟩

theorem moveVol_ok (r : v.DirChain V e.dirCluster dir) (hp : 0 < v.sectorsPerCluster)
    (hlen : ∀ {c}, v.Valid c → (V.data c).length = v.clusterBytes)
    (hl : v.totalClusters + 2 ≤ 0x0FFFFFF8) (he : v.moveVol e dir name V = (.ok u, V')) :
    ∃ short lfn new k V2, deriveFrom (scanVol V e.dirCluster dir) name (some e.short) = .ok (short, lfn) ∧
      v.Placed V dir new k (lfn ++ [packSlot short (entryAttr e.isDir) e.firstCluster e.size (.ofEntry e)]) V2 ∧
      V' = v.removeVol (dir ++ new) e.dirIndex V2 := by
  unfold moveVol at he
  split at he
  case h_1 => cases he
  case h_2 hd =>
    split at he
    case h_1 => cases he
    case h_2 hpl =>
      cases he
      have ⟨new, k, hcs, p⟩ := placeVol_ok r hp hlen hl (deriveFrom_eq_ok hd).length_run hpl
      exact ⟨_, _, new, k, _, hd, p, by rw [hcs]⟩

theorem moveVol_err (he : v.moveVol e dir name V = (.error (.err f), V')) : V' = V := by
  unfold moveVol at he
  split at he
  case h_1 => exact (Prod.mk.inj he).2.symm
  case h_2 =>
    split at he
    case h_1 hp =>
      cases he
      exact placeVol_err hp
    case h_2 => cases he

theorem does_moveEntry (w : v.Wf V L) (l : Located V L e dir slot) :
    v.Does (v.moveEntry e name) V (v.moveVol e dir name V).1 (v.moveVol e dir name V).2 := by
  intro d hs
  suffices hd : v.Does (v.moveEntry e name) V (v.moveVol e dir name V).1 (v.moveVol e dir name V).2 from
    hd d hs
  have r := w.dirChain l.dir l.chain
  have hder (d) (hs : v.Shows d V) : v.deriveName d e.dirCluster name (some e.short) =
      deriveFrom (scanVol V e.dirCluster dir) name (some e.short) := by
    rw [deriveName_eq, hs.scanDir r.chain r.valid]
    rfl
  unfold moveEntry moveVol
  cases hd : deriveFrom (scanVol V e.dirCluster dir) name (some e.short) with
  | error f => exact .read_bind_error fun d hs => (hder d hs).trans hd
  | ok p =>
    have ⟨short, lfn⟩ := p
    refine .read_bind (fun d hs => (hder d hs).trans hd) ?_
    have hrun : ∀ s ∈ lfn ++ [packSlot short (entryAttr e.isDir) e.firstCluster e.size (.ofEntry e)],
        s.length = 32 := (deriveFrom_eq_ok hd).length_run
    simp only
    cases hpl : v.placeVol dir lfn
        (packSlot short (entryAttr e.isDir) e.firstCluster e.size (.ofEntry e)) V with
    | mk res V' =>
      unfold placeVol at hpl
      split at hpl
      case h_1 hr =>
        cases hpl
        exact .bind_error (does_allocRun_none r.chain r.valid hr)
      case h_2 cs' ci si V1 hr =>
        have ⟨hv', hl'⟩ := runVol_chain r w.length_data hr
        have hw := does_writeRun hv' hl' hrun ci si
        refine .bind (does_allocRun r.chain r.valid hr) ?_
        split at hpl
        case h_1 hwr =>
          cases hpl
          rw [hwr] at hw
          exact .bind_error hw
        case h_2 hwr =>
          cases hpl
          rw [hwr] at hw
          have ⟨new, hcs, hp⟩ := r.placed w.spc_pos w.length_data hs.geometry.links hrun (by simp)
            (by rw [List.length_append]; exact hr) hwr
          subst hcs
          refine .bind hw ((hp.dirChain r w.length_data).does_removeDirSlots w.spc_pos ?_ rfl rfl)
          exact (List.getElem?_eq_some_iff.mp
            (hp.getElem?_of_used l.index (not_isFreeSlot_of_isLive l.live))).1

section move

variable {short : Bytes} {lfn : List Bytes} {new : List Nat} {k : Nat} {name : Text} {V2 : Vol}
variable (w : v.Wf V L) (l : Located V L e dir slot) (hd : Derived name short lfn)
variable (p : v.Placed V dir new k
  (lfn ++ [packSlot short (entryAttr e.isDir) e.firstCluster e.size (.ofEntry e)]) V2)
include w l hd p

theorem entryOk_moved (hc : ∀ {c}, V.fat c ≠ 0 → c ∉ dir → V'.fat c = V.fat c) :
    v.EntryOk V' ((L.claim new (.dir e.dirCluster)).move e.dirCluster e.dirIndex (k + lfn.length))
      e.dirCluster (k + lfn.length) (packSlot short (entryAttr e.isDir) e.firstCluster e.size (.ofEntry e)) := by
  have hf := l.firstCluster
  have hsz := l.size
  have hdir := l.isDir
  have hf' : slotFirst (packSlot short (entryAttr e.isDir) e.firstCluster e.size (.ofEntry e)) =
      e.firstCluster := slotFirst_packSlot hd.length_short (hf ▸ slotFirst_lt slot)
  have hsz' : slotSize (packSlot short (entryAttr e.isDir) e.firstCluster e.size (.ofEntry e)) = e.size :=
    slotSize_packSlot hd.length_short (hsz ▸ slotSize_lt slot)
  have hdir' : slotIsDir (packSlot short (entryAttr e.isDir) e.firstCluster e.size (.ofEntry e)) = e.isDir :=
    slotIsDir_packSlot hd.length_short
  cases l.entryOk w with
  | empty h1 h2 =>
    exact .empty (by rw [hf', hf, h1]) fun hx => by rw [hsz', hsz]; exact h2 (by rw [← hdir, ← hdir', hx])
  | dir h1 h2 h3 =>
    refine .dir (by rw [hdir', hdir, h1]) (by rw [hf', hf]; exact h2) ?_
    rw [hf', hf]
    simp [Layout.move, Layout.claim, h3]
  | file as h1 h2 h3 h4 =>
    have hout (c : Nat) (hm : c ∈ as) : c ∉ dir := fun hm' => by
      have := (h3 c hm).symm.trans (w.owner_of_dir l.dir l.chain c hm')
      simp at this
    refine .file as (by rw [hdir', hdir, h1]) ?_ ?_ (by rw [hsz', hsz]; exact h4)
    · rw [hf', hf]
      exact h2.congr fun c hm => Vol.link_congr (hc (h2.fat_ne_zero hm) (hout c hm))
    · intro c hm
      have hn : c ∉ new := fun hm' => h2.fat_ne_zero hm (p.grown.fresh c hm').2
      simp [Layout.move, Layout.claim, hn, h3 c hm]

omit w l hd in
theorem frame_moved (hf : V.fat c ≠ 0) (hc : c ∉ dir) : (v.removeVol (dir ++ new) e.dirIndex V2).fat c = V.fat c ∧
      (v.removeVol (dir ++ new) e.dirIndex V2).data c = V.data c := by
  have hn : c ∉ new := fun hm => hf (p.grown.fresh c hm).2
  have ⟨h1, h2⟩ := p.frame hf hc
  exact ⟨by rw [removeVol_fat, h1], by rw [removeVol_data_of_not_mem (by simp [hc, hn]), h2]⟩

omit hd in
theorem edit_moved : v.Edit V L e.dirCluster e.dirIndex (dir ++ new) (v.removeVol (dir ++ new) e.dirIndex V2)
      ((L.claim new (.dir e.dirCluster)).move e.dirCluster e.dirIndex (k + lfn.length)) := by
  have r2 := p.dirChain (w.dirChain l.dir l.chain) w.length_data
  have hidx := p.getElem?_of_used l.index (not_isFreeSlot_of_isLive l.live)
  have hlt := (List.getElem?_eq_some_iff.mp hidx).1
  have E2 := p.edit w l.dir l.chain e.dirIndex
  refine ⟨?_, fun hf ho _ => frame_moved p hf fun hm => ho (w.owner_of_dir l.dir l.chain _ hm), rfl, ?_,
    ?_, ?_, ?_, ?_, ?_⟩
  · intro c hc
    rw [r2.length_removeVol w.spc_pos hlt, p.length, w.length_data hc]
  · intro c o ho
    have ⟨o', ho', _⟩ := Option.map_eq_some_iff.mp ho
    exact E2.valid ho'
  · intro c o hf ho hne
    have := E2.owner hf ho hne
    simp [Layout.move, this, hne]
  · have := E2.root_parent
    simp [Layout.move, this]
  · intro x q hq hne
    have hq' : (L.claim new (.dir e.dirCluster)).parent x = some q := hq
    simp [Layout.move, hq', hne]
  · exact r2.chain.congr fun c _ => Vol.link_congr (by rw [removeVol_fat])
  · intro c hc
    have := E2.chain_owner c hc
    simp [Layout.move, this]

theorem live_slot_moved (hclean : Placed.CleanTail V new (lfn.length + 1))
    (hj : ((v.removeVol (dir ++ new) e.dirIndex V2).slots (dir ++ new))[j]? = some s) (hl : isLive s = true) :
    j = k + lfn.length ∧ s = packSlot short (entryAttr e.isDir) e.firstCluster e.size (.ofEntry e) ∨
      j ≠ e.dirIndex ∧ (V.slots dir)[j]? = some s := by
  have r2 := p.dirChain (w.dirChain l.dir l.chain) w.length_data
  have hidx := p.getElem?_of_used l.index (not_isFreeSlot_of_isLive l.live)
  have hlt := (List.getElem?_eq_some_iff.mp hidx).1
  have ⟨hne, hj⟩ := (r2.erased_removeVol w.spc_pos hlt).live_slot (r2.length_mem_slots w.spc_pos) hj hl
  exact (p.live_slot (fun s hs => (hd.lfn s hs).2.1) hclean hj hl).imp_right fun h => ⟨hne, h.2⟩

theorem wf_moved (hclean : Placed.CleanTail V new (lfn.length + 1)) : v.Wf (v.removeVol (dir ++ new) e.dirIndex V2)
      ((L.claim new (.dir e.dirCluster)).move e.dirCluster e.dirIndex (k + lfn.length)) := by
  have r2 := p.dirChain (w.dirChain l.dir l.chain) w.length_data
  have hidx := p.getElem?_of_used l.index (not_isFreeSlot_of_isLive l.live)
  have hlt := (List.getElem?_eq_some_iff.mp hidx).1
  have E := edit_moved w l p
  refine E.wf w ?_ ?_
  · intro j s hj hl hdot
    cases live_slot_moved w l hd p hclean hj hl with
    | inl hn =>
      rw [hn.1, hn.2]
      exact entryOk_moved w l hd p fun hf hc => (frame_moved p hf hc).1
    | inr ho => exact E.entryOk (w.entries l.dir l.chain ho.2 hl hdot) (by simpa using ho.1)
  · intro j s hj hl hdot
    cases live_slot_moved w l hd p hclean hj hl with
    | inl hn => simp [hn.2, hd.isDot] at hdot
    | inr ho =>
      refine (w.dots l.dir l.chain ho.2 hl hdot).imp_right fun ⟨h1, s', hs', hl', hd'⟩ => ⟨h1, s', ?_, hl', hd'⟩
      refine (r2.erased_removeVol w.spc_pos hlt).getElem?_of_live
        (p.getElem?_of_used hs' (not_isFreeSlot_of_isLive hl')) (fun h0 => ?_) hl'
      rw [h0, l.index] at hs'
      cases hs'
      simp [l.notDot] at hd'

end move

end Fat32
