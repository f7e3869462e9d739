import Onyx.Fat.Content

-- Resizing the chain of a file: what growing and cutting do to the volume.

open Lib Fat List Vol

namespace Fat32

variable {v : Fat32} {V V' : Vol} {c : Nat} {cs new : List Nat}

def growVol (v : Fat32) : Nat → List Nat → Vol → Result FsError (List Nat) × Vol
  | 0, cs, V => (.ok cs, V)
  | k + 1, cs, V =>
    match v.firstFree V with
    | none => (fail .noSpace, V)
    | some c => growVol v k (cs ++ [c]) (V.alloc cs.getLast? c)

theorem does_grow (hv : ∀ c ∈ cs, v.Valid c) : v.Does (v.grow k cs) V (v.growVol k cs V).1 (v.growVol k cs V).2 := by
  induction k generalizing cs V with
  | zero => exact .pure
  | succ k hi =>
    cases hf : v.firstFree V with
    | none =>
      simp only [growVol, hf]
      exact .bind_error (does_allocCluster_none hf)
    | some c =>
      have hc := (firstFree_eq_some hf).1
      simp only [growVol, hf]
      refine .bind (does_allocCluster hf fun p hp => hv p (mem_of_mem_getLast? hp)) (hi ?_)
      intro c' hc'
      cases mem_append.mp hc' with
      | inl h => exact hv c' h
      | inr h => exact mem_singleton.mp h ▸ hc

-- `V'` is `V` with the free clusters `new` hung behind the chain `cs`.
structure Grown (v : Fat32) (V : Vol) (cs new : List Nat) (V' : Vol) : Prop where
  data : V'.data = V.data
  fresh : ∀ c ∈ new, v.Valid c ∧ V.fat c = 0
  fat : ∀ c, c ∉ new → (new = [] ∨ c ∉ cs.getLast?) → V'.fat c = V.fat c
  chain : ∀ a, (V.Chain a cs ∨ cs = [] ∧ a ∈ new.head?) → V'.Chain a (cs ++ new)

namespace Grown

theorem refl : v.Grown V cs [] V where
  data := rfl
  fresh := by simp
  fat _ _ _ := rfl
  chain a h := by simpa using h

theorem cons (hl : v.totalClusters + 2 ≤ 0x0FFFFFF8) (hc : v.Valid c) (h0 : V.fat c = 0)
    (g : v.Grown (V.alloc cs.getLast? c) (cs ++ [c]) new V') : v.Grown V cs (c :: new) V' where
  data := g.data.trans alloc_data
  fresh := by
    intro x hx
    cases hx with
    | head => exact ⟨hc, h0⟩
    | tail _ hx =>
      obtain ⟨hv, hx0⟩ := g.fresh x hx
      refine ⟨hv, ?_⟩
      by_cases hp : x ∈ cs.getLast?
      · rw [alloc_fat_prev hp] at hx0
        exact absurd hx0 (by have := hc.1; omega)
      by_cases hxc : x = c
      · exact hxc ▸ h0
      · rwa [alloc_fat_of_ne hxc hp] at hx0
  fat := by
    intro x hx hp
    simp only [mem_cons, not_or] at hx
    have hp : x ∉ cs.getLast? := hp.resolve_left (by simp)
    rw [g.fat x hx.2 (.inr (by simpa [eq_comm] using hx.1)), alloc_fat_of_ne hx.1 hp]
  chain := by
    intro a ha
    rw [append_cons]
    refine g.chain a (.inl ?_)
    cases ha with
    | inl ha =>
      have hnc (x : Nat) (hx : x ∈ cs) : x ≠ c := fun he => ha.fat_ne_zero hx (he ▸ h0)
      refine Linked.snoc ha (fun x hx hp => link_congr (alloc_fat_of_ne (hnc x hx) hp))
        (fun p hp => ?_) ?_
      · rw [link, alloc_fat_prev hp, linkOf_cluster hc.1 (by have := hc.2; omega)]
        rfl
      · rw [link, alloc_fat_self fun hp => hnc c (mem_of_mem_getLast? hp) rfl]
        rfl
    | inr ha =>
      obtain ⟨hn, ha⟩ := ha
      cases ha
      subst hn
      exact .last link_setFat_eoc

theorem fat_of_ne_zero (g : v.Grown V cs new V') (hc : V.fat c ≠ 0) (hp : c ∉ cs.getLast?) : V'.fat c = V.fat c :=
  g.fat c (fun hm => hc (g.fresh c hm).2) (.inr hp)

theorem chain_of_disjoint (g : v.Grown V cs new V') (h : V.Chain a as) (hd : ∀ c ∈ as, c ∉ cs) : V'.Chain a as :=
  h.congr fun c hc => link_congr
    (g.fat_of_ne_zero (h.fat_ne_zero hc) fun hp => hd c hc (mem_of_mem_getLast? hp))

theorem congr (g : v.Grown V1 cs new V1') (hf : V1.fat = V2.fat)
    (hf' : V1'.fat = V2'.fat) (hd : V2'.data = V2.data) : v.Grown V2 cs new V2' where
  data := hd
  fresh c hc := hf ▸ g.fresh c hc
  fat c hc hl := by rw [← hf, ← hf', g.fat c hc hl]
  chain a hc := by
    refine (g.chain a (hc.imp_left fun hc => ?_)).congr fun c _ => link_congr (by rw [hf'])
    exact hc.congr fun c _ => link_congr (by rw [hf])

end Grown

theorem growVol_grown (hl : v.totalClusters + 2 ≤ 0x0FFFFFF8) (k : Nat) (cs : List Nat) (V : Vol) :
    ∃ new, v.Grown V cs new (v.growVol k cs V).2 ∧ ((v.growVol k cs V).1 = .ok (cs ++ new) ∧ new.length = k ∨
        (v.growVol k cs V).1 = fail .noSpace) := by
  induction k generalizing cs V with
  | zero => exact ⟨[], .refl, .inl ⟨by simp [growVol], rfl⟩⟩
  | succ k hi =>
    cases hf : v.firstFree V with
    | none =>
      refine ⟨[], ?_, .inr ?_⟩ <;> simp only [growVol, hf]
      exact .refl
    | some c =>
      have ⟨hc, h0⟩ := firstFree_eq_some hf
      have ⟨new, hg, hr⟩ := hi (cs ++ [c]) (V.alloc cs.getLast? c)
      refine ⟨c :: new, ?_, ?_⟩
      · simp only [growVol, hf]
        exact hg.cons hl hc h0
      · simp only [growVol, hf, length_cons, Nat.succ_inj]
        rwa [append_cons cs c new]

def fitVol (v : Fat32) (cs : List Nat) (need : Nat) (V : Vol) : Result FsError (List Nat) × Vol :=
  if cs.length ≤ need then v.growVol (need - cs.length) cs V else (.ok (cs.take need), V.cut cs need)

theorem does_fitChain (hc : cs = [] ∨ V.Chain first cs) (hv : ∀ c ∈ cs, v.Valid c) (need : Nat) :
    v.Does (v.fitChain first cs need) V (v.fitVol cs need V).1 (v.fitVol cs need V).2 := by
  intro d hs
  have hd := does_grow (v := v) (V := V) (k := need - cs.length) hv
  suffices hf : v.Does (v.fitChain first cs need) V (v.fitVol cs need V).1 (v.fitVol cs need V).2 from
    hf d hs
  unfold fitVol
  split_ifs with hn
  · have ⟨new, _, hr⟩ := growVol_grown hs.geometry.links (need - cs.length) cs V
    cases hr with
    | inl hr =>
      have hlen : ¬ (cs ++ new).length > need := by rw [length_append]; omega
      rw [hr.1] at hd ⊢
      refine .bind hd ?_
      rw [if_neg hlen]
      exact .pure
    | inr hr =>
      rw [hr] at hd ⊢
      exact .bind_error hd
  · have h0 : need - cs.length = 0 := by omega
    have hne : cs ≠ [] := by
      intro h
      rw [h] at hn
      simp at hn
    rw [h0, growVol] at hd
    rw [fitChain, h0]
    refine .bind hd ?_
    rw [if_pos (Nat.lt_of_not_le hn)]
    exact .bind (does_freeFrom (hc.resolve_left hne) hv (by omega)) .pure

theorem cut_fat_of_not_mem (hc : c ∉ cs) : (V.cut cs keep).fat c = V.fat c := by
  unfold cut
  split
  case h_1 c' h =>
    split_ifs with h0
    · exact clear_fat_of_not_mem hc
    have hne : c ≠ c' := fun he => hc (he ▸ mem_of_getElem? h)
    rw [setFat_fat_of_ne hne]
    exact clear_fat_of_not_mem fun hm => hc (mem_of_mem_drop hm)
  case h_2 => exact clear_fat_of_not_mem hc

theorem cut_fat_of_not_mem_take (hc : c ∈ cs) (hk : c ∉ cs.take keep) : (V.cut cs keep).fat c = 0 := by
  have hd : c ∈ cs.drop keep := by
    rw [← take_append_drop keep cs] at hc
    exact (mem_append.mp hc).resolve_left hk
  unfold cut
  split
  case h_1 c' h =>
    split_ifs with h0
    · exact clear_fat_of_mem hc
    have hlast : (cs.take keep)[keep - 1]? = some c' := (getElem?_take_of_lt (by omega)).trans h
    have hne : c ≠ c' := fun he => hk (he ▸ mem_of_getElem? hlast)
    rw [setFat_fat_of_ne hne]
    exact clear_fat_of_mem hd
  case h_2 => exact clear_fat_of_mem hc

@[simp]
theorem cut_data : (V.cut cs keep).data = V.data := by
  unfold cut
  split
  · split_ifs <;> simp
  · rfl

theorem cut_chain (h : V.Chain a cs) (hk : 0 < keep) (hl : keep ≤ cs.length) :
    (V.cut cs keep).Chain a (cs.take keep) := by
  have hlt : keep - 1 < cs.length := by omega
  have hnd := h.nodup
  have hcut : V.cut cs keep = (V.clear (cs.drop keep)).setFat cs[keep - 1] eoc := by
    simp only [cut, getElem?_eq_getElem hlt]
    rw [if_neg (by omega)]
  rw [hcut]
  have hkeep : cs.take keep = cs.take (keep - 1 + 1) := by rw [Nat.sub_add_cancel hk]
  rw [hkeep]
  refine Linked.take h hlt ?_ ?_
  · intro c hc
    have hd : c ∉ cs.drop (keep - 1) := disjoint_take_drop hnd (Nat.le_refl _) hc
    rw [drop_eq_getElem_cons hlt, Nat.sub_add_cancel hk, mem_cons, not_or] at hd
    apply link_congr
    rw [setFat_fat_of_ne hd.1, clear_fat_of_not_mem hd.2]
  · intro c hc
    rw [getElem?_eq_getElem hlt] at hc
    cases hc
    exact link_setFat_eoc

-- `V'` is `V` with the chain `cs` resized to `cs'`, `need` clusters long.
structure Fitted (v : Fat32) (V : Vol) (cs : List Nat) (need : Nat) (cs' : List Nat) (V' : Vol) : Prop where
  data : V'.data = V.data
  length : cs'.length = need
  keep : ∃ new, cs' = cs.take need ++ new
  valid : ∀ c ∈ cs', v.Valid c
  fresh : ∀ c ∈ cs', c ∉ cs → V.fat c = 0
  fat : ∀ c, c ∉ cs → c ∉ cs' → V'.fat c = V.fat c
  freed : ∀ c ∈ cs, c ∉ cs' → V'.fat c = 0
  chain : 0 < need → ∀ a, (V.Chain a cs ∨ cs = [] ∧ a ∈ cs'.head?) → V'.Chain a cs'

theorem Fitted.chain_of_disjoint (f : v.Fitted V cs need cs' V') (h : V.Chain a as)
    (hd : ∀ c ∈ as, c ∉ cs) : V'.Chain a as :=
  h.congr fun c hc => link_congr
    (f.fat c (hd c hc) fun hm => h.fat_ne_zero hc (f.fresh c hm (hd c hc)))

theorem fitVol_fitted (hl : v.totalClusters + 2 ≤ 0x0FFFFFF8) (hv : ∀ c ∈ cs, v.Valid c)
    (h : (v.fitVol cs need V).1 = .ok cs') : v.Fitted V cs need cs' (v.fitVol cs need V).2 := by
  unfold fitVol at h ⊢
  split_ifs at h ⊢ with hn
  · have ⟨new, hg, hr⟩ := growVol_grown hl (need - cs.length) cs V
    cases hr with
    | inr hr => simp [hr, fail] at h
    | inl hr =>
      rw [hr.1, Except.ok.injEq] at h
      subst h
      refine ⟨hg.data, ?_, ⟨new, ?_⟩, ?_, ?_, ?_, ?_, fun _ a ha => hg.chain a ?_⟩
      · rw [length_append]
        omega
      · rw [take_of_length_le hn]
      · intro c hc
        exact (mem_append.mp hc).elim (hv c) fun hc => (hg.fresh c hc).1
      · intro c hc hc'
        exact (hg.fresh c ((mem_append.mp hc).resolve_left hc')).2
      · intro c hc hc'
        exact hg.fat c (fun hm => hc' (mem_append_right _ hm))
          (.inr fun hm => hc (mem_of_mem_getLast? hm))
      · exact fun c hc hc' => absurd (mem_append_left _ hc) hc'
      · exact ha.imp_right fun ha => ⟨ha.1, by simpa [ha.1] using ha.2⟩
  · rw [Except.ok.injEq] at h
    subst h
    refine ⟨cut_data, ?_, ⟨[], by simp⟩, fun c hc => hv c (mem_of_mem_take hc),
      fun c hc hc' => absurd (mem_of_mem_take hc) hc', fun c hc _ => cut_fat_of_not_mem hc,
      fun c => cut_fat_of_not_mem_take, ?_⟩
    · rw [length_take]
      omega
    · intro hk a ha
      cases ha with
      | inl ha => exact cut_chain ha hk (by omega)
      | inr ha => simp [ha.1] at hn

theorem fitVol_error (hl : v.totalClusters + 2 ≤ 0x0FFFFFF8)
    (h : v.fitVol cs need V = (.error f, V')) : ∃ new, v.Grown V cs new V' := by
  unfold fitVol at h
  split_ifs at h
  · have ⟨new, hg, _⟩ := growVol_grown hl (need - cs.length) cs V
    rw [h] at hg
    exact ⟨new, hg⟩
  · cases h

end Fat32
