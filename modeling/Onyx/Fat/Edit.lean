import Onyx.Fat.WellFormed

-- Changes within one directory: to its own clusters, to those of one of its files, and to free ones.

open Lib Fat

namespace Fat32

variable {v : Fat32} {V V' : Vol} {L L' : Layout} {h i : Nat} {cs : List Nat}

-- `V'` is `V` with directory `h` and the file of its slot `i` changed; `L'` is the new layout.
structure Edit (v : Fat32) (V : Vol) (L : Layout) (h i : Nat) (cs : List Nat) (V' : Vol) (L' : Layout) :
    Prop where
  length : ∀ {c}, v.Valid c → (V'.data c).length = v.clusterBytes
  frame : ∀ {c}, V.fat c ≠ 0 → L.owner c ≠ some (.dir h) → L.owner c ≠ some (.file h i) →
    V'.fat c = V.fat c ∧ V'.data c = V.data c
  dirs : L'.dirs = L.dirs
  valid : ∀ {c o}, L'.owner c = some o → v.Valid c
  owner : ∀ {c o}, V.fat c ≠ 0 → L.owner c = some o → o ≠ .file h i → L'.owner c = some o
  root_parent : L'.parent v.rootCluster = none
  parent : ∀ {x p}, L.parent x = some p → p ≠ (h, i) → L'.parent x = some p
  chain : V'.Chain h cs
  chain_owner : ∀ c ∈ cs, L'.owner c = some (.dir h)

namespace Edit

variable (E : v.Edit V L h i cs V' L')
include E

theorem chain_of_owner (hc : V.Chain a as) (ho : ∀ c ∈ as, L.owner c = some o)
    (hd : o ≠ .dir h) (hf : o ≠ .file h i) :
    V'.Chain a as ∧ (∀ c ∈ as, V'.data c = V.data c) ∧ ∀ c ∈ as, L'.owner c = some o := by
  have hfr (c : Nat) (hm : c ∈ as) : V'.fat c = V.fat c ∧ V'.data c = V.data c := by
    refine E.frame (hc.fat_ne_zero hm) ?_ ?_ <;> rw [ho c hm] <;> simpa
  exact ⟨hc.congr fun c hm => Vol.link_congr (hfr c hm).1, fun c hm => (hfr c hm).2,
    fun c hm => E.owner (hc.fat_ne_zero hm) (ho c hm) hf⟩

theorem entryOk (ok : v.EntryOk V L h' j slot) (hne : (h', j) ≠ (h, i)) : v.EntryOk V' L' h' j slot := by
  cases ok with
  | empty hf hs => exact .empty hf hs
  | dir hd hm hp => exact .dir hd (E.dirs ▸ hm) (E.parent hp hne)
  | file as hd hc ho hs =>
    have ⟨hc', _, ho'⟩ := E.chain_of_owner hc ho (by simp) (by simpa using hne)
    exact .file as hd hc' ho' hs

theorem dir_of_ne (w : v.Wf V L) (hh : h' ∈ L.dirs) (hne : h' ≠ h) (hc : V.Chain h' as) :
    V'.Chain h' as ∧ (∀ c ∈ as, L'.owner c = some (.dir h')) ∧ V'.slots as = V.slots as := by
  have ⟨hc', hd', ho'⟩ := E.chain_of_owner hc (w.owner_of_dir hh hc) (by simpa using hne) (by simp)
  exact ⟨hc', ho', Vol.slots_congr hd'⟩

theorem wf (w : v.Wf V L)
    (he : ∀ {j : Nat} {slot}, (V'.slots cs)[j]? = some slot → isLive slot = true → isDot slot = false →
      v.EntryOk V' L' h j slot)
    (hd : ∀ {j : Nat} {slot}, (V'.slots cs)[j]? = some slot → isLive slot = true → isDot slot = true →
      j = 0 ∨ j = 1 ∧ ∃ s, (V'.slots cs)[0]? = some s ∧ isLive s = true ∧ isDot s = true) : v.Wf V' L' := by
  -- The chain of a directory, if it is another one, is the one it had.
  have hold {h' as} (hh : h' ∈ L'.dirs) (hne : h' ≠ h) (hc : V'.Chain h' as) :
      h' ∈ L.dirs ∧ V.Chain h' as ∧ V'.slots as = V.slots as := by
    rw [E.dirs] at hh
    have ⟨as', hc', _⟩ := w.dirs hh
    have ⟨hc'', _, hs⟩ := E.dir_of_ne w hh hne hc'
    cases hc.unique hc''
    exact ⟨hh, hc', hs⟩
  refine ⟨E.length, w.spc_pos, E.valid, E.dirs ▸ w.root, E.root_parent, ?_, ?_, ?_⟩
  · intro h' hh
    by_cases hne : h' = h
    · exact hne ▸ ⟨cs, E.chain, E.chain_owner⟩
    rw [E.dirs] at hh
    have ⟨as, hc, _⟩ := w.dirs hh
    have ⟨hc', ho', _⟩ := E.dir_of_ne w hh hne hc
    exact ⟨as, hc', ho'⟩
  · intro h' as j slot hh hc hj hl hdot
    by_cases hne : h' = h
    · subst hne
      cases hc.unique E.chain
      exact he hj hl hdot
    · have ⟨hh', hc', hs⟩ := hold hh hne hc
      exact E.entryOk (w.entries hh' hc' (hs ▸ hj) hl hdot) (by simp [hne])
  · intro h' as j slot hh hc hj hl hdot
    by_cases hne : h' = h
    · subst hne
      cases hc.unique E.chain
      exact hd hj hl hdot
    · have ⟨hh', hc', hs⟩ := hold hh hne hc
      rw [hs] at hj ⊢
      exact w.dots hh' hc' hj hl hdot

end Edit
end Fat32
