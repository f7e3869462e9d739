import Onyx.Userspace.Owners

-- When brk and mmap panic, whatever the cursors of the task are.

open Lib

namespace Userspace

variable {ε : Type} {s : Space}

theorem panics_unaligned (hs : start % pageSize ≠ 0) (h64 : start < 2 ^ 64) (hn : 0 < n) :
    (linuxMapPages start n : UserM ε Unit).Panics s := by
  obtain ⟨m, rfl⟩ := Nat.exists_eq_succ_of_ne_zero (Nat.ne_of_gt hn)
  have hfirst : start + 0 * pageSize = start := by omega
  rw [linuxMapPages, eachPage, List.range_succ_eq_map, List.foldlM_cons, hfirst, checked_of_lt h64]
  exact Prog.panics_bind.mpr (.inl (exact_mapPage.panics.mpr fun h => hs h.1))

theorem not_panics_linuxMapPages (hn : 0 < n) (hend : start + n * pageSize ≤ 2 ^ 47) :
    ¬(linuxMapPages start n : UserM ε Unit).Panics (s.enlist pid) ↔
      start % pageSize = 0 ∧ ∀ p ∈ List.range' (start / pageSize) n, ¬s.Mapped p := by
  by_cases hs : start % pageSize = 0
  · have hmap : (linuxMapPages start n : UserM ε Unit).Panics (s.enlist pid) ↔
        ∃ k, k < n ∧ s.Mapped (start / pageSize + k) := (exact_mapRange hs hend).panics
    simp only [hmap, hs, true_and, not_exists, not_and, List.mem_range'_1]
    constructor
    · rintro h p ⟨h1, h2⟩
      have := h (p - start / pageSize) (by omega)
      rwa [Nat.add_sub_cancel' h1] at this
    · exact fun h k hk => h _ ⟨by omega, by omega⟩
  · refine iff_of_false (not_not_intro (panics_unaligned hs ?_ hn)) fun h => hs h.1
    have : start ≤ start + n * pageSize := Nat.le_add_right ..
    omega

theorem panics_mapAndSet : (mapAndSet pid start n brk mmap v : UserM ε Nat).Panics s ↔
    (linuxMapPages start n : UserM ε Unit).Panics s := by
  refine Prog.panics_bind.trans (or_iff_left ?_)
  rintro ⟨_, s', _, hp⟩
  cases hp

theorem not_panics_linuxBrk : ¬(linuxBrk pid addr : UserM ε Nat).Panics s ↔
    (BrkMoves s pid addr → (s.entry pid).brk % pageSize = 0 ∧ ∀ p ∈ heapPages s pid addr, ¬s.Mapped p) := by
  by_cases hm : BrkMoves s pid addr
  · obtain ⟨n, top, hpos, hend, _, _, hpages, hrun⟩ := hm.run (ε := ε)
    rw [Prog.Panics, hrun, forall_prop_of_true hm]
    refine (not_congr panics_mapAndSet).trans ((not_panics_linuxMapPages hpos hend).trans ?_)
    exact and_congr_right fun ha => by rw [hpages ha]
  · rw [Prog.Panics, (linuxBrk_still hm).1]
    exact iff_of_true not_panics_ok fun h => absurd h hm

theorem not_panics_linuxMmapAnon : ¬(linuxMmapAnon pid len : UserM ε Nat).Panics s ↔
    (len ≠ 0 → len + pageMask < 2 ^ 64 ∧ (s.entry pid).mmap + (len + pageMask) / pageSize * pageSize < 2 ^ 64 ∧
      ((s.entry pid).mmap + (len + pageMask) / pageSize * pageSize ≤ linuxMmapEnd →
        (s.entry pid).mmap % pageSize = 0 ∧ ∀ p ∈ mmapPages s pid len, ¬s.Mapped p)) := by
  by_cases h0 : len = 0
  · rw [linuxMmapAnon, if_pos h0]
    exact iff_of_true (by rintro ⟨⟩) fun h => absurd h0 h
  rw [forall_prop_of_true h0, ← and_assoc, Prog.Panics]
  by_cases hfit : MmapFits s pid len
  case neg =>
    rw [linuxMmapAnon_of_not_fits h0 hfit]
    exact iff_of_false (not_not_intro rfl) fun h => hfit h.1
  rw [linuxMmapAnon_of_fits h0 hfit]
  refine Iff.trans ?_ (and_iff_right hfit).symm
  unfold mmapStop mmapPages
  by_cases hbig : linuxMmapEnd < (s.entry pid).mmap + (len + pageMask) / pageSize * pageSize
  · rw [if_pos hbig]
    exact iff_of_true not_panics_ok fun hle => absurd hle (Nat.not_le.mpr hbig)
  rw [if_neg hbig, if_neg (not_or.mpr ⟨h0, hbig⟩), forall_prop_of_true (Nat.le_of_not_lt hbig)]
  have hpos : 0 < (len + pageMask) / pageSize := by
    rw [pageMask_eq, pageSize_eq]
    omega
  have hend : (s.entry pid).mmap + (len + pageMask) / pageSize * pageSize ≤ 2 ^ 47 := by
    unfold linuxMmapEnd at hbig
    omega
  exact (not_congr panics_mapAndSet).trans (not_panics_linuxMapPages hpos hend)

end Userspace
