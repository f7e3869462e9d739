import Onyx.Userspace.Growth

-- A spawn that fails: nobody notices it exactly if it was refused before it took its stack slot.

open Lib

namespace Userspace

variable {elf : Image} {s s' : Space} {argv : List Bytes}

-- The failed attempt makes no difference to the next spawn, and no page or region is left over from it.
structure Unnoticed (next : LoadM Nat) (s s' : Space) : Prop where
  ok : (∃ pid, (next.run s').1 = .ok pid) ↔ ∃ pid, (next.run s).1 = .ok pid
  total : ¬next.Panics s'
  pages : ∀ p, s'.Mapped p → s.Mapped p
  regions : ∀ r ∈ s'.regions, r ∈ s.regions

theorem stack_left_over (ha : elf.Admitted s) (h : (spawnBytes tsc elf argv).run s = (fail e, s')) :
    ∃ p, s'.Mapped p ∧ ¬s.Mapped p := by
  have hnp : ¬(spawnBytes tsc elf argv).Panics s := by
    unfold Prog.Panics
    rw [h]
    exact not_panics_fail
  obtain ⟨htop, hfree⟩ := (not_panics_spawnBytes.mp hnp).stack ha
  rw [spawnBytes_of_stack ha htop hfree] at h
  have hgrows : ∀ {p}, s.withStack.Mapped p → s'.Mapped p := by
    match hload : (loadElf elf).run s.withStack with
    | (.error f, t) =>
      rw [bind_run_error hload] at h
      cases h
      intro p hp
      exact (grows_loadElf.of_run hload).mapped hp
    | (.ok info, t) =>
      rw [bind_run_ok hload] at h
      match hstack : (buildInitialStack tsc (stackTop s.slots) argv info).run t with
      | (.error f, t') =>
        rw [bind_run_error hstack] at h
        cases h
        intro p hp
        exact (grows_buildInitialStack.of_run hstack).mapped ((grows_loadElf.of_run hload).mapped hp)
      | (.ok rsp, t') =>
        rw [bind_run_ok hstack] at h
        cases h
  have hlast := hfree 0 (by decide)
  refine ⟨stackTop s.slots / pageSize - (0 + 1), hgrows ?_, hlast.2⟩
  have h1 := stackTop_ge s.slots
  have h2 := stackTop_mod s.slots
  unfold Space.withStack
  rw [Space.mapped_setPages]
  left
  unfold stackPage userStackPages at *
  rw [pageSize_eq] at *
  omega

theorem failed_spawn_unnoticed_iff (tsc tsc' : UInt64) (a b : Image) (argv argv' : List Bytes) (s s' : Space) (e : String)
    (h : (spawnBytes tsc a argv).run s = (fail e, s')) :
    Unnoticed (spawnBytes tsc' b argv') s s' ↔ ¬a.Admitted s ∧ b.Harmless argv' s := by
  constructor
  · intro hu
    have ha : ¬a.Admitted s := by
      intro ha
      have ⟨p, hleft, hfree⟩ := stack_left_over ha h
      exact hfree (hu.pages p hleft)
    have ⟨f, hrun⟩ := spawnBytes_of_not_admitted ha
    cases (hrun ..).symm.trans h
    exact ⟨ha, not_panics_spawnBytes.mp hu.total⟩
  · intro ⟨ha, hb⟩
    have ⟨f, hrun⟩ := spawnBytes_of_not_admitted ha
    cases (hrun ..).symm.trans h
    exact ⟨Iff.rfl, not_panics_spawnBytes.mpr hb, fun _ => id, fun _ => id⟩

def noElf : Image := ⟨[], by decide⟩

def oneLoaded : Space := ((spawnBytes 0 (linuxImage 0x40) []).run .blank).2

theorem overlapping_spawn_unnoticed :
    (spawnBytes 0 (linuxImage 0x40) []).run oneLoaded = (fail "region overlaps an already-loaded program", oneLoaded) ∧
    ((spawnBytes 0 (linuxImage 0x50) []).run oneLoaded).1 = .ok 2 ∧
    Unnoticed (spawnBytes 0 (linuxImage 0x50) []) oneLoaded oneLoaded := by
  have hcheck : checkRegion (linuxImage 0x40) oneLoaded.regions = fail "region overlaps an already-loaded program" := by
    decide +kernel
  have ha : (spawnBytes 0 (linuxImage 0x40) []).run oneLoaded = (fail "region overlaps an already-loaded program", oneLoaded) := by
    unfold spawnBytes
    rw [read_bind_run, hcheck]
    rfl
  have hb : ((spawnBytes 0 (linuxImage 0x50) []).run oneLoaded).1 = .ok 2 := by
    decide +kernel
  have hnot : ¬(linuxImage 0x40).Admitted oneLoaded := fun h => nomatch (exact_checkRegion.of_good h).symm.trans hcheck
  have hnp : ¬(spawnBytes 0 (linuxImage 0x50) []).Panics oneLoaded := by
    unfold Prog.Panics
    rw [hb]
    nofun
  exact ⟨ha, hb, (failed_spawn_unnoticed_iff 0 0 _ _ [] [] oneLoaded oneLoaded _ ha).mpr ⟨hnot, not_panics_spawnBytes.mp hnp⟩⟩

-- One segment at 4 MiB, but an entry point at zero.
def noEntry : Image where
  bytes := [0x7F, 0x45, 0x4C, 0x46, 2, 1, 1, 0, 0, 0, 0, 0, 0, 0, 0, 0, 2, 0, 0x3E, 0, 1, 0, 0, 0, 0, 0, 0, 0, 0, 0, 0, 0,
    64, 0, 0, 0, 0, 0, 0, 0, 0, 0, 0, 0, 0, 0, 0, 0, 0, 0, 0, 0, 64, 0, 56, 0, 1, 0, 64, 0, 0, 0, 0, 0,
    1, 0, 0, 0, 5, 0, 0, 0, 0, 0, 0, 0, 0, 0, 0, 0, 0, 0, 0x40, 0, 0, 0, 0, 0, 0, 0, 0x40, 0, 0, 0, 0, 0,
    120, 0, 0, 0, 0, 0, 0, 0, 120, 0, 0, 0, 0, 0, 0, 0, 0, 0x10, 0, 0, 0, 0, 0, 0]
  small := by decide

-- The entry point is looked at when the stack is mapped already.
theorem noEntry_leaves_stack : ((spawnBytes 0 noEntry []).run .blank).1 = fail "entry point out of range" ∧
    ¬Unnoticed (spawnBytes 0 noElf []) .blank ((spawnBytes 0 noEntry []).run .blank).2 := by
  have hresult : ((spawnBytes 0 noEntry []).run .blank).1 = fail "entry point out of range" := by
    decide +kernel
  have hstack : ((spawnBytes 0 noEntry []).run .blank).2.Mapped 0x3FFFF := by
    decide +kernel
  exact ⟨hresult, fun hu => nomatch hu.pages 0x3FFFF hstack⟩

end Userspace
