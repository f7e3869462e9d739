import Onyx.Framebuffer.Cursor
import Onyx.Mouse

-- The pointer under the bytes of the mouse.

namespace Framebuffer

open Mouse

-- `handle_irq` moves the cursor by every packet.
def follow (cfg : Config) : List Report → Screen → Option Screen
  | [],      s => some s
  | r :: rs, s => do
    let (_, s) ← moveCursor cfg r.1.toInt r.2.1.toInt s
    follow cfg rs s

structure Steady (cfg : Config) (s : Screen) : Prop extends Shown cfg s where
  accX : 0 ≤ s.accX ∧ s.accX < 8
  accY : 0 ≤ s.accY ∧ s.accY < 8

def Short (v : Int32) : Prop := -256 ≤ v.toInt ∧ v.toInt ≤ 256

theorem short_extend : Short (extend sign byte).toInt32 ∧ Short (-(extend sign byte).toInt32) := by
  have hb := byte.toNat_lt
  rw [Short, Short, (toInt_extend ..).1, (toInt_extend ..).2, delta]
  split <;> omega

theorem short_reports (hd : ∃ sign byte, s.dx = extend sign byte) : ∀ r ∈ (reports s bytes).1, Short r.1 ∧ Short r.2.1 := by
  induction bytes generalizing s with
  | nil => nofun
  | cons byte bytes ih =>
    obtain ⟨sign, b, hd⟩ := hd
    simp only [reports, handleIrq]
    split
    · split <;> exact ih ⟨sign, b, hd⟩
    · exact ih ⟨_, byte, rfl⟩
    · refine List.forall_mem_cons.mpr ⟨⟨?_, short_extend.2⟩, ih ⟨sign, b, hd⟩⟩
      exact hd ▸ short_extend.1
    · exact ih ⟨sign, b, hd⟩

theorem Steady.move (h : Steady cfg s) (hx : -256 ≤ dx ∧ dx ≤ 256) (hy : -256 ≤ dy ∧ dy ≤ 256) :
    ∃ acts s', moveCursor cfg dx dy s = some (acts, s') ∧ Steady cfg s' ∧ s'.lifted cfg = s.lifted cfg := by
  have hm : ∃ acts s', moveCursor cfg dx dy s = some (acts, s') ∧ s'.accX = (s.accX + scaled dx) % 8 ∧
      s'.accY = (s.accY + scaled dy) % 8 := by
    simp only [moveCursor, sensitivity_eq h.accX hx, sensitivity_eq h.accY hy, Option.bind_eq_bind, Option.bind_some]
    split_ifs <;> exact ⟨_, _, rfl, rfl, rfl⟩
  obtain ⟨acts, s', hr, hax, hay⟩ := hm
  have ⟨hs, hl⟩ := move_step h.toShown hr
  exact ⟨acts, s', hr, ⟨hs, by omega, by omega⟩, hl⟩

theorem follow_reports (h : Steady cfg s) (bytes : List UInt8) :
    ∃ s', follow cfg (reports .init bytes).1 s = some s' ∧ Steady cfg s' ∧ s'.lifted cfg = s.lifted cfg := by
  have hshort := @short_reports .init bytes ⟨false, 0, rfl⟩
  generalize (reports .init bytes).1 = rs at hshort
  induction rs generalizing s with
  | nil => exact ⟨s, rfl, h, rfl⟩
  | cons r rs ih =>
    have ⟨hr, hrs⟩ := List.forall_mem_cons.mp hshort
    obtain ⟨acts, s1, hm, h1, hl1⟩ := h.move hr.1 hr.2
    obtain ⟨s', hf, h', hl'⟩ := ih h1 hrs
    exact ⟨s', by simp [follow, hm, hf], h', hl'.trans hl1⟩

def threeMoves : List UInt8 := [0x08, 4, 0, 0x28, 0, 0xF0, 0x18, 0xFF, 5]

theorem follow_tiny :
    (follow tiny (reports .init threeMoves).1 blackScreen).map (fun s => (s.curX, s.curY)) = some (3, 18) ∧
      ∃ s', follow tiny (reports .init threeMoves).1 blackScreen = some s' ∧ Steady tiny s' ∧
        s'.lifted tiny = blackScreen.lifted tiny :=
  ⟨by decide +kernel, follow_reports ⟨shown_blackScreen, by decide, by decide⟩ _⟩

end Framebuffer
