import Onyx.Framebuffer.Screen
import Onyx.Lib.Execution
import Onyx.Lib.Prog

-- Draws grow a dirty box, and the flusher copies what it covers to the device's surface.

namespace Virtio

open Framebuffer (Box)
open Lib

structure Rect where
  x : Nat
  y : Nat
  w : Nat
  h : Nat
  deriving DecidableEq, Repr

structure GpuResource where
  w : Nat
  h : Nat
  deriving DecidableEq, Repr

def GpuResource.stride (res : GpuResource) : Nat := res.w * 4

structure Display where
  res : GpuResource
  backing : Nat → UInt8
  host : Nat → Nat → UInt8
  dirty : Option Box
  generation : Nat
  lastGen : Nat
  taken : Option Rect

-- The device's rectangle for a box, clamped to the resource.
def deviceRect (res : GpuResource) (b : Box) : Result Empty Rect := do
  let x := min b.x0 (res.w - 1)
  let y := min b.y0 (res.h - 1)
  let cols ← checked 64 (b.x1 - x + 1)
  let rows ← checked 64 (b.y1 - y + 1)
  return ⟨x, y, min cols (res.w - x), min rows (res.h - y)⟩

-- The first half of a flush pass, up to the commands.
def takeDamage (s : Display) : Result Empty Display :=
  if s.generation = s.lastGen then
    .ok s
  else match s.dirty with
    | none => .ok { s with lastGen := s.generation }
    | some b => do
      let r ← deviceRect s.res b
      .ok { s with dirty := none, lastGen := s.generation, taken := if r.w = 0 ∨ r.h = 0 then none else some r }

def Rect.Covers (r : Rect) (row k : Nat) : Prop :=
  r.y ≤ row ∧ row < r.y + r.h ∧ r.x * 4 ≤ k ∧ k < (r.x + r.w) * 4

instance : Decidable (Rect.Covers r row k) :=
  inferInstanceAs (Decidable (_ ∧ _))

def transferToHost2dRect (s : Display) (offset : Nat) (r : Rect) : Display :=
  { s with host := fun row k =>
      if r.Covers row k then s.backing (offset + (row - r.y) * s.res.stride + (k - r.x * 4)) else s.host row k }

def pushRect (s : Display) (r : Rect) : Display :=
  { transferToHost2dRect s 0 r with taken := none }

-- A whole pass with nothing drawn in between.
def flushPass (s : Display) : Result Empty Display := do
  let m ← takeDamage s
  match m.taken with
  | some r => .ok (pushRect m r)
  | none => .ok m

def GpuResource.Shows (res : GpuResource) (row k : Nat) : Prop := row < res.h ∧ k < res.stride

inductive Event
  | draw (b : Box) (backing : Nat → UInt8)
  | take
  | present

-- A draw changes nothing of the surface outside the box it marks.
inductive Step : Display → Event → Display → Prop
  | draw :
      (∀ row k, s.res.Shows row k → ¬b.Contains (k / 4) row →
        backing (row * s.res.stride + k) = s.backing (row * s.res.stride + k)) →
      Step s (.draw b backing)
        { s with backing, dirty := some (b.widen s.dirty), generation := (s.generation + 1) % 2 ^ 64 }
  | take : s.taken = none → takeDamage s = .ok t → Step s .take t
  | present : s.taken = some r → Step s .present (pushRect s r)

def Display.Current (s : Display) (row k : Nat) : Prop :=
  s.host row k = s.backing (row * s.res.stride + k)

def Display.Presented (s : Display) : Prop := ∀ row k, s.res.Shows row k → s.Current row k

-- The rectangle shows what the same rectangle in the top left corner of the surface shows.
def Echoes (s : Display) (r : Rect) : Prop :=
  ∀ i < r.h, ∀ k < r.w * 4, s.backing (i * s.res.stride + k) = s.backing ((r.y + i) * s.res.stride + (r.x * 4 + k))

def Faithful (s : Display) : Event → Prop
  | .present => ∀ r ∈ s.taken, Echoes s r
  | _ => True

variable {s t : Display} {a b : Box} {r : Rect} {row k : Nat}

theorem deviceRect_eq_ok (h : deviceRect res b = .ok r) :
    r = ⟨min b.x0 (res.w - 1), min b.y0 (res.h - 1), min (b.x1 - min b.x0 (res.w - 1) + 1) (res.w - min b.x0 (res.w - 1)),
      min (b.y1 - min b.y0 (res.h - 1) + 1) (res.h - min b.y0 (res.h - 1))⟩ := by
  have ⟨cols, hc, h⟩ := Result.bind_eq_ok.mp h
  have ⟨rows, hr, h⟩ := Result.bind_eq_ok.mp h
  rw [(checked_eq_ok.mp hc).1, (checked_eq_ok.mp hr).1] at h
  exact (Except.ok.inj h).symm

theorem deviceRect_covers (h : deviceRect res b = .ok r) (hs : res.Shows row k) (hb : b.Contains (k / 4) row) :
    r.Covers row k := by
  have ⟨hrow, hk⟩ := hs
  have ⟨_, _, _, _⟩ := hb
  rw [GpuResource.stride] at hk
  rw [deviceRect_eq_ok h]
  exact ⟨by dsimp only; omega, by dsimp only; omega, by dsimp only; omega, by dsimp only; omega⟩

theorem deviceRect_inside (h : deviceRect res b = .ok r) : r.x + r.w ≤ res.w ∧ r.y + r.h ≤ res.h := by
  rw [deviceRect_eq_ok h]
  dsimp only
  omega

theorem current_pushRect (h : r.Covers row k) : (pushRect s r).Current row k ↔
      s.backing ((row - r.y) * s.res.stride + (k - r.x * 4)) = s.backing (row * s.res.stride + k) := by
  simp [Display.Current, pushRect, transferToHost2dRect, if_pos h]

theorem current_pushRect_of_not (h : ¬r.Covers row k) : (pushRect s r).Current row k ↔ s.Current row k := by
  simp [Display.Current, pushRect, transferToHost2dRect, if_neg h]

theorem Echoes.current (h : Echoes s r) (hr : r.Covers row k) : (pushRect s r).Current row k := by
  have ⟨hy, hy', hx, hx'⟩ := hr
  have he := h (row - r.y) (by omega) (k - r.x * 4) (by omega)
  rw [Nat.add_sub_cancel' hy, Nat.add_sub_cancel' hx] at he
  exact (current_pushRect hr).mpr he

structure Tracked (s : Display) : Prop where
  missing : ∀ row k, s.res.Shows row k →
    s.Current row k ∨ (∃ b ∈ s.dirty, b.Contains (k / 4) row) ∨ ∃ r ∈ s.taken, r.Covers row k
  inside : ∀ r ∈ s.taken, r.x + r.w ≤ s.res.w ∧ r.y + r.h ≤ s.res.h

namespace Tracked

theorem draw (h : Tracked s) (hd : ∀ row k, s.res.Shows row k → ¬b.Contains (k / 4) row →
      backing (row * s.res.stride + k) = s.backing (row * s.res.stride + k)) :
    Tracked { s with backing, dirty := some (b.widen s.dirty), generation := g } where
  missing := by
    intro row k hs
    by_cases hb : b.Contains (k / 4) row
    · exact .inr (.inl ⟨_, rfl, hb.widen⟩)
    rcases h.missing row k hs with hc | ⟨a, ha, hc⟩ | hr
    · exact .inl (hc.trans (hd row k hs hb).symm)
    · refine .inr (.inl ⟨_, rfl, ?_⟩)
      rw [Option.mem_def.mp ha]
      exact hc.widen_some
    · exact .inr (.inr hr)
  inside := h.inside

theorem take (h : Tracked s) (hn : s.taken = none) (ht : takeDamage s = .ok t) : Tracked t := by
  unfold takeDamage at ht
  split at ht
  case isTrue =>
    cases ht
    exact h
  case isFalse =>
    split at ht
    case h_1 =>
      cases ht
      exact ⟨h.missing, h.inside⟩
    case h_2 b hb =>
      have ⟨r, hr, ht⟩ := Result.bind_eq_ok.mp ht
      cases ht
      refine ⟨fun row k hs => ?_, fun q hq => ?_⟩
      · rcases h.missing row k hs with hc | ⟨a, ha, hc⟩ | ⟨q, hq, _⟩
        · exact .inl hc
        · cases hb.symm.trans ha
          have hcov := deviceRect_covers hr hs hc
          have ⟨_, _, _, _⟩ := hcov
          refine .inr (.inr ⟨r, ?_, hcov⟩)
          dsimp only
          rw [if_neg (by omega)]
          rfl
        · cases hn.symm.trans hq
      · dsimp only at hq
        split at hq
        · cases hq
        · cases hq
          exact deviceRect_inside hr

theorem present (h : Tracked s) (hr : s.taken = some r) (he : Echoes s r) : Tracked (pushRect s r) where
  missing := by
    intro row k hs
    by_cases hc : r.Covers row k
    · exact .inl (he.current hc)
    rcases h.missing row k hs with hcur | hb | ⟨q, hq, hqc⟩
    · exact .inl ((current_pushRect_of_not hc).mpr hcur)
    · exact .inr (.inl hb)
    · cases hr.symm.trans hq
      exact absurd hqc hc
  inside := by simp [pushRect]

theorem step (e : Guarded Step Faithful s event t) (h : Tracked s) : Tracked t := by
  have ⟨hg, e⟩ := e
  cases e with
  | draw hd => exact h.draw hd
  | take hn ht => exact h.take hn ht
  | present hr => exact h.present hr (hg _ hr)

end Tracked

theorem takeDamage_of_dirty (hg : s.generation ≠ s.lastGen) (hb : s.dirty = some b) (hr : deviceRect s.res b = .ok r) :
    takeDamage s = .ok { s with dirty := none, lastGen := s.generation,
                                taken := if r.w = 0 ∨ r.h = 0 then none else some r } := by
  rw [takeDamage, if_neg hg, hb]
  dsimp only
  rw [hr]
  rfl

theorem presented_pushRect_iff (h : Tracked s) (hd : s.dirty = none) (hr : s.taken = some r) :
    (pushRect s r).Presented ↔ Echoes s r := by
  have ⟨hw, hh⟩ := h.inside r hr
  constructor
  · intro hp i hi k hk
    have hc : r.Covers (r.y + i) (r.x * 4 + k) := ⟨by omega, by omega, by omega, by omega⟩
    have hs : s.res.Shows (r.y + i) (r.x * 4 + k) := ⟨by omega, by rw [GpuResource.stride]; omega⟩
    have hcur := (current_pushRect hc).mp (hp _ _ hs)
    rwa [Nat.add_sub_cancel_left, Nat.add_sub_cancel_left] at hcur
  · intro he row k hs
    rcases (h.present hr he).missing row k hs with hc | ⟨_, hb, _⟩ | ⟨_, hr, _⟩
    · exact hc
    · cases hd.symm.trans hb
    · cases hr

theorem not_shows_of_empty (h : deviceRect res b = .ok r) (hz : r.w = 0 ∨ r.h = 0) : ¬res.Shows row k := by
  rw [deviceRect_eq_ok h] at hz
  intro ⟨hrow, hk⟩
  rw [GpuResource.stride] at hk
  dsimp only at hz
  omega

-- The host equals the backing exactly when the rectangle echoes the surface's corner.
theorem presented_iff_echoes (hp : s0.Presented) (h0 : s0.taken = none)
    (e : Execution (Guarded Step Faithful) s0 events s) (hn : s.taken = none) (hg : s.generation ≠ s.lastGen)
    (hb : s.dirty = some b) (hr : deviceRect s.res b = .ok r) (hf : flushPass s = .ok t) :
    t.Presented ↔ Echoes s r := by
  have hs : Tracked s0 := ⟨fun row k h => .inl (hp row k h), by simp [h0]⟩
  have hs := e.invariant (fun e h => Tracked.step e h) hs
  have hm := takeDamage_of_dirty hg hb hr
  have ht := hs.take hn hm
  rw [flushPass, hm, ok_bind] at hf
  by_cases hz : r.w = 0 ∨ r.h = 0
  · rw [if_pos hz] at hf
    cases hf
    refine ⟨fun _ i hi k hk => ?_, fun _ row k hs => absurd hs (not_shows_of_empty hr hz)⟩
    omega
  · rw [if_neg hz] at hf ht
    cases hf
    exact presented_pushRect_iff ht rfl rfl

def solid (w h : Nat) (backing : Nat → UInt8) (dirty : Option Box) (generation : Nat) : Display :=
  { res := ⟨w, h⟩, backing, host := fun _ _ => 0, dirty, generation, lastGen := 0, taken := none }

-- The upper rows of a surface of two by two pixels are white.
def whiteRows (n i : Nat) : UInt8 := if i < n * 8 then 255 else 0

-- The second row is drawn after the first one was presented.
def secondRow : Display :=
  { pushRect { solid 2 2 (whiteRows 1) none 1 with lastGen := 1 } ⟨0, 0, 2, 1⟩ with
    backing := whiteRows 2, dirty := some ⟨0, 1, 1, 1⟩, generation := 2 }

theorem whiteRows_of_ne (hk : k < 8) (h : row ≠ n) : whiteRows (n + 1) (row * 8 + k) = whiteRows n (row * 8 + k) := by
  have hiff : row * 8 + k < (n + 1) * 8 ↔ row * 8 + k < n * 8 := by omega
  simp [whiteRows, hiff]

theorem contains_row (hk : k < 8) : Box.Contains ⟨0, row, 1, row⟩ (k / 4) row :=
  ⟨Nat.zero_le _, by dsimp only; omega, Nat.le_refl _, Nat.le_refl _⟩

theorem echoes_corner (hx : r.x = 0) (hy : r.y = 0) : Echoes s r := by
  intro i _ k _
  rw [hx, hy, Nat.zero_mul, Nat.zero_add, Nat.zero_add]

theorem run_secondRow : Execution (Guarded Step Faithful) (solid 2 2 (whiteRows 0) none 0)
    [.draw ⟨0, 0, 1, 0⟩ (whiteRows 1), .take, .present, .draw ⟨0, 1, 1, 1⟩ (whiteRows 2)] secondRow := by
  refine .step ⟨trivial, .draw fun row k hs hn => whiteRows_of_ne hs.2 ?_⟩ <| .step ⟨trivial, .take rfl rfl⟩ <|
    .step ⟨fun r hr => ?_, .present rfl⟩ <| .step ⟨trivial, .draw fun row k hs hn => whiteRows_of_ne hs.2 ?_⟩ .refl
  · rintro rfl
    exact hn (contains_row hs.2)
  · cases hr
    exact echoes_corner rfl rfl
  · rintro rfl
    exact hn (contains_row hs.2)

theorem presented_secondRow : ∃ t, flushPass secondRow = .ok t ∧ t.Presented := by
  have hp : (solid 2 2 (whiteRows 0) none 0).Presented := fun _ _ _ => by simp [Display.Current, solid, whiteRows]
  refine ⟨_, rfl, (presented_iff_echoes hp rfl run_secondRow rfl (by decide) rfl rfl rfl).mpr fun i hi k hk => ?_⟩
  have hi : i < 1 := hi
  have hk : k < 2 * 4 := hk
  show whiteRows 2 (i * 8 + k) = whiteRows 2 ((1 + i) * 8 + (0 * 4 + k))
  rw [whiteRows, whiteRows, if_pos (by omega), if_pos (by omega)]

-- The second of two pixels: the device is told to read the first one.
theorem second_pixel_not_presented :
    ∃ s0 s t, s0.Presented ∧ Execution Step s0 [.draw ⟨1, 0, 1, 0⟩ fun i => if 4 ≤ i then 1 else 0] s ∧
      s.generation ≠ s.lastGen ∧ flushPass s = .ok t ∧ t.dirty = none ∧ ¬t.Presented := by
  have e : Step (solid 2 1 (fun _ => 0) none 0) (.draw ⟨1, 0, 1, 0⟩ fun i => if 4 ≤ i then 1 else 0)
      (solid 2 1 (fun i => if 4 ≤ i then 1 else 0) (some ⟨1, 0, 1, 0⟩) 1) := by
    refine .draw fun row k ⟨hrow, hk⟩ hn => ?_
    have hrow : row < 1 := hrow
    have hk : k < 2 * 4 := hk
    have hn : ¬(1 ≤ k / 4 ∧ k / 4 ≤ 1 ∧ 0 ≤ row ∧ row ≤ 0) := hn
    show (if 4 ≤ row * (2 * 4) + k then 1 else 0 : UInt8) = 0
    rw [if_neg (by omega)]
  have hp : (solid 2 1 (fun _ => 0) none 0).Presented := fun _ _ _ => rfl
  refine ⟨_, _, _, hp, .step e .refl, by decide, rfl, rfl, fun hp => ?_⟩
  have hp : (0 : UInt8) = 1 := hp 0 4 ⟨by decide, by decide⟩
  exact absurd hp (by decide)

end Virtio
