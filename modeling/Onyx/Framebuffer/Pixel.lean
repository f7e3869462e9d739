import Onyx.Framebuffer.FillRow

-- `get_pixel` against `set_pixel` of the writer, and `pixel` against `put_pixel` of kernel/src/surface.rs.

open Lib

namespace Framebuffer

def PixelFormat.decode (a b c : UInt8) : PixelFormat → Nat
  | .bgr => c.toNat * 2 ^ 16 + b.toNat * 2 ^ 8 + a.toNat
  | .u8  =>
    let v := min (a.toNat * 3) 255
    v * 2 ^ 16 + v * 2 ^ 8 + v
  | _    => a.toNat * 2 ^ 16 + b.toNat * 2 ^ 8 + c.toNat

namespace Geometry

variable (g : Geometry)

def getPixel (fb : Surface) (x y : Nat) : Option Nat :=
  if g.width ≤ x ∨ g.height ≤ y then none
  else if g.len < g.addr x y + 3 then none
  else some (g.format.decode (fb (g.addr x y)) (fb (g.addr x y + 1)) (fb (g.addr x y + 2)))

-- Writing back what was read changes nothing, and what is read after a write is stable.
structure Stable (fb : Surface) (x y rgb : Nat) : Prop where
  unchanged : ∀ c, g.getPixel fb x y = some c → patches fb (g.setPixel c x y) = fb
  fixed : ∀ c, g.getPixel (patches fb (g.setPixel rgb x y)) x y = some c →
    g.getPixel (patches (patches fb (g.setPixel rgb x y)) (g.setPixel c x y)) x y = some c

def InBounds (x y : Nat) : Prop := x < g.width ∧ y < g.height ∧ g.addr x y + 3 ≤ g.len

end Geometry

variable {g : Geometry} {fb : Surface}

theorem channel_mix (hq : q < 2 ^ 8) (hr : r < 2 ^ 8) : channel (p * 2 ^ 16 + q * 2 ^ 8 + r) 16 = .ofNat p ∧
    channel (p * 2 ^ 16 + q * 2 ^ 8 + r) 8 = .ofNat q ∧ channel (p * 2 ^ 16 + q * 2 ^ 8 + r) 0 = .ofNat r := by
  simp only [channel, ← UInt8.toNat_inj, UInt8.toNat_ofNat']
  omega

theorem luma_grey (v : Nat) : luma (.ofNat v) (.ofNat v) (.ofNat v) = .ofNat v := by
  simp only [luma, ← UInt8.toNat_inj, UInt8.toNat_ofNat']
  omega

def brighter (a : UInt8) : UInt8 := .ofNat (min (a.toNat * 3) 255)

theorem encode_decode (f : PixelFormat) (a b c : UInt8) : f.encode (f.decode a b c) =
    match f with
    | .rgb | .bgr => [a, b, c]
    | .u8 => [brighter a]
    | .other => [] := by
  have ha := a.toNat_lt
  have hb := b.toNat_lt
  have hc := c.toNat_lt
  cases f with
  | rgb => simp only [PixelFormat.encode, PixelFormat.decode, channel_mix hb hc, UInt8.ofNat_toNat]
  | bgr => simp only [PixelFormat.encode, PixelFormat.decode, channel_mix hb ha, UInt8.ofNat_toNat]
  | u8 =>
    have hv : min (a.toNat * 3) 255 < 2 ^ 8 := by omega
    simp only [PixelFormat.encode, PixelFormat.decode, channel_mix hv hv, luma_grey, brighter]
  | other => rfl

theorem brighter_eq_self : brighter a = a ↔ a = 0 ∨ a = 255 := by
  have ha := a.toNat_lt
  simp only [brighter, ← UInt8.toNat_inj, UInt8.toNat_ofNat']
  simp
  omega

theorem decode_brighter : PixelFormat.u8.decode (brighter a) 0 0 = PixelFormat.u8.decode a 0 0 ↔ a = 0 ∨ 85 ≤ a := by
  have ha := a.toNat_lt
  simp only [PixelFormat.decode, brighter, ← UInt8.toNat_inj, UInt8.le_iff_toNat_le, UInt8.toNat_ofNat']
  simp
  omega

namespace Geometry

theorem getPixel_eq_some : g.getPixel fb x y = some c ↔
    g.InBounds x y ∧ g.format.decode (fb (g.addr x y)) (fb (g.addr x y + 1)) (fb (g.addr x y + 2)) = c := by
  unfold getPixel InBounds
  grind

theorem setPixel_of_inBounds (h : g.InBounds x y) : g.setPixel rgb x y = [(g.addr x y, g.format.encode rgb)] := by
  obtain ⟨hx, hy, hlen⟩ := h
  rw [setPixel, if_neg (by omega), if_neg (by omega)]

theorem patches_setPixel (h : g.InBounds x y) : patches fb (g.setPixel rgb x y) = fb ↔ g.Shows fb rgb x y := by
  rw [setPixel_of_inBounds h, patches_eq_self (by simp)]
  simp [Shows]

theorem shows_decode : g.Shows fb (g.format.decode (fb (g.addr x y)) (fb (g.addr x y + 1)) (fb (g.addr x y + 2))) x y ↔
    (g.format = .u8 → fb (g.addr x y) = 0 ∨ fb (g.addr x y) = 255) := by
  rw [Shows, encode_decode]
  cases g.format <;> simp [peek, List.range_succ, brighter_eq_self, @eq_comm _ _ (brighter _)]

theorem unchanged_iff (h : g.InBounds x y) : (∀ c, g.getPixel fb x y = some c → patches fb (g.setPixel c x y) = fb) ↔
    (g.format = .u8 → fb (g.addr x y) = 0 ∨ fb (g.addr x y) = 255) := by
  simp only [getPixel_eq_some, h, true_and, patches_setPixel h, forall_eq', shows_decode]

theorem getPixel_setPixel (h : g.InBounds x y) (hf : g.format = .u8) (he : PixelFormat.u8.encode rgb = [a]) :
    g.getPixel (patches fb (g.setPixel rgb x y)) x y = some (PixelFormat.u8.decode a 0 0) := by
  rw [getPixel_eq_some, setPixel_of_inBounds h, hf, he]
  refine ⟨h, ?_⟩
  simp [PixelFormat.decode, patches, patch]

theorem fixed_iff (h : g.InBounds x y) : (∀ c, g.getPixel (patches fb (g.setPixel rgb x y)) x y = some c →
    g.getPixel (patches (patches fb (g.setPixel rgb x y)) (g.setPixel c x y)) x y = some c) ↔
    (g.format = .u8 → luma (channel rgb 16) (channel rgb 8) (channel rgb 0) = 0 ∨
      85 ≤ luma (channel rgb 16) (channel rgb 8) (channel rgb 0)) := by
  by_cases hf : g.format = .u8
  · have hread : g.getPixel (patches fb (g.setPixel rgb x y)) x y = _ := getPixel_setPixel h hf rfl
    simp only [hread, Option.some_inj, forall_eq', hf, true_implies]
    rw [getPixel_setPixel h hf (encode_decode .u8 _ 0 0), Option.some_inj, decode_brighter]
  · refine iff_of_true (fun c hc => ?_) fun hu => absurd hu hf
    rw [(unchanged_iff h).mpr (fun hu => absurd hu hf) c hc, hc]

theorem stable_iff : g.Stable fb x y rgb ↔ (g.InBounds x y → g.format = .u8 → (fb (g.addr x y) = 0 ∨ fb (g.addr x y) = 255) ∧
    (luma (channel rgb 16) (channel rgb 8) (channel rgb 0) = 0 ∨ 85 ≤ luma (channel rgb 16) (channel rgb 8) (channel rgb 0))) := by
  by_cases h : g.InBounds x y
  · constructor
    · intro hs _ hf
      exact ⟨(unchanged_iff h).mp hs.unchanged hf, (fixed_iff h).mp hs.fixed hf⟩
    · intro hb
      exact ⟨(unchanged_iff h).mpr fun hf => (hb h hf).1, (fixed_iff h).mpr fun hf => (hb h hf).2⟩
  · refine iff_of_true ⟨fun c hc => ?_, fun c hc => ?_⟩ fun hb => absurd hb h
    · exact absurd (getPixel_eq_some.mp hc).1 h
    · exact absurd (getPixel_eq_some.mp hc).1 h

end Geometry

end Framebuffer

namespace Surfaces

inductive Format
  | rgb8888
  | b8g8r8x8

-- A surface of the table; damage is a rectangle with the corner behind it.
structure Surface where
  width : Nat
  height : Nat
  format : Format
  phys : Nat
  damage : Option (Nat × Nat × Nat × Nat)

structure State where
  table : Vector (Option Surface) 8
  physOffset : Option Nat
  mem : Nat → BitVec 32            -- the words of the physical window

-- What `put_pixel` makes of a colour and `pixel` of a word.
def Format.translate (w : BitVec 32) : Format → BitVec 32
  | .rgb8888  => w &&& 0x00FFFFFF
  | .b8g8r8x8 => (w &&& 0xFF) <<< 16 ||| (w &&& 0xFF00) ||| (w >>> 16)

def unionDamage (s : Surface) (x y w h : Nat) : Surface :=
  if w = 0 ∨ h = 0 then s
  else
    let x0 := min x s.width
    let y0 := min y s.height
    let x1 := min (x + w) s.width
    let y1 := min (y + h) s.height
    if x0 ≥ x1 ∨ y0 ≥ y1 then s
    else
      { s with
        damage := match s.damage with
          | none => some (x0, y0, x1, y1)
          | some (ax0, ay0, ax1, ay1) => some (min ax0 x0, min ay0 y0, max ax1 x1, max ay1 y1) }

-- The live surface, and the address of one of its pixels.
def locate (s : State) (id x y : Nat) : Except String (Surface × Nat) :=
  match s.table[id]?.join with
  | none => .error "surface: not live"
  | some surface =>
    if surface.width ≤ x ∨ surface.height ≤ y then .error "surface: pixel out of bounds"
    else match s.physOffset with
      | none => .error "surface: no physical window"
      | some off => .ok (surface, off + surface.phys + 4 * (y * surface.width + x))

def pixel (s : State) (id x y : Nat) : Except String (BitVec 32) := do
  let (surface, a) ← locate s id x y
  return surface.format.translate (s.mem a)

def putPixel (s : State) (id x y : Nat) (rgb : BitVec 32) : Except String State := do
  let (surface, a) ← locate s id x y
  return { s with
    mem := Function.update s.mem a (surface.format.translate rgb)
    table := s.table.setIfInBounds id (some (unionDamage surface x y 1 1)) }

variable {s s' : State} {t : Surface} {id x y a : Nat} {f : Format} {w rgb : BitVec 32}

theorem ofNat_mod (w : BitVec 32) : .ofNat 32 (w.toNat % 2 ^ 24) = w &&& 0x00FFFFFF := by
  apply BitVec.eq_of_toNat_eq
  change w.toNat % 2 ^ 24 % 2 ^ 32 = w.toNat &&& (2 ^ 24 - 1)
  rw [Nat.and_two_pow_sub_one_eq_mod]
  omega

theorem translate_twice (w : BitVec 32) : Format.b8g8r8x8.translate (Format.b8g8r8x8.translate w) =
    (w &&& 0x00FFFFFF) ||| (w >>> 16 &&& 0xFF00) := by
  ext i hi
  interval_cases i <;> simp [Format.translate]

theorem translate_iff : f.translate (f.translate w) = .ofNat 32 (w.toNat % 2 ^ 24) ↔
    (f = .b8g8r8x8 → ∀ k < 8, w.getLsbD (24 + k) → w.getLsbD (8 + k)) := by
  rw [ofNat_mod]
  cases f with
  | rgb8888 => simp [Format.translate, BitVec.and_assoc]
  | b8g8r8x8 =>
    rw [translate_twice, forall_prop_of_true rfl]
    constructor
    · intro h k hk htop
      have hbit := congrArg (BitVec.getLsbD · (8 + k)) h
      clear h
      interval_cases k <;> simp_all
    · intro h
      ext i hi
      have := h (i - 8)
      interval_cases i <;> simp_all

theorem locate_eq_ok : locate s id x y = .ok (t, a) ↔ s.table[id]?.join = some t ∧ (x < t.width ∧ y < t.height) ∧
    ∃ off, s.physOffset = some off ∧ a = off + t.phys + 4 * (y * t.width + x) := by
  unfold locate
  grind

theorem unionDamage_eq : unionDamage t x y m n = { t with damage := (unionDamage t x y m n).damage } := by
  unfold unionDamage
  dsimp only
  split_ifs <;> rfl

theorem pixel_putPixel (hp : putPixel s id x y rgb = .ok s') :
    ∃ t, s.table[id]?.join = some t ∧ pixel s' id x y = .ok (t.format.translate (t.format.translate rgb)) := by
  unfold putPixel at hp
  cases hl : locate s id x y with
  | error e =>
    rw [hl] at hp
    cases hp
  | ok q =>
    rw [hl] at hp
    obtain ⟨ht, hin, hoff⟩ := locate_eq_ok.mp hl
    have hid : id < 8 := by
      by_contra hge
      simp [hge] at ht
    have hl' : locate s' id x y = .ok ({ q.1 with damage := (unionDamage q.1 x y 1 1).damage }, q.2) := by
      cases hp
      refine locate_eq_ok.mpr ⟨?_, hin, hoff⟩
      rw [← unionDamage_eq]
      simp [hid]
    have hmem : s'.mem q.2 = q.1.format.translate rgb := by
      cases hp
      exact Function.update_self ..
    refine ⟨q.1, ht, ?_⟩
    rw [pixel, hl', ← hmem]
    rfl

end Surfaces

namespace Framebuffer

open Surfaces

theorem pixels_stable_iff (g : Geometry) (fb : Surface) (s : State) (id x y : Nat) (rgb : BitVec 32) :
    (g.Stable fb x y rgb.toNat ↔ (g.InBounds x y → g.format = .u8 → (fb (g.addr x y) = 0 ∨ fb (g.addr x y) = 255) ∧
      (luma (channel rgb.toNat 16) (channel rgb.toNat 8) (channel rgb.toNat 0) = 0 ∨
        85 ≤ luma (channel rgb.toNat 16) (channel rgb.toNat 8) (channel rgb.toNat 0)))) ∧
    ∀ s', putPixel s id x y rgb = .ok s' →
      (pixel s' id x y = .ok (.ofNat 32 (rgb.toNat % 2 ^ 24)) ↔ ∀ t, s.table[id]?.join = some t →
        t.format = .b8g8r8x8 → ∀ k < 8, rgb.getLsbD (24 + k) → rgb.getLsbD (8 + k)) := by
  refine ⟨Geometry.stable_iff, fun s' hp => ?_⟩
  obtain ⟨t, ht, hread⟩ := pixel_putPixel hp
  simp only [hread, ht, Except.ok.injEq, translate_iff, Option.some_inj, forall_eq']

def greyPixel : Geometry := { onePixel with format := .u8, deep := .step (.step (.step .refl)) }

theorem grey_drifts : ¬greyPixel.Stable (fun _ => 10) 0 0 0 := by
  intro h
  exact absurd (congrFun (h.unchanged _ rfl) 0) (by decide)

end Framebuffer
