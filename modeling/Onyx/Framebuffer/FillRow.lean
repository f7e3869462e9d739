import Onyx.Framebuffer.Screen

-- `FrameBufferWriter::fill_row` against a `set_pixel` for each pixel of the row.

open Lib List

namespace Framebuffer

-- Rows have room for their pixels, pixels for their channels, and the buffer for all rows.
structure Geometry where
  width : Nat
  height : Nat
  stride : Nat
  bpp : Nat
  len : Nat
  format : PixelFormat
  wide : width ≤ stride
  deep : format.depth ≤ bpp
  fits : height * stride * bpp ≤ len

def Config.geometry (cfg : Config) : Geometry := { cfg with }

namespace Geometry

variable (g : Geometry)

def addr (x y : Nat) : Nat := (y * g.stride + x) * g.bpp

def setPixel (rgb x y : Nat) : List (Nat × Bytes) :=
  if g.width ≤ x ∨ g.height ≤ y then []
  else if g.len < g.addr x y + 3 then []
  else [(g.addr x y, g.format.encode rgb)]

def setPixels (y rgb width : Nat) : List (Nat × Bytes) := (range width).flatMap fun x => g.setPixel rgb x y

-- The writes of `fill_row`: one for each chunk of `bpp` bytes from the start of the row on.
def fillRow (y rgb width : Nat) : List (Nat × Bytes) :=
  if g.height ≤ y then []
  else
    let width := min width g.width
    let row := y * g.stride
    if g.len < (row + width) * g.bpp + 3 then []
    else (range width).map fun k => (row * g.bpp + k * g.bpp, g.format.encode rgb)

def Slack (y width : Nat) : Prop := (y * g.stride + min width g.width) * g.bpp + 3 ≤ g.len

-- The pixel already has the colour.
def Shows (fb : Surface) (rgb x y : Nat) : Prop :=
  peek fb (g.addr x y) (g.format.encode rgb).length = g.format.encode rgb

end Geometry

variable {g : Geometry} {fb : Surface}

namespace Geometry

theorem length_encode_le (rgb : Nat) : (g.format.encode rgb).length ≤ g.bpp := by
  refine le_trans ?_ g.deep
  cases g.format <;> simp [PixelFormat.encode, PixelFormat.depth]

-- The pixels of a row do not overlap.
theorem div_of_reaches (h : Reaches (g.addr x y, g.format.encode rgb) a) : a / g.bpp = y * g.stride + x := by
  have hlen := g.length_encode_le rgb
  obtain ⟨hlo, hhi⟩ := h
  refine Nat.div_eq_of_lt_le hlo ?_
  rw [Nat.add_mul, Nat.one_mul]
  exact Nat.lt_of_lt_of_le hhi (Nat.add_le_add_left hlen _)

theorem mem_setPixels : w ∈ g.setPixels y rgb n ↔
    ∃ x, x < min n g.width ∧ y < g.height ∧ g.addr x y + 3 ≤ g.len ∧ w = (g.addr x y, g.format.encode rgb) := by
  simp only [setPixels, mem_flatMap, mem_range, setPixel]
  grind

theorem fillRow_of_slack (hy : y < g.height) (h : g.Slack y n) : g.fillRow y rgb n = g.setPixels y rgb n := by
  have hsplit : range n = range (min n g.width) ++ (range (n - min n g.width)).map (min n g.width + ·) := by
    rw [← range_add, Nat.add_sub_cancel' (Nat.min_le_left ..)]
  have hin : ∀ x ∈ range (min n g.width), g.setPixel rgb x y = [(g.addr x y, g.format.encode rgb)] := by
    intro x hx
    have hx := mem_range.mp hx
    have hle : g.addr x y ≤ (y * g.stride + min n g.width) * g.bpp := Nat.mul_le_mul_right _ (by omega)
    unfold Slack at h
    rw [setPixel, if_neg (by omega), if_neg (by omega)]
  have hout : ((range (n - min n g.width)).map (min n g.width + ·)).flatMap (fun x => g.setPixel rgb x y) = [] := by
    simp only [flatMap_eq_nil_iff, mem_map, mem_range]
    rintro _ ⟨k, hk, rfl⟩
    exact if_pos (.inl (by omega))
  rw [fillRow, if_neg (by omega), if_neg (not_lt.mpr h), setPixels, hsplit, flatMap_append, hout, append_nil,
    flatMap_congr hin, ← map_eq_flatMap]
  exact map_congr_left fun k _ => congrArg (·, _) (add_mul ..).symm

theorem patches_setPixels (hy : y < g.height) : patches fb (g.setPixels y rgb n) = fb ↔
    ∀ x, x < min n g.width → g.addr x y + 3 ≤ g.len → g.Shows fb rgb x y := by
  have hapart : ∀ w ∈ g.setPixels y rgb n, ∀ w' ∈ g.setPixels y rgb n, ∀ a, Reaches w a → Reaches w' a → w = w' := by
    intro w hw w' hw' a hr hr'
    obtain ⟨x, _, _, _, rfl⟩ := mem_setPixels.mp hw
    obtain ⟨x', _, _, _, rfl⟩ := mem_setPixels.mp hw'
    have := (div_of_reaches hr).symm.trans (div_of_reaches hr')
    rw [add_left_cancel this]
  rw [patches_eq_self hapart]
  constructor
  · exact fun h x hx hlen => h _ (mem_setPixels.mpr ⟨x, hx, hy, hlen, rfl⟩)
  · intro h w hw
    obtain ⟨x, hx, _, hlen, rfl⟩ := mem_setPixels.mp hw
    exact h x hx hlen

end Geometry

theorem fillRow_eq_iff (g : Geometry) (fb : Surface) (y rgb width : Nat) :
    patches fb (g.fillRow y rgb width) = patches fb (g.setPixels y rgb width) ↔
      g.height ≤ y ∨ g.Slack y width ∨ ∀ x, x < min width g.width → g.addr x y + 3 ≤ g.len → g.Shows fb rgb x y := by
  by_cases hy : g.height ≤ y
  · have hnone : g.setPixels y rgb width = [] := by
      simp [Geometry.setPixels, Geometry.setPixel, hy]
    rw [Geometry.fillRow, if_pos hy, hnone]
    exact iff_of_true rfl (.inl hy)
  · rw [or_iff_right hy]
    have hy := Nat.lt_of_not_le hy
    by_cases hs : g.Slack y width
    · rw [Geometry.fillRow_of_slack hy hs]
      exact iff_of_true rfl (.inl hs)
    have hnone : g.fillRow y rgb width = [] := by
      rw [Geometry.fillRow, if_neg (by omega)]
      exact if_pos (Nat.lt_of_not_le hs)
    rw [hnone, or_iff_right hs, ← Geometry.patches_setPixels hy]
    exact eq_comm

def onePixel : Geometry where
  width := 1
  height := 1
  stride := 1
  bpp := 4
  len := 4
  format := .rgb
  wide := .refl
  deep := Nat.le_succ 3
  fits := le_refl 4

theorem last_row_not_filled : patches (fun _ => 0) (onePixel.fillRow 0 0xFFFFFF 1) ≠ patches (fun _ => 0) (onePixel.setPixels 0 0xFFFFFF 1) := by
  intro h
  exact absurd (congrFun h 0) (by decide)

end Framebuffer
