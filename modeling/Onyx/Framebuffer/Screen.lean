import Onyx.Lib.Bytes
import Onyx.Lib.Patch

-- The writer, the console and the software cursor (kernel/src/framebuffer.rs), with writes and marks in order.

open Lib List

namespace Framebuffer

inductive PixelFormat
  | rgb
  | bgr
  | u8
  | other          -- a format of the boot loader that the kernel does not know: `set_pixel` draws nothing
  deriving DecidableEq, Repr

-- The bytes that a pixel must at least have.
def PixelFormat.depth : PixelFormat → Nat
  | rgb => 3
  | bgr => 3
  | u8 => 1
  | other => 1

def cursorW : Nat := 16

def cursorH : Nat := 24

-- Rows hold their pixels and pixels their channels; glyphs have eight rows (font8x8).
structure Config where
  width : Nat
  height : Nat
  stride : Nat
  bpp : Nat
  len : Nat
  format : PixelFormat
  scale : Nat
  cursorScale : Nat                -- CUR_SCALE
  font : Nat → Nat → UInt8
  wide : width ≤ stride
  deep : format.depth ≤ bpp
  fits : height * stride * bpp ≤ len
  readable : 1 ≤ scale
  scaled : 1 ≤ cursorScale ∧ cursorScale ≤ 2
  roomW : cursorW * cursorScale ≤ width
  roomH : cursorH * cursorScale ≤ height

abbrev Surface := Nat → UInt8

-- Inclusive pixel bounds.
structure Box where
  x0 : Nat
  y0 : Nat
  x1 : Nat
  y1 : Nat
  deriving DecidableEq, Repr

namespace Box

def Contains (b : Box) (x y : Nat) : Prop := b.x0 ≤ x ∧ x ≤ b.x1 ∧ b.y0 ≤ y ∧ y ≤ b.y1

instance {b : Box} : Decidable (b.Contains x y) := inferInstanceAs (Decidable (_ ∧ _))

-- `mark_dirty_rect` on DIRTY.
def widen (b : Box) : Option Box → Box
  | none => b
  | some a => ⟨min a.x0 b.x0, min a.y0 b.y0, max a.x1 b.x1, max a.y1 b.y1⟩

theorem Contains.widen {b : Box} (h : b.Contains x y) : (b.widen d).Contains x y := by
  obtain ⟨hx0, hx1, hy0, hy1⟩ := h
  cases d with
  | none => exact ⟨hx0, hx1, hy0, hy1⟩
  | some a =>
    simp only [Box.widen, Contains]
    omega

theorem Contains.widen_some {a b : Box} (h : a.Contains x y) : (b.widen (some a)).Contains x y := by
  obtain ⟨hx0, hx1, hy0, hy1⟩ := h
  simp only [Box.widen, Contains]
  omega

end Box

inductive Act
  | write (addr : Nat) (bytes : Bytes)
  | mark (box : Box)
  deriving DecidableEq, Repr

def Act.write? : Act → Option (Nat × Bytes)
  | write addr bytes => some (addr, bytes)
  | mark _ => none

def paint (fb : Surface) (acts : List Act) : Surface := patches fb (acts.filterMap Act.write?)

structure Pen where
  x : Nat
  y : Nat
  deriving DecidableEq, Repr

def channel (rgb shift : Nat) : UInt8 := UInt8.ofNat (rgb / 2 ^ shift)

def luma (r g b : UInt8) : UInt8 := UInt8.ofNat ((r.toNat + g.toNat + b.toNat) / 3)

def PixelFormat.encode (rgb : Nat) : PixelFormat → Bytes
  | .rgb => [channel rgb 16, channel rgb 8, channel rgb 0]
  | .bgr => [channel rgb 0, channel rgb 8, channel rgb 16]
  | .u8 => [luma (channel rgb 16) (channel rgb 8) (channel rgb 0)]
  | .other => []

def slate : Nat := 0x0E1420

def headerBlue : Nat := 0x0B5ED7

def white : Nat := 0xFFFFFF

def headerBarH : Nat := 48

section drawing

variable (cfg : Config)

def addr (x y : Nat) : Nat := (y * cfg.stride + x) * cfg.bpp

-- `FrameBufferWriter::set_pixel`
def setPixel (rgb x y : Nat) : List Act :=
  if cfg.width ≤ x ∨ cfg.height ≤ y then []
  else if cfg.len < addr cfg x y + 3 then []
  else [.write (addr cfg x y) (cfg.format.encode rgb)]

-- `TextConsole::set_pixel`
def setMarked (rgb x y : Nat) : List Act :=
  if cfg.width ≤ x ∨ cfg.height ≤ y then []
  else if cfg.len < addr cfg x y + 3 then []
  else [.mark ⟨x, y, x, y⟩, .write (addr cfg x y) (cfg.format.encode rgb)]

-- The pixels of a rectangle of a list of rows and columns, row by row.
def fill (put : Nat → Nat → List Act) (xs ys : List Nat) : List Act := ys.flatMap fun y => xs.flatMap fun x => put x y

def span (a b : Nat) : List Nat := range' a (b - a)

-- A character; each pixel of the font becomes a block.
def glyph (put : Nat → Nat → List Act) (p : Pen) (c : Nat) : List Act :=
  (range 8).flatMap fun row => (range 8).flatMap fun col =>
    if (cfg.font c row).toNat.testBit col then
      fill put (span (p.x + col * cfg.scale) (p.x + col * cfg.scale + cfg.scale))
        (span (p.y + row * cfg.scale) (p.y + row * cfg.scale + cfg.scale))
    else []

def maxAscii : Nat := 128

end drawing

section console

variable (cfg : Config)

def top : Nat := headerBarH + 8

def glyphW : Nat := 9 * cfg.scale

def rowH : Nat := 10 * cfg.scale

def slateBytes : Bytes :=
  match cfg.format with
  | .rgb => [0x0E, 0x14, 0x20]
  | .bgr => [0x20, 0x14, 0x0E]
  | _ => [UInt8.ofNat ((0x0E + 0x14 + 0x20) / 3), 0, 0]

-- `bottom` is the height of the surface.
def clearRow (y : Nat) : List Act :=
  if cfg.height ≤ y then []
  else .mark ⟨0, y, cfg.width - 1, y⟩ ::
    ((range cfg.width).filter fun x => addr cfg x y + 3 ≤ cfg.len).map fun x =>
      .write (addr cfg x y) ((slateBytes cfg).take cfg.bpp)

-- The rows from `y` on, `n` of them, moved up by `px`.
def moveRows (px : Nat) : Nat → Nat → Surface → List Act
  | 0, _, _ => []
  | n + 1, y, fb =>
    let act := .write (addr cfg 0 (y - px)) (peek fb (addr cfg 0 y) (cfg.stride * cfg.bpp))
    act :: moveRows px n (y + 1) (paint fb [act])

-- A console region of less than no rows ends in a panic.
def scrollUp (fb : Surface) (px : Nat) : Option (List Act) :=
  if px = 0 then some []
  else if cfg.height < top then none
  else
    let band := .mark ⟨0, top, cfg.width - 1, cfg.height - 1⟩
    if cfg.height - top ≤ px then some (band :: (span top cfg.height).flatMap (clearRow cfg))
    else some (band :: moveRows cfg px (cfg.height - (top + px)) (top + px) fb ++
      (span (cfg.height - px) cfg.height).flatMap (clearRow cfg))

def newline (fb : Surface) (p : Pen) : Option (List Act × Pen) :=
  if p.y + rowH cfg < cfg.height then some ([], ⟨0, p.y + rowH cfg⟩)
  else do
    let acts ← scrollUp cfg fb (rowH cfg)
    if cfg.height < rowH cfg then none else some (acts, ⟨0, cfg.height - rowH cfg⟩)

def clearCellAt (x y : Nat) : List Act :=
  fill (setMarked cfg slate) (span x (min (x + glyphW cfg) cfg.width)) (span y (min (y + rowH cfg) cfg.height))

-- The glyph is drawn in the next row if it does not fit into this one.
def writeChar (fb : Surface) (p : Pen) (c : Nat) : Option (List Act × Pen) := do
  let (acts, q) ← if cfg.width < p.x + 8 * cfg.scale then newline cfg fb p else some ([], p)
  some (acts ++ glyph cfg (setMarked cfg white) q c, ⟨q.x + 9 * cfg.scale, q.y⟩)

def backspace (p : Pen) : List Act × Pen :=
  if glyphW cfg ≤ p.x then (clearCellAt cfg (p.x - glyphW cfg) p.y, ⟨p.x - glyphW cfg, p.y⟩) else ([], p)

def writeByte (fb : Surface) (p : Pen) (b : UInt8) : Option (List Act × Pen) :=
  if b = 0x0D then some ([], ⟨0, p.y⟩)
  else if b = 0x0A then newline cfg fb p
  else if b = 0x08 ∨ b = 0x7F then some (backspace cfg p)
  else if 0x20 ≤ b ∧ b < 0x7F then writeChar cfg fb p b.toNat
  else some ([], p)

def writeBytes : Surface → Pen → Bytes → Option (List Act × Pen)
  | _, p, [] => some ([], p)
  | fb, p, b :: bs => do
    let (acts, q) ← writeByte cfg fb p b
    let (rest, r) ← writeBytes (paint fb acts) q bs
    some (acts ++ rest, r)

end console

section cursor

variable (cfg : Config)

-- `X` is the outline, `#` the fill, `o` the shade; the rest is transparent.
def cursorRows : List String :=
  ["X...............", "XX..............", "XoX.............", "XooX............", "Xo##X...........", "Xo###X..........",
   "Xo####X.........", "Xo#####X........", "Xo######X.......", "Xo#######X......", "Xo########X.....", "Xo#########X....",
   "Xo##########X...", "Xo#####XXXXXX...", "Xo#X##X.........", "XoX##X..........", "XoX##X..........", "XX.XX...........",
   "...XX...........", "................", "................", "................", "................", "................"]

def spriteChar (col row : Nat) : Char := ((cursorRows[row]?.getD "").toList[col]?).getD '.'

def cursorColor : Char → Option Nat
  | 'X' => some 0x0A0E1A
  | '#' => some 0xF2F5FF
  | 'o' => some 0x8A93A8
  | _ => none

def spriteW : Nat := cursorW * cfg.cursorScale

def spriteH : Nat := cursorH * cfg.cursorScale

-- SAVE has four bytes for each pixel of the sprite.
def slot (row col : Nat) : Nat := (row * spriteW cfg + col) * 4

-- As many bytes of a pixel as are saved.
def kept : Nat := min cfg.bpp 4

def cells (x y : Nat) : List (Nat × Nat) :=
  ((range (spriteH cfg)).takeWhile fun row => y + row < cfg.height).flatMap fun row =>
    ((range (spriteW cfg)).takeWhile fun col => x + col < cfg.width).map fun col => (row, col)

-- The pixel lies in the buffer.
def Held (x y : Nat) : Prop := addr cfg x y + cfg.bpp ≤ cfg.len

instance : Decidable (Held cfg x y) := Nat.decLe ..

-- `save_region`
def saveRegion (fb : Surface) (x y : Nat) (save : Nat → UInt8) : Nat → UInt8 :=
  patches save (((cells cfg x y).filter fun (row, col) => Held cfg (x + col) (y + row)).map fun (row, col) =>
    (slot cfg row col, peek fb (addr cfg (x + col) (y + row)) (kept cfg)))

def putBack (save : Nat → UInt8) (x y : Nat) (cell : Nat × Nat) : Act :=
  .write (addr cfg (x + cell.2) (y + cell.1)) (peek save (slot cfg cell.1 cell.2) (kept cfg))

-- The writes of `hide_software_cursor_locked`.
def restore (save : Nat → UInt8) (x y : Nat) : List Act :=
  ((cells cfg x y).filter fun (row, col) => Held cfg (x + col) (y + row)).map (putBack cfg save x y)

-- The sprite at (nx, ny) paints the pixel.
def Opaque (nx ny fx fy : Nat) : Prop :=
  nx ≤ fx ∧ ny ≤ fy ∧ (fx - nx) / cfg.cursorScale < cursorW ∧ (fy - ny) / cfg.cursorScale < cursorH ∧
    spriteChar ((fx - nx) / cfg.cursorScale) ((fy - ny) / cfg.cursorScale) ≠ '.'

instance : Decidable (Opaque cfg nx ny fx fy) := inferInstanceAs (Decidable (_ ∧ _))

-- `restore_vacated`
def restoreVacated (prev : Nat → UInt8) (ox oy nx ny : Nat) : List Act :=
  ((cells cfg ox oy).filter fun (row, col) =>
    ¬Opaque cfg nx ny (ox + col) (oy + row) ∧ Held cfg (ox + col) (oy + row)).map (putBack cfg prev ox oy)

-- What `capture_save` takes for a pixel: what was saved of it, or what is on the surface.
def captured (fb : Surface) (prev : Nat → UInt8) (ox oy fx fy : Nat) : Bytes :=
  if ox ≤ fx ∧ fx < ox + spriteW cfg ∧ oy ≤ fy ∧ fy < oy + spriteH cfg then
    peek prev (slot cfg (fy - oy) (fx - ox)) (kept cfg)
  else if Held cfg fx fy then peek fb (addr cfg fx fy) (kept cfg)
  else []

def captureSave (fb : Surface) (prev save : Nat → UInt8) (nx ny ox oy : Nat) : Nat → UInt8 :=
  patches save ((cells cfg nx ny).map fun (row, col) => (slot cfg row col, captured cfg fb prev ox oy (nx + col) (ny + row)))

-- `draw_arrow`
def drawArrow (x y : Nat) : List Act :=
  (range cursorH).flatMap fun row => (range cursorW).flatMap fun col =>
    match cursorColor (spriteChar col row) with
    | none => []
    | some rgb => fill (setPixel cfg rgb)
      (span (x + col * cfg.cursorScale) (x + col * cfg.cursorScale + cfg.cursorScale))
      (span (y + row * cfg.cursorScale) (y + row * cfg.cursorScale + cfg.cursorScale))

end cursor

-- The surface, and where the texts of the writer and of the console go on.
@[ext]
structure Canvas where
  fb : Surface
  pen : Pen
  console : Pen

structure Screen extends Canvas where
  curX : Nat
  curY : Nat
  accX : Int
  accY : Int
  save : Nat → UInt8
  visible : Bool

section entries

variable (cfg : Config)

-- Arithmetic of `i32`; an overflow is a panic.
def i32 (n : Int) : Option Int := if -2 ^ 31 ≤ n ∧ n < 2 ^ 31 then some n else none

def gain (v : Int) : Option Int := do
  let a ← i32 v.natAbs
  some (min (8 + a / 4) 32)

-- One axis of `apply_sensitivity`: the pixels to go, and the eighths that are left over.
def sensitivity (acc v : Int) : Option (Int × Int) := do
  let g ← gain v
  let step ← i32 (v * g)
  let sum ← i32 (acc + step)
  some (sum / 8, sum % 8)

def clampTo (limit : Nat) (n : Int) : Nat := min n.toNat limit

def spriteBox (x y : Nat) : Box := ⟨x, y, x + spriteW cfg - 1, y + spriteH cfg - 1⟩

def markAll : List Act :=
  if cfg.width = 0 ∨ cfg.height = 0 then [] else [.mark ⟨0, 0, cfg.width - 1, cfg.height - 1⟩]

-- `hide_software_cursor_locked`
def hideCursor (s : Screen) : List Act × Screen :=
  if s.visible then
    (restore cfg s.save s.curX s.curY ++ [.mark (spriteBox cfg s.curX s.curY)],
      { s with fb := paint s.fb (restore cfg s.save s.curX s.curY), visible := false })
  else ([], s)

-- `refresh_cursor_save_locked`
def refreshCursor (s : Screen) : List Act × Screen :=
  (drawArrow cfg s.curX s.curY,
    { s with
      save := saveRegion cfg s.fb s.curX s.curY s.save
      fb := paint s.fb (drawArrow cfg s.curX s.curY)
      visible := true })

-- The software part of `move_cursor`, from the old place to the new one.
def moveSprite (s : Screen) (nx ny : Nat) : List Act × Screen :=
  let vacated := restoreVacated cfg s.save s.curX s.curY nx ny
  let fb := paint s.fb vacated
  let box := ⟨min s.curX nx, min s.curY ny, min (max s.curX nx + spriteW cfg - 1) (cfg.width - 1),
    min (max s.curY ny + spriteH cfg - 1) (cfg.height - 1)⟩
  (vacated ++ drawArrow cfg nx ny ++ (if box.x0 ≤ box.x1 ∧ box.y0 ≤ box.y1 then [.mark box] else []),
    { s with
      save := captureSave cfg fb s.save s.save nx ny s.curX s.curY
      fb := paint fb (drawArrow cfg nx ny)
      curX := nx
      curY := ny
      visible := true })

def moveCursor (dx dy : Int) (s : Screen) : Option (List Act × Screen) := do
  let (mdx, accX) ← sensitivity s.accX dx
  let (mdy, accY) ← sensitivity s.accY dy
  let s := { s with accX, accY }
  let nx := clampTo (cfg.width - spriteW cfg) (s.curX + mdx)
  let ny := clampTo (cfg.height - spriteH cfg) (s.curY + mdy)
  if mdx = 0 ∧ mdy = 0 ∨ nx = s.curX ∧ ny = s.curY then some ([], s)
  else some (moveSprite cfg s nx ny)

-- `console_bytes` with the mirror on.
def consoleBytes (data : Bytes) (s : Screen) : Option (List Act × Screen) := do
  let (hide, s1) := hideCursor cfg s
  let (text, pen) ← writeBytes cfg s1.fb s1.console data
  let s2 := { s1 with fb := paint s1.fb text, console := pen }
  if s.visible then
    let (arrow, s3) := refreshCursor cfg s2
    some (hide ++ text ++ arrow, s3)
  else some (hide ++ text, s2)

abbrev Brush := Surface → Pen → List (Nat × Bytes) × Pen

def brushed (f : Brush) (c : Canvas) : Canvas :=
  { c with fb := patches c.fb (f c.fb c.pen).1, pen := (f c.fb c.pen).2 }

def clampBox (b : Box) : Box :=
  ⟨min b.x0 (cfg.width - 1), min b.y0 (cfg.height - 1), min b.x1 (cfg.width - 1), min b.y1 (cfg.height - 1)⟩

-- The damage is announced behind the draw: that of a region, or all.
def markRegion : Option Box → List Act
  | none => markAll cfg
  | some b =>
    let b := clampBox cfg b
    if b.x0 ≤ b.x1 ∧ b.y0 ≤ b.y1 then [.mark b] else []

-- `with_writer_region`; `with_writer` is without a region.
def withWriter (f : Brush) (region : Option Box) (s : Screen) : List Act × Screen :=
  let writes := (f s.fb s.pen).1.map fun w => Act.write w.1 w.2
  let s1 := { s with toCanvas := brushed f s.toCanvas }
  if s.visible then
    let (arrow, s2) := refreshCursor cfg s1
    (writes ++ arrow ++ markRegion cfg region, s2)
  else (writes ++ markRegion cfg region, s1)

def clockX (text : List Char) : Nat := cfg.width - (text.length * 9 * cfg.scale + 16)

-- The characters of the clock; others than ASCII are left out.
def clockText : Nat → List Char → List Act
  | _, [] => []
  | x, c :: cs =>
    if c.toNat < maxAscii then glyph cfg (setPixel cfg white) ⟨x, 14⟩ c.toNat ++ clockText (x + 9 * cfg.scale) cs
    else clockText x cs

-- `draw_clock`
def drawClock (text : List Char) : List Act :=
  let x := clockX cfg text
  fill (setPixel cfg headerBlue) (span (x - 8) (min (x + text.length * 9 * cfg.scale + 8) cfg.width))
    (span 8 (min (14 + 8 * cfg.scale + 6) headerBarH)) ++ clockText cfg x text

-- `draw_probe_marker`
def drawProbe : List Act :=
  let y := cfg.height - 6
  fill (setPixel cfg slate) (span 2 (min 6 cfg.width)) (span y (min (y + 4) cfg.height)) ++ [.mark ⟨2, y, 5, y + 3⟩]

def trackH : Nat := 24

def margin : Nat := 8

-- `draw_anim_frame`
def drawAnim (i : Nat) : List Act :=
  let x0 := margin
  let x1 := cfg.width - (margin + 1)
  let y0 := cfg.height - (trackH + margin)
  let y1 := y0 + trackH - 1
  if x1 ≤ x0 then []
  else
    let boxW := min 24 (x1 - x0)
    let pos := if boxW < x1 - x0 then i % (x1 - x0 - boxW + 1) else 0
    fill (setPixel cfg slate) (span x0 (x1 + 1)) (span y0 (y1 + 1)) ++
      fill (setPixel cfg 0x3B82F6) (span (x0 + pos) (min (x0 + pos + boxW) (x1 + 1))) (span y0 (y1 + 1)) ++
      [.mark ⟨x0, y0, x1, y1⟩]

end entries

inductive Draw
  | move (dx dy : Int)
  | console (data : Bytes)
  | writer (f : Brush) (region : Option Box)
  | clock (text : List Char)
  | anim (i : Nat)
  | probe

def Screen.painted (s : Screen) (acts : List Act) : List Act × Screen := (acts, { s with fb := paint s.fb acts })

def Draw.run (cfg : Config) (s : Screen) : Draw → Option (List Act × Screen)
  | move dx dy => moveCursor cfg dx dy s
  | console data => consoleBytes cfg data s
  | writer f region => some (withWriter cfg f region s)
  | clock text => some (s.painted (drawClock cfg text))
  | anim i => some (s.painted (drawAnim cfg i))
  | probe => some (s.painted (drawProbe cfg))

def applySensitivity (acc v : Int) : Option (Int × Int) := do
  let g ← gain v
  let step ← i32 (v * g)
  let sum ← i32 (acc + step)
  some (((BitVec.ofInt 32 sum).sshiftRight 3).toInt, (BitVec.ofInt 32 sum &&& 7#32).toInt)

theorem i32_eq_some : i32 n = some m ↔ (-2 ^ 31 ≤ n ∧ n < 2 ^ 31) ∧ n = m := by
  simp [i32]

theorem shift_mask (h : i32 n = some m) :
    ((BitVec.ofInt 32 m).sshiftRight 3).toInt = m / 8 ∧ (BitVec.ofInt 32 m &&& 7#32).toInt = m % 8 := by
  obtain ⟨hn, rfl⟩ := i32_eq_some.mp h
  have hint : (BitVec.ofInt 32 n).toInt = n := by
    rw [BitVec.toInt_ofInt]
    exact Int.bmod_eq_of_le (by omega) (by omega)
  have hmask : (BitVec.ofInt 32 n &&& 7#32).toNat = (n % 8).toNat := by
    rw [BitVec.toNat_and, BitVec.toNat_ofInt]
    exact (Nat.and_two_pow_sub_one_eq_mod _ 3).trans (by omega)
  refine ⟨?_, ?_⟩
  · rw [BitVec.toInt_sshiftRight, hint]
    exact Int.shiftRight_eq_div_pow n 3
  · rw [BitVec.toInt_eq_toNat_of_lt (by omega), hmask]
    omega

theorem applySensitivity_eq : applySensitivity acc v = sensitivity acc v := by
  unfold applySensitivity sensitivity
  refine congrArg _ (funext fun g => congrArg _ (funext fun step => ?_))
  cases hsum : i32 (acc + step) with
  | none => rfl
  | some sum => exact congrArg some (Prod.ext (shift_mask hsum).1 (shift_mask hsum).2)

def motion : Int → List Int → Option (List Int × Int)
  | acc, []      => some ([], acc)
  | acc, v :: vs => do
    let (p, acc) ← applySensitivity acc v
    let (ps, acc) ← motion acc vs
    some (p :: ps, acc)

def scaled (v : Int) : Int := v * min (8 + (v.natAbs : Int) / 4) 32

theorem sensitivity_eq (ha : 0 ≤ acc ∧ acc < 8) (hv : -256 ≤ v ∧ v ≤ 256) :
    sensitivity acc v = some ((acc + scaled v) / 8, (acc + scaled v) % 8) := by
  have hg : 8 ≤ min (8 + (v.natAbs : Int) / 4) 32 ∧ min (8 + (v.natAbs : Int) / 4) 32 ≤ 32 := by omega
  have hs : -8192 ≤ scaled v ∧ scaled v ≤ 8192 := by
    unfold scaled
    constructor <;> nlinarith
  have h1 : i32 v.natAbs = some (v.natAbs : Int) := i32_eq_some.mpr ⟨by omega, rfl⟩
  have h2 : i32 (v * min (8 + (v.natAbs : Int) / 4) 32) = some (scaled v) := i32_eq_some.mpr ⟨by unfold scaled at hs; omega, rfl⟩
  have h3 : i32 (acc + scaled v) = some (acc + scaled v) := i32_eq_some.mpr ⟨by omega, rfl⟩
  simp only [sensitivity, gain, h1, h2, h3, Option.bind_eq_bind, Option.bind_some]

theorem motion_eq (ha : 0 ≤ acc ∧ acc < 8) (hv : ∀ v ∈ vs, -256 ≤ v ∧ v ≤ 256) : ∃ ps acc', motion acc vs = some (ps, acc') ∧
    (0 ≤ acc' ∧ acc' < 8) ∧ 8 * ps.sum + acc' = acc + (vs.map scaled).sum := by
  induction vs generalizing acc with
  | nil => exact ⟨[], acc, rfl, ha, by simp⟩
  | cons v vs hi =>
    have hnext : 0 ≤ (acc + scaled v) % 8 ∧ (acc + scaled v) % 8 < 8 := by omega
    obtain ⟨ps, acc', hm, hacc, hsum⟩ := hi hnext fun w hw => hv w (.tail _ hw)
    refine ⟨(acc + scaled v) / 8 :: ps, acc', ?_, hacc, ?_⟩
    · simp [motion, applySensitivity_eq, sensitivity_eq ha (hv v (.head _)), hm]
    · simp only [sum_cons, map_cons]
      omega

-- The pointer goes the scaled sum of the packets, but for the eighths that are kept.
theorem motion_lossless (hv : ∀ v ∈ vs, -256 ≤ v ∧ v ≤ 256) : ∃ ps acc, motion 0 vs = some (ps, acc) ∧ (0 ≤ acc ∧ acc < 8) ∧
    8 * ps.sum + acc = (vs.map fun v => v * min (8 + (v.natAbs : Int) / 4) 32).sum := by
  obtain ⟨ps, acc, hm, hacc, hsum⟩ := motion_eq ⟨Int.le_refl 0, by decide⟩ hv
  exact ⟨ps, acc, hm, hacc, hsum.trans (Int.zero_add _)⟩

theorem motion_lossless_back : ∃ ps acc, motion 0 [-1, 1] = some (ps, acc) ∧ (0 ≤ acc ∧ acc < 8) ∧
    8 * ps.sum + acc = ([-1, 1].map fun v : Int => v * min (8 + (v.natAbs : Int) / 4) 32).sum :=
  motion_lossless (by decide)

end Framebuffer
