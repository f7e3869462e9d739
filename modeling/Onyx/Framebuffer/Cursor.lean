import Onyx.Framebuffer.Screen

-- Putting the background back gives what the draws alone have left, if none draws under the sprite unknowingly.

open Lib List Option

namespace Framebuffer

variable {cfg : Config} {fb : Surface} {save prev : Nat → UInt8} {x y : Nat}

section addresses

theorem digits_inj {b : Nat} (hk : k < b) (hk' : k' < b) (h : q * b + k = q' * b + k') : q = q' ∧ k = k' := by
  have hmod : (q * b + k) % b = (q' * b + k') % b := by rw [h]
  rw [Nat.mul_add_mod', Nat.mul_add_mod', Nat.mod_eq_of_lt hk, Nat.mod_eq_of_lt hk'] at hmod
  have hq : q * b = q' * b := by omega
  exact ⟨Nat.eq_of_mul_eq_mul_right (by omega) hq, hmod⟩

theorem addr_inj (hx : x < cfg.width) (hx' : x' < cfg.width) (hk : k < cfg.bpp) (hk' : k' < cfg.bpp)
    (h : addr cfg x y + k = addr cfg x' y' + k') : x = x' ∧ y = y' ∧ k = k' := by
  have hwide := cfg.wide
  have ⟨hpixel, hbyte⟩ := digits_inj hk hk' h
  have ⟨hrow, hcol⟩ := digits_inj (by omega) (by omega) hpixel
  exact ⟨hcol, hrow, hbyte⟩

theorem pixel_of_reaches (hx : x < cfg.width) (hx' : x' < cfg.width) (hk : k < cfg.bpp) (hb : b.length ≤ cfg.bpp)
    (hr : Reaches (addr cfg x' y', b) (addr cfg x y + k)) : x' = x ∧ y' = y := by
  obtain ⟨hlow, hhigh⟩ := hr
  dsimp only at hlow hhigh
  have hsum : addr cfg x' y' + (addr cfg x y + k - addr cfg x' y') = addr cfg x y + k := by omega
  have ⟨hcol, hrow, _⟩ := addr_inj hx' hx (by omega) hk hsum
  exact ⟨hcol, hrow⟩

theorem slot_inj (hc : col < spriteW cfg) (hc' : col' < spriteW cfg) (hk : k < 4) (hk' : k' < 4)
    (h : slot cfg row col + k = slot cfg row' col' + k') : row = row' ∧ col = col' ∧ k = k' := by
  have ⟨hpixel, hbyte⟩ := digits_inj hk hk' h
  have ⟨hrow, hcol⟩ := digits_inj hc hc' hpixel
  exact ⟨hrow, hcol, hbyte⟩

theorem held (hx : x < cfg.width) (hy : y < cfg.height) : Held cfg x y := by
  have hwide := cfg.wide
  have hrow : y * cfg.stride + x + 1 ≤ cfg.height * cfg.stride :=
    calc y * cfg.stride + x + 1
      _ ≤ y * cfg.stride + cfg.stride := by omega
      _ = (y + 1) * cfg.stride := (Nat.succ_mul ..).symm
      _ ≤ cfg.height * cfg.stride := Nat.mul_le_mul_right _ hy
  calc addr cfg x y + cfg.bpp
    _ = (y * cfg.stride + x + 1) * cfg.bpp := (Nat.succ_mul ..).symm
    _ ≤ cfg.height * cfg.stride * cfg.bpp := Nat.mul_le_mul_right _ hrow
    _ ≤ cfg.len := cfg.fits

theorem kept_le : kept cfg ≤ cfg.bpp := min_le_left ..

theorem kept_le_four : kept cfg ≤ 4 := min_le_right ..

theorem length_encode_le (rgb : Nat) : (cfg.format.encode rgb).length ≤ kept cfg := by
  have hdeep := cfg.deep
  unfold kept
  generalize cfg.format = f at *
  cases f <;> simp only [PixelFormat.encode, PixelFormat.depth, length_cons, length_nil] at * <;> omega

end addresses

structure Placed (cfg : Config) (x y : Nat) : Prop where
  right : x + spriteW cfg ≤ cfg.width
  below : y + spriteH cfg ≤ cfg.height

-- A byte under the sprite, of those that are saved.
def Under (cfg : Config) (x y a : Nat) : Prop :=
  ∃ row col k, row < spriteH cfg ∧ col < spriteW cfg ∧ k < kept cfg ∧ a = addr cfg (x + col) (y + row) + k

section loops

theorem mem_cells (hp : Placed cfg x y) : (row, col) ∈ cells cfg x y ↔ row < spriteH cfg ∧ col < spriteW cfg := by
  have hright := hp.right
  have hbelow := hp.below
  have hrows : (List.range (spriteH cfg)).takeWhile (fun row => decide (y + row < cfg.height)) = List.range (spriteH cfg) := by
    rw [takeWhile_eq_self_iff]
    intro row hrow
    have := mem_range.mp hrow
    exact decide_eq_true (by omega)
  have hcols : (List.range (spriteW cfg)).takeWhile (fun col => decide (x + col < cfg.width)) = List.range (spriteW cfg) := by
    rw [takeWhile_eq_self_iff]
    intro col hcol
    have := mem_range.mp hcol
    exact decide_eq_true (by omega)
  simp [cells, hrows, hcols]

theorem held_cell (hp : Placed cfg x y) (hr : row < spriteH cfg) (hc : col < spriteW cfg) : Held cfg (x + col) (y + row) := by
  have hright := hp.right
  have hbelow := hp.below
  exact held (by omega) (by omega)

theorem write_putBack (save : Nat → UInt8) (x y : Nat) (l : List (Nat × Nat)) :
    (l.map (putBack cfg save x y)).filterMap Act.write? =
      l.map fun cell => (addr cfg (x + cell.2) (y + cell.1), peek save (slot cfg cell.1 cell.2) (kept cfg)) := by
  rw [filterMap_map]
  exact congrFun filterMap_eq_map l

variable {l : List (Nat × Nat)}

theorem paint_putBack_at (hp : Placed cfg x y) (hl : ∀ cell ∈ l, cell.1 < spriteH cfg ∧ cell.2 < spriteW cfg)
    (hmem : (row, col) ∈ l) (hk : k < kept cfg) :
    paint fb (l.map (putBack cfg save x y)) (addr cfg (x + col) (y + row) + k) = save (slot cfg row col + k) := by
  have hright := hp.right
  have hkept := @kept_le cfg
  have hc : col < spriteW cfg := (hl _ hmem).2
  rw [paint, write_putBack]
  refine patches_of_reaches (fun w hw hr => ?_) ⟨_, mem_map_of_mem hmem, Nat.le_add_right .., ?_⟩
  · obtain ⟨⟨row', col'⟩, hcell, rfl⟩ := mem_map.mp hw
    have hc' : col' < spriteW cfg := (hl _ hcell).2
    have ⟨hx, hy⟩ := pixel_of_reaches (by omega) (by omega) (by omega) (by rw [length_peek]; exact hkept) hr
    obtain rfl : col' = col := by omega
    obtain rfl : row' = row := by omega
    rw [Nat.add_sub_cancel_left, getElem?_peek hk]
  · rw [length_peek]
    dsimp only
    omega

theorem paint_putBack_off (ha : ∀ row col k, (row, col) ∈ l → k < kept cfg → a ≠ addr cfg (x + col) (y + row) + k) :
    paint fb (l.map (putBack cfg save x y)) a = fb a := by
  rw [paint, write_putBack]
  refine patches_of_not_reaches fun w hw hr => ?_
  obtain ⟨⟨row, col⟩, hcell, rfl⟩ := mem_map.mp hw
  obtain ⟨hlow, hhigh⟩ := hr
  rw [length_peek] at hhigh
  exact ha row col (a - addr cfg (x + col) (y + row)) hcell (by dsimp only at hlow hhigh; omega) (by dsimp only at hlow; omega)

theorem paint_restore_at (hp : Placed cfg x y) (hr : row < spriteH cfg) (hc : col < spriteW cfg) (hk : k < kept cfg) :
    paint fb (restore cfg save x y) (addr cfg (x + col) (y + row) + k) = save (slot cfg row col + k) := by
  refine paint_putBack_at hp (fun cell hcell => (mem_cells hp).mp (mem_filter.mp hcell).1) ?_ hk
  exact mem_filter.mpr ⟨(mem_cells hp).mpr ⟨hr, hc⟩, decide_eq_true (held_cell hp hr hc)⟩

theorem paint_restore_off (hp : Placed cfg x y) (ha : ¬Under cfg x y a) : paint fb (restore cfg save x y) a = fb a := by
  refine paint_putBack_off fun row col k hcell hk heq => ha ?_
  have ⟨hr, hc⟩ := (mem_cells hp).mp (mem_filter.mp hcell).1
  exact ⟨row, col, k, hr, hc, hk, heq⟩

theorem patches_slot_at {f : Nat × Nat → Bytes} (hl : ∀ cell ∈ l, cell.2 < spriteW cfg)
    (hf : ∀ cell ∈ l, (f cell).length = kept cfg) (hmem : (row, col) ∈ l) (hk : k < kept cfg) (hv : (f (row, col))[k]? = some v) :
    patches save (l.map fun cell => (slot cfg cell.1 cell.2, f cell)) (slot cfg row col + k) = v := by
  have hfour := @kept_le_four cfg
  refine patches_of_reaches (fun w hw hr => ?_) ⟨_, mem_map_of_mem hmem, Nat.le_add_right .., ?_⟩
  · obtain ⟨⟨row', col'⟩, hcell, rfl⟩ := mem_map.mp hw
    obtain ⟨hlow, hhigh⟩ := hr
    rw [hf _ hcell] at hhigh
    dsimp only at hlow hhigh ⊢
    have hsum : slot cfg row' col' + (slot cfg row col + k - slot cfg row' col') = slot cfg row col + k := by omega
    have ⟨hrow, hcol, hbyte⟩ := slot_inj (hl _ hcell) (hl _ hmem) (by omega) (by omega) hsum
    subst hrow hcol
    rw [Nat.add_sub_cancel_left]
    exact hv
  · rw [hf _ hmem]
    dsimp only
    omega

theorem saveRegion_at (hp : Placed cfg x y) (hr : row < spriteH cfg) (hc : col < spriteW cfg) (hk : k < kept cfg) :
    saveRegion cfg fb x y save (slot cfg row col + k) = fb (addr cfg (x + col) (y + row) + k) := by
  refine patches_slot_at (fun cell hcell => ((mem_cells hp).mp (mem_filter.mp hcell).1).2) (fun _ _ => length_peek) ?_ hk
    (getElem?_peek hk)
  exact mem_filter.mpr ⟨(mem_cells hp).mpr ⟨hr, hc⟩, decide_eq_true (held_cell hp hr hc)⟩

theorem length_captured (hx : fx < cfg.width) (hy : fy < cfg.height) : (captured cfg fb prev ox oy fx fy).length = kept cfg := by
  unfold captured
  split
  · exact length_peek
  · rw [if_pos (held hx hy)]
    exact length_peek

theorem captureSave_at (hp : Placed cfg x y) (hr : row < spriteH cfg) (hc : col < spriteW cfg) (hk : k < kept cfg)
    (hv : (captured cfg fb prev ox oy (x + col) (y + row))[k]? = some v) :
    captureSave cfg fb prev save x y ox oy (slot cfg row col + k) = v := by
  have hright := hp.right
  have hbelow := hp.below
  refine patches_slot_at (fun cell hcell => ((mem_cells hp).mp hcell).2) (fun cell hcell => ?_) ((mem_cells hp).mpr ⟨hr, hc⟩) hk hv
  have ⟨hr', hc'⟩ := (mem_cells hp).mp hcell
  exact length_captured (by omega) (by omega)

theorem mem_span : z ∈ span a b ↔ a ≤ z ∧ z < b := by
  rw [span, mem_range'_1]
  omega

theorem mem_fill : act ∈ fill put xs ys ↔ ∃ y ∈ ys, ∃ x ∈ xs, act ∈ put x y := by
  simp only [fill, mem_flatMap]

theorem mem_setPixel : act ∈ setPixel cfg rgb x y → x < cfg.width ∧ y < cfg.height ∧ act = .write (addr cfg x y) (cfg.format.encode rgb) := by
  unfold setPixel
  split_ifs with hout hlen
  · nofun
  · nofun
  · intro h
    exact ⟨by omega, by omega, mem_singleton.mp h⟩

theorem block_lt (hn : n < m) (hz : z ∈ span (a + n * c) (a + n * c + c)) : ∃ d, d < m * c ∧ z = a + d := by
  have ⟨hlow, hhigh⟩ := mem_span.mp hz
  have hmul : (n + 1) * c ≤ m * c := Nat.mul_le_mul_right c hn
  rw [Nat.succ_mul] at hmul
  exact ⟨z - a, by omega, by omega⟩

theorem mem_drawArrow (h : act ∈ drawArrow cfg x y) : ∃ row col rgb, row < spriteH cfg ∧ col < spriteW cfg ∧ x + col < cfg.width ∧
    act = .write (addr cfg (x + col) (y + row)) (cfg.format.encode rgb) := by
  simp only [drawArrow, mem_flatMap, mem_range] at h
  obtain ⟨row, hrow, col, hcol, h⟩ := h
  split at h
  case h_1 => cases h
  case h_2 rgb _ =>
    obtain ⟨fy, hfy, fx, hfx, hact⟩ := mem_fill.mp h
    obtain ⟨drow, hdrow, rfl⟩ := block_lt hrow hfy
    obtain ⟨dcol, hdcol, rfl⟩ := block_lt hcol hfx
    have ⟨hx, _, heq⟩ := mem_setPixel hact
    exact ⟨drow, dcol, rgb, hdrow, hdcol, hx, heq⟩

theorem paint_of_not_mem (h : ∀ i b, .write i b ∈ acts → ¬Reaches (i, b) a) : paint fb acts a = fb a := by
  refine patches_of_not_reaches fun w hw => ?_
  obtain ⟨act, hact, hwrite⟩ := mem_filterMap.mp hw
  cases act with
  | write i b =>
    cases hwrite
    exact h i b hact
  | mark box => cases hwrite

theorem paint_drawArrow_off (ha : ¬Under cfg x y a) : paint fb (drawArrow cfg x y) a = fb a := by
  refine paint_of_not_mem fun i b hact hr => ha ?_
  obtain ⟨row, col, rgb, hrow, hcol, _, heq⟩ := mem_drawArrow hact
  cases heq
  have hlen : (cfg.format.encode rgb).length ≤ kept cfg := length_encode_le rgb
  obtain ⟨hlow, hhigh⟩ := hr
  dsimp only at hlow hhigh
  exact ⟨row, col, a - addr cfg (x + col) (y + row), hrow, hcol, by omega, by omega⟩

end loops

section steps

-- The screen without the sprite, as the saved background gives it.
def Screen.lifted (cfg : Config) (s : Screen) : Canvas :=
  { s.toCanvas with fb := paint s.fb (restore cfg s.save s.curX s.curY) }

theorem lifted_refresh (hp : Placed cfg s.curX s.curY) : (refreshCursor cfg s).2.lifted cfg = s.toCanvas := by
  refine Canvas.ext (funext fun a => ?_) rfl rfl
  show paint (paint s.fb (drawArrow cfg s.curX s.curY)) (restore cfg (saveRegion cfg s.fb s.curX s.curY s.save) s.curX s.curY) a = s.fb a
  by_cases ha : Under cfg s.curX s.curY a
  · obtain ⟨row, col, k, hr, hc, hk, rfl⟩ := ha
    rw [paint_restore_at hp hr hc hk, saveRegion_at hp hr hc hk]
  · rw [paint_restore_off hp ha, paint_drawArrow_off ha]

theorem under_iff (hp : Placed cfg x y) (hx : fx < cfg.width) (hk : k < kept cfg) :
    Under cfg x y (addr cfg fx fy + k) ↔ x ≤ fx ∧ fx < x + spriteW cfg ∧ y ≤ fy ∧ fy < y + spriteH cfg := by
  have hkept := @kept_le cfg
  have hright := hp.right
  constructor
  · rintro ⟨row, col, k', hr, hc, hk', heq⟩
    have ⟨h1, h2, _⟩ := addr_inj hx (by omega) (by omega) (by omega) heq
    omega
  · rintro ⟨h1, h2, h3, h4⟩
    refine ⟨fy - y, fx - x, k, by omega, by omega, hk, ?_⟩
    rw [Nat.add_sub_cancel' h1, Nat.add_sub_cancel' h3]

theorem lt_of_opaque (h : Opaque cfg nx ny fx fy) : fx < nx + spriteW cfg ∧ fy < ny + spriteH cfg := by
  obtain ⟨hx, hy, hcol, hrow, _⟩ := h
  have hpos := cfg.scaled.1
  have hc := (Nat.div_lt_iff_lt_mul (by omega)).mp hcol
  have hr := (Nat.div_lt_iff_lt_mul (by omega)).mp hrow
  unfold spriteW spriteH
  omega

section move

variable (ho : Placed cfg ox oy) (hn : Placed cfg nx ny)

include ho in
theorem mem_vacated (h : cell ∈ (cells cfg ox oy).filter fun (row, col) =>
    ¬Opaque cfg nx ny (ox + col) (oy + row) ∧ Held cfg (ox + col) (oy + row)) : cell.1 < spriteH cfg ∧ cell.2 < spriteW cfg :=
  (mem_cells ho).mp (mem_filter.mp h).1

include ho in
theorem paint_vacated_off (ha : ¬Under cfg ox oy a) : paint fb (restoreVacated cfg prev ox oy nx ny) a = fb a := by
  refine paint_putBack_off fun row col k hcell hk heq => ha ?_
  have ⟨hr, hc⟩ := mem_vacated ho hcell
  exact ⟨row, col, k, hr, hc, hk, heq⟩

include ho in
theorem paint_vacated_at (hr : row < spriteH cfg) (hc : col < spriteW cfg) (hk : k < kept cfg)
    (hv : ¬Opaque cfg nx ny (ox + col) (oy + row)) :
    paint fb (restoreVacated cfg prev ox oy nx ny) (addr cfg (ox + col) (oy + row) + k) = prev (slot cfg row col + k) := by
  refine paint_putBack_at ho (fun cell hcell => mem_vacated ho hcell) ?_ hk
  exact mem_filter.mpr ⟨(mem_cells ho).mpr ⟨hr, hc⟩, decide_eq_true ⟨hv, held_cell ho hr hc⟩⟩

include ho hn in
theorem captured_eq (hr : row < spriteH cfg) (hc : col < spriteW cfg) (hk : k < kept cfg) :
    (captured cfg (paint fb (restoreVacated cfg prev ox oy nx ny)) prev ox oy (nx + col) (ny + row))[k]? =
      some (paint fb (restore cfg prev ox oy) (addr cfg (nx + col) (ny + row) + k)) := by
  have hright := hn.right
  have hbelow := hn.below
  unfold captured
  by_cases hold : ox ≤ nx + col ∧ nx + col < ox + spriteW cfg ∧ oy ≤ ny + row ∧ ny + row < oy + spriteH cfg
  · obtain ⟨h1, h2, h3, h4⟩ := hold
    have hat : paint fb (restore cfg prev ox oy) (addr cfg (ox + (nx + col - ox)) (oy + (ny + row - oy)) + k) =
        prev (slot cfg (ny + row - oy) (nx + col - ox) + k) := paint_restore_at ho (by omega) (by omega) hk
    rw [Nat.add_sub_cancel' h1, Nat.add_sub_cancel' h3] at hat
    rw [if_pos ⟨h1, h2, h3, h4⟩, getElem?_peek hk, hat]
  · have hoff : ¬Under cfg ox oy (addr cfg (nx + col) (ny + row) + k) := mt (under_iff ho (by omega) hk).mp hold
    rw [if_neg hold, if_pos (held (by omega) (by omega)), getElem?_peek hk, paint_vacated_off ho hoff, paint_restore_off ho hoff]

end move

theorem lifted_moveSprite (ho : Placed cfg s.curX s.curY) (hn : Placed cfg nx ny) :
    (moveSprite cfg s nx ny).2.lifted cfg = s.lifted cfg := by
  refine Canvas.ext (funext fun a => ?_) rfl rfl
  show paint (paint (paint s.fb (restoreVacated cfg s.save s.curX s.curY nx ny)) (drawArrow cfg nx ny)) (restore cfg _ nx ny) a =
    paint s.fb (restore cfg s.save s.curX s.curY) a
  by_cases ha : Under cfg nx ny a
  · obtain ⟨row, col, k, hr, hc, hk, rfl⟩ := ha
    rw [paint_restore_at hn hr hc hk]
    exact captureSave_at hn hr hc hk (captured_eq ho hn hr hc hk)
  rw [paint_restore_off hn ha, paint_drawArrow_off ha]
  by_cases hold : Under cfg s.curX s.curY a
  · obtain ⟨row, col, k, hr, hc, hk, rfl⟩ := hold
    have hright := ho.right
    have hv : ¬Opaque cfg nx ny (s.curX + col) (s.curY + row) := fun hop =>
      have ⟨hx, hy⟩ := lt_of_opaque hop
      ha ((under_iff hn (by omega) hk).mpr ⟨hop.1, hx, hop.2.1, hy⟩)
    rw [paint_vacated_at ho hr hc hk hv, paint_restore_at ho hr hc hk]
  · rw [paint_vacated_off ho hold, paint_restore_off ho hold]

end steps

section runs

def Canvas.painted (c : Canvas) (acts : List Act) : Canvas := { c with fb := paint c.fb acts }

-- What a draw makes of a canvas on which there is no sprite.
def Draw.alone (cfg : Config) (c : Canvas) : Draw → Option Canvas
  | move _ _ => some c
  | console data => do
    let (acts, pen) ← writeBytes cfg c.fb c.console data
    some { c.painted acts with console := pen }
  | writer f _ => some (brushed f c)
  | clock text => some (c.painted (drawClock cfg text))
  | anim i => some (c.painted (drawAnim cfg i))
  | probe => some (c.painted (drawProbe cfg))

structure Shown (cfg : Config) (s : Screen) : Prop where
  placed : Placed cfg s.curX s.curY
  visible : s.visible = true

-- The acts leave the background under the sprite as it is.
def Spares (cfg : Config) (s : Screen) (acts : List Act) : Prop :=
  ∀ a, Under cfg s.curX s.curY a → ((s.lifted cfg).painted acts).fb a = (s.lifted cfg).fb a

def Draw.Clear (cfg : Config) (s : Screen) : Draw → Prop
  | move _ _ => True
  | console _ => True
  | writer f _ => brushed f s.toCanvas = brushed f (s.lifted cfg)
  | clock text => Spares cfg s (drawClock cfg text)
  | anim i => Spares cfg s (drawAnim cfg i)
  | probe => Spares cfg s (drawProbe cfg)

variable {s s' : Screen} {acts : List Act}

theorem lifted_painted_under (hp : Placed cfg s.curX s.curY) (ha : Under cfg s.curX s.curY a) :
    ((s.painted acts).2.lifted cfg).fb a = (s.lifted cfg).fb a := by
  obtain ⟨row, col, k, hr, hc, hk, rfl⟩ := ha
  exact (paint_restore_at hp hr hc hk).trans (paint_restore_at hp hr hc hk).symm

theorem lifted_painted_beside (hp : Placed cfg s.curX s.curY) (ha : ¬Under cfg s.curX s.curY a) :
    ((s.painted acts).2.lifted cfg).fb a = ((s.lifted cfg).painted acts).fb a :=
  (paint_restore_off hp ha).trans (patches_congr (paint_restore_off hp ha).symm)

theorem lifted_painted_iff (hp : Placed cfg s.curX s.curY) :
    (s.painted acts).2.lifted cfg = (s.lifted cfg).painted acts ↔ Spares cfg s acts := by
  constructor
  · intro h a ha
    rw [← h, lifted_painted_under hp ha]
  · intro h
    refine Canvas.ext (funext fun a => ?_) rfl rfl
    by_cases ha : Under cfg s.curX s.curY a
    · rw [lifted_painted_under hp ha, h a ha]
    · exact lifted_painted_beside hp ha

theorem moveCursor_cases (h : moveCursor cfg dx dy s = some (acts, s')) :
    ∃ accX accY, (acts = [] ∧ s' = { s with accX, accY }) ∨
      ∃ nx ny, nx ≤ cfg.width - spriteW cfg ∧ ny ≤ cfg.height - spriteH cfg ∧
        (acts, s') = moveSprite cfg { s with accX, accY } nx ny := by
  unfold moveCursor at h
  obtain ⟨⟨mdx, accX⟩, _, h⟩ := bind_eq_some_iff.mp h
  obtain ⟨⟨mdy, accY⟩, _, h⟩ := bind_eq_some_iff.mp h
  refine ⟨accX, accY, ?_⟩
  dsimp only at h
  split_ifs at h
  · cases h
    exact .inl ⟨rfl, rfl⟩
  · exact .inr ⟨_, _, min_le_right .., min_le_right .., (some.inj h).symm⟩

theorem placed_of_le (hx : nx ≤ cfg.width - spriteW cfg) (hy : ny ≤ cfg.height - spriteH cfg) : Placed cfg nx ny := by
  have hroomW : spriteW cfg ≤ cfg.width := cfg.roomW
  have hroomH : spriteH cfg ≤ cfg.height := cfg.roomH
  exact ⟨by omega, by omega⟩

section

variable (hs : Shown cfg s)
include hs

theorem move_step (hr : moveCursor cfg dx dy s = some (acts, s')) : Shown cfg s' ∧ s'.lifted cfg = s.lifted cfg := by
  obtain ⟨accX, accY, ⟨_, rfl⟩ | ⟨nx, ny, hx, hy, heq⟩⟩ := moveCursor_cases hr
  · exact ⟨⟨hs.placed, hs.visible⟩, rfl⟩
  cases heq
  have hn := placed_of_le hx hy
  exact ⟨⟨hn, rfl⟩, lifted_moveSprite (s := { s with accX, accY }) hs.placed hn⟩

theorem console_step (hr : consoleBytes cfg data s = some (acts, s')) :
    Shown cfg s' ∧ (Draw.console data).alone cfg (s.lifted cfg) = some (s'.lifted cfg) := by
  unfold consoleBytes hideCursor at hr
  simp only [hs.visible, if_true] at hr
  obtain ⟨⟨text, pen⟩, htext, hr⟩ := bind_eq_some_iff.mp hr
  cases hr
  refine ⟨⟨hs.placed, rfl⟩, ?_⟩
  rw [lifted_refresh (by exact hs.placed)]
  have hsame : writeBytes cfg (s.lifted cfg).fb (s.lifted cfg).console data = some (text, pen) := htext
  rw [Draw.alone, hsame]
  rfl

theorem writer_step (hr : withWriter cfg f region s = (acts, s')) :
    Shown cfg s' ∧ s'.lifted cfg = brushed f s.toCanvas := by
  unfold withWriter at hr
  simp only [hs.visible, if_true] at hr
  cases hr
  exact ⟨⟨hs.placed, rfl⟩, lifted_refresh (by exact hs.placed)⟩

theorem painted_step (acts : List Act) : Shown cfg (s.painted acts).2 ∧
      (some ((s.lifted cfg).painted acts) = some ((s.painted acts).2.lifted cfg) ↔ Spares cfg s acts) := by
  refine ⟨⟨hs.placed, hs.visible⟩, ?_⟩
  rw [some.injEq, eq_comm]
  exact lifted_painted_iff hs.placed

theorem Draw.step {d : Draw} (hr : d.run cfg s = some (acts, s')) :
    Shown cfg s' ∧ (d.alone cfg (s.lifted cfg) = some (s'.lifted cfg) ↔ d.Clear cfg s) := by
  cases d with
  | move dx dy =>
    have ⟨hs', hl⟩ := move_step hs hr
    exact ⟨hs', iff_of_true (congrArg some hl.symm) trivial⟩
  | console data =>
    have ⟨hs', hl⟩ := console_step hs hr
    exact ⟨hs', iff_of_true hl trivial⟩
  | writer f region =>
    have ⟨hs', hl⟩ := writer_step hs (some.inj hr)
    refine ⟨hs', ?_⟩
    rw [hl, Draw.alone, some.injEq]
    exact eq_comm
  | clock text =>
    cases hr
    exact painted_step hs _
  | anim i =>
    cases hr
    exact painted_step hs _
  | probe =>
    cases hr
    exact painted_step hs _

end

def Transparent (cfg : Config) : List Draw → Screen → Canvas → Prop
  | [], s, c => s.lifted cfg = c
  | d :: ds, s, c => s.lifted cfg = c ∧
    ∀ acts s', d.run cfg s = some (acts, s') → ∃ c', d.alone cfg c = some c' ∧ Transparent cfg ds s' c'

def AllClear (cfg : Config) : List Draw → Screen → Prop
  | [], _ => True
  | d :: ds, s => d.Clear cfg s ∧ ∀ acts s', d.run cfg s = some (acts, s') → AllClear cfg ds s'

theorem Transparent.lifted (h : Transparent cfg ds s c) : s.lifted cfg = c := by
  cases ds with
  | nil => exact h
  | cons d ds => exact h.1

theorem Draw.clear_of_run_eq_none {d : Draw} (h : d.run cfg s = none) : d.Clear cfg s := by
  cases d with
  | move dx dy => trivial
  | console data => trivial
  | writer f region => cases h
  | clock text => cases h
  | anim i => cases h
  | probe => cases h

-- The background is right throughout exactly if each draw keeps clear of the sprite.
theorem transparent_iff (cfg : Config) (ds : List Draw) (s : Screen) (hs : Shown cfg s) :
    Transparent cfg ds s (s.lifted cfg) ↔ AllClear cfg ds s := by
  induction ds generalizing s with
  | nil => exact iff_of_true rfl trivial
  | cons d ds hi =>
    match hr : d.run cfg s with
    | none =>
      refine iff_of_true ⟨rfl, ?_⟩ ⟨d.clear_of_run_eq_none hr, ?_⟩
      · rw [hr]
        nofun
      · rw [hr]
        nofun
    | some (acts, s') =>
      have ⟨hs', hstep⟩ := Draw.step hs hr
      constructor
      · rintro ⟨_, h⟩
        obtain ⟨c', hc', ht⟩ := h acts s' hr
        rw [← ht.lifted] at hc' ht
        refine ⟨hstep.mp hc', fun acts' s'' hr' => ?_⟩
        cases hr.symm.trans hr'
        exact (hi s' hs').mp ht
      · rintro ⟨hclear, h⟩
        refine ⟨rfl, fun acts' s'' hr' => ?_⟩
        cases hr.symm.trans hr'
        exact ⟨_, hstep.mpr hclear, (hi s' hs').mpr (h acts s' hr)⟩

def letters : Nat → List UInt8
  | 65 => [0x0C, 0x1E, 0x33, 0x33, 0x3F, 0x33, 0x33, 0]
  | 66 => [0x3F, 0x66, 0x66, 0x3E, 0x66, 0x66, 0x3F, 0]
  | _  => []

def tiny : Config where
  width := 20
  height := 80
  stride := 20
  bpp := 3
  len := 4800
  format := .rgb
  scale := 1
  cursorScale := 1
  font := fun c row => (letters c).getD row 0
  wide := by decide
  deep := by decide
  fits := by decide
  readable := by decide
  scaled := by decide
  roomW := by decide
  roomH := by decide

def blackScreen : Screen where
  fb := paint (fun _ => 0) (drawArrow tiny 0 0)
  pen := ⟨0, 0⟩
  console := ⟨0, 56⟩
  curX := 0
  curY := 0
  accX := 0
  accY := 0
  save := fun _ => 0
  visible := true

theorem shown_blackScreen : Shown tiny blackScreen := ⟨⟨by decide, by decide⟩, rfl⟩

theorem transparent_move_console : Transparent tiny [.move 2 3, .console [65, 10, 66]] blackScreen (blackScreen.lifted tiny) :=
  (transparent_iff tiny _ blackScreen shown_blackScreen).mpr ⟨trivial, fun _ _ _ => ⟨trivial, fun _ _ _ => trivial⟩⟩

theorem sprite_left_behind :
    ¬Transparent tiny [.writer (fun _ pen => ([], pen)) none] blackScreen (blackScreen.lifted tiny) ∧
      ¬Transparent tiny [.clock []] blackScreen (blackScreen.lifted tiny) := by
  constructor
  · rintro ⟨_, h⟩
    obtain ⟨c, hc, hl⟩ := h _ _ rfl
    cases hc
    exact absurd (congrArg (fun c => c.fb 0) hl) (by decide +kernel)
  · rintro ⟨_, h⟩
    obtain ⟨c, hc, hl⟩ := h _ _ rfl
    cases hc
    exact absurd (congrArg (fun c => c.fb (8 * 60)) hl) (by decide +kernel)

end runs

end Framebuffer
