import Onyx.Framebuffer.Cursor

-- A pixel is displayed if a box that `take_dirty_rect` took after its last write has it.

open Lib List

namespace Framebuffer

variable {cfg : Config}

inductive Event
  | act (a : Act)
  | take
  deriving DecidableEq

def Dirty (d : Option Box) (x y : Nat) : Prop := ∃ b, d = some b ∧ b.Contains x y

instance {d : Option Box} : Decidable (Dirty d x y) :=
  match d with
  | none => .isFalse nofun
  | some b => decidable_of_iff (b.Contains x y) ⟨fun h => ⟨b, rfl, h⟩, fun ⟨_, hb, h⟩ => Option.some.inj hb ▸ h⟩

def Touches (cfg : Config) (x y i : Nat) (b : Bytes) : Prop :=
  max i (addr cfg x y) < min (i + b.length) (addr cfg x y + cfg.bpp)

instance : Decidable (Touches cfg x y i b) := Nat.decLt ..

-- `d` is DIRTY, and `ok` says whether a box taken after the pixel's last write had it.
def presented (cfg : Config) (x y : Nat) : Option Box → Bool → List Event → Bool
  | _, ok, [] => ok
  | d, ok, .act (.write i b) :: es => presented cfg x y d (ok && !decide (Touches cfg x y i b)) es
  | d, ok, .act (.mark b) :: es => presented cfg x y (some (b.widen d)) ok es
  | d, ok, .take :: es => presented cfg x y none (ok || decide (Dirty d x y)) es

def Event.act? : Event → Option Act
  | act a => some a
  | take => none

def actsOf (es : List Event) : List Act := es.filterMap Event.act?

def pending : Option Box → List Event → Option Box
  | d, [] => d
  | d, .act (.write _ _) :: es => pending d es
  | d, .act (.mark b) :: es => pending (some (b.widen d)) es
  | _, .take :: es => pending none es

section covered

variable {d : Option Box} {b : Box} {x y : Nat} {es es' : List Event}

theorem dirty_widen (h : Dirty d x y) : Dirty (some (b.widen d)) x y := by
  obtain ⟨a, rfl, hc⟩ := h
  exact ⟨_, rfl, hc.widen_some⟩

theorem dirty_marked (h : b.Contains x y) : Dirty (some (b.widen d)) x y := ⟨_, rfl, h.widen⟩

def MarkedIn (es : List Event) (x y : Nat) : Prop := ∃ b, .act (.mark b) ∈ es ∧ b.Contains x y

-- Each pixel that is written is dirty by then, or a later mark contains it.
def Covered (cfg : Config) (d : Option Box) (es : List Event) : Prop :=
  ∀ before i b after x y, es = before ++ .act (.write i b) :: after → x < cfg.width → y < cfg.height → Touches cfg x y i b →
    Dirty (pending d before) x y ∨ MarkedIn after x y

theorem pending_append : pending d (es ++ es') = pending (pending d es) es' := by
  fun_induction pending d es with
  | case1 d => rfl
  | case2 d i b es hi => exact hi
  | case3 d b es hi => exact hi
  | case4 d es hi => exact hi

theorem MarkedIn.append (h : MarkedIn es x y) : MarkedIn (es ++ es') x y :=
  have ⟨b, hb, hc⟩ := h
  ⟨b, mem_append_left _ hb, hc⟩

theorem MarkedIn.of_cons (h : MarkedIn (e :: es) x y) (he : ∀ b, e = .act (.mark b) → ¬b.Contains x y) : MarkedIn es x y := by
  obtain ⟨b, hb, hc⟩ := h
  cases hb with
  | head => exact absurd hc (he b rfl)
  | tail _ h => exact ⟨b, h, hc⟩

theorem Covered.tail (h : Covered cfg d (e :: es)) : Covered cfg (pending d [e]) es :=
  fun before i b after x y heq => @pending_append d [e] before ▸ h (e :: before) i b after x y (congrArg (e :: ·) heq)

theorem Covered.append (h : Covered cfg d es) (h' : Covered cfg (pending d es) es') : Covered cfg d (es ++ es') := by
  intro before i b after x y heq hx hy ht
  obtain ⟨c, rfl, hc⟩ | ⟨c, rfl, hc⟩ := append_eq_append_iff.mp heq
  · rw [pending_append]
    exact h' c i b after x y hc hx hy ht
  cases c with
  | nil =>
    rw [append_nil] at h'
    exact h' [] i b after x y hc.symm hx hy ht
  | cons e c =>
    obtain ⟨rfl, rfl⟩ := List.cons.inj hc
    exact (h before i b c x y rfl hx hy ht).imp_right .append

variable (hx : x < cfg.width) (hy : y < cfg.height)

include hx hy

theorem presented_of_safe (hc : Covered cfg d es) (h : ok = true ∨ Dirty d x y ∨ MarkedIn es x y) :
    presented cfg x y d ok (es ++ [.take]) = true := by
  induction es generalizing d ok with
  | nil =>
    have hend : ok = true ∨ Dirty d x y := h.imp_right fun h => h.resolve_right nofun
    simpa [presented] using hend
  | cons e es hi =>
    match e with
    | .act (.write i b) =>
      refine hi hc.tail ?_
      by_cases ht : Touches cfg x y i b
      · exact .inr (hc [] i b es x y rfl hx hy ht)
      · rw [decide_eq_false ht, Bool.not_false, Bool.and_true]
        exact h.imp_right fun h => h.imp_right fun h => h.of_cons nofun
    | .act (.mark b) =>
      refine hi hc.tail (h.imp_right fun h => ?_)
      by_cases hb : b.Contains x y
      · exact .inl (dirty_marked hb)
      refine h.imp dirty_widen fun h => h.of_cons fun b' hb' => ?_
      cases hb'
      exact hb
    | .take =>
      refine hi hc.tail ?_
      by_cases hd : Dirty d x y
      · rw [decide_eq_true hd, Bool.or_true]
        exact .inl rfl
      · rw [decide_eq_false hd, Bool.or_false]
        exact h.imp_right fun h => .inr ((h.resolve_left hd).of_cons nofun)

theorem presented_of_written (hc : Covered cfg d es) (hw : ∃ i b, .act (.write i b) ∈ es ∧ Touches cfg x y i b) :
    presented cfg x y d ok (es ++ [.take]) = true := by
  induction es generalizing d ok with
  | nil => exact absurd hw nofun
  | cons e es hi =>
    obtain ⟨i, b, hmem, ht⟩ := hw
    cases hmem with
    | head =>
      have hsafe : presented cfg x y d (ok && !decide (Touches cfg x y i b)) (es ++ [.take]) = true :=
        presented_of_safe hx hy hc.tail (.inr (hc [] i b es x y rfl hx hy ht))
      exact hsafe
    | tail _ h =>
      match e with
      | .act (.write _ _) | .act (.mark _) | .take => exact hi hc.tail ⟨i, b, h, ht⟩

omit hx hy

end covered

section kinds

variable {d : Option Box} {es es' before : List Event} {ws ms : List Act}

theorem mem_actsOf : a ∈ actsOf es ↔ .act a ∈ es := by
  constructor
  · intro h
    obtain ⟨e, he, ha⟩ := mem_filterMap.mp h
    cases e with
    | act a' =>
      cases ha
      exact he
    | take => cases ha
  · exact fun h => mem_filterMap.mpr ⟨.act a, h, rfl⟩

-- A pixel that one of the acts writes lies in a box that they mark.
def Marks (cfg : Config) (ws ms : List Act) : Prop :=
  ∀ i b x y, .write i b ∈ ws → x < cfg.width → y < cfg.height → Touches cfg x y i b → ∃ box, .mark box ∈ ms ∧ box.Contains x y

theorem covered_of_marks_behind (h : actsOf es = ws ++ ms) (hm : Marks cfg ws ms) (hms : ∀ i b, .write i b ∉ ms) : Covered cfg d es := by
  rintro before i b after x y rfl hx hy ht
  have hsplit : actsOf (before ++ .act (.write i b) :: after) = actsOf before ++ .write i b :: actsOf after := filterMap_append ..
  obtain ⟨c, rfl, hc⟩ | ⟨c, _, rfl⟩ := append_eq_append_iff.mp (hsplit.symm.trans h)
  · cases c with
    | nil =>
      have hc : .write i b :: actsOf after = ms := hc
      exact absurd (hc ▸ .head _) (hms i b)
    | cons w c =>
      obtain ⟨rfl, hafter⟩ := List.cons.inj hc
      obtain ⟨box, hbox, hin⟩ := hm i b x y (mem_append_right _ (.head _)) hx hy ht
      exact .inr ⟨box, mem_actsOf.mp (hafter ▸ mem_append_right _ hbox), hin⟩
  · exact absurd (mem_append_right _ (.head _)) (hms i b)

theorem dirty_pending (ht : .take ∉ es) (h : Dirty d x y) : Dirty (pending d es) x y := by
  fun_induction pending d es with
  | case1 d => exact h
  | case2 d i b es hi => exact hi (fun h => ht (.tail _ h)) h
  | case3 d b es hi => exact hi (fun h => ht (.tail _ h)) (dirty_widen h)
  | case4 d es hi => exact absurd (.head _) ht

theorem covered_of_untaken (ht : .take ∉ es)
    (hd : ∀ i b x y, .act (.write i b) ∈ es → x < cfg.width → y < cfg.height → Touches cfg x y i b → Dirty d x y) :
    Covered cfg d es := by
  rintro before i b after x y rfl hx hy h
  exact .inl (dirty_pending (fun h => ht (mem_append_left _ h)) (hd i b x y (mem_append_right _ (.head _)) hx hy h))

-- No take comes between the last mark of a pixel and a write to it.
def Unparted (cfg : Config) (es : List Event) : Prop :=
  ∀ before box mid i b after x y, es = before ++ .act (.mark box) :: (mid ++ .act (.write i b) :: after) →
    box.Contains x y → ¬MarkedIn mid x y → Touches cfg x y i b → .take ∉ mid

theorem MarkedIn.last (h : MarkedIn es x y) :
    ∃ before box mid, es = before ++ .act (.mark box) :: mid ∧ box.Contains x y ∧ ¬MarkedIn mid x y := by
  induction es with
  | nil => exact absurd h nofun
  | cons e es hi =>
    by_cases hlater : MarkedIn es x y
    · obtain ⟨before, box, mid, rfl, hc⟩ := hi hlater
      exact ⟨e :: before, box, mid, rfl, hc⟩
    obtain ⟨box, hmem, hc⟩ := h
    cases hmem with
    | head => exact ⟨[], box, es, rfl, hc, hlater⟩
    | tail _ hmem => exact absurd ⟨box, hmem, hc⟩ hlater

theorem covered_of_unparted (hu : Unparted cfg es)
    (hm : ∀ i b x y, .act (.write i b) ∈ es → x < cfg.width → y < cfg.height → Touches cfg x y i b → MarkedIn es x y) :
    Covered cfg d es := by
  rintro before i b after x y rfl hx hy ht
  obtain ⟨box, hmem, hc⟩ := hm i b x y (mem_append_right _ (.head _)) hx hy ht
  obtain hmem | hmem := mem_append.mp hmem
  · -- The last mark before the write is still pending.
    obtain ⟨before, box, mid, rfl, hc, hlast⟩ := MarkedIn.last ⟨box, hmem, hc⟩
    have hfree := hu before box mid i b after x y (by rw [append_assoc]; rfl) hc hlast ht
    rw [pending_append, pending]
    exact .inl (dirty_pending hfree (dirty_marked hc))
  · exact .inr (MarkedIn.of_cons ⟨box, hmem, hc⟩ nofun)

end kinds

section touches

variable {x y x' y' : Nat} {b : Bytes}

theorem touches_of_reaches (hk : k < cfg.bpp) (h : Reaches (i, b) (addr cfg x y + k)) : Touches cfg x y i b := by
  obtain ⟨hlow, hhigh⟩ := h
  dsimp only at hlow hhigh
  unfold Touches
  omega

theorem reaches_of_touches (h : Touches cfg x y i b) : ∃ k < cfg.bpp, Reaches (i, b) (addr cfg x y + k) := by
  unfold Touches at h
  refine ⟨max i (addr cfg x y) - addr cfg x y, by omega, ?_, ?_⟩ <;> dsimp only <;> omega

theorem pixel_of_touches (hx : x < cfg.width) (hx' : x' < cfg.width) (hb : b.length ≤ cfg.bpp)
    (h : Touches cfg x y (addr cfg x' y') b) : x' = x ∧ y' = y :=
  have ⟨_, hk, hr⟩ := reaches_of_touches h
  pixel_of_reaches hx hx' hk hb hr

theorem row_of_touches (hx : x < cfg.width) (hb : b.length = cfg.stride * cfg.bpp) (h : Touches cfg x y (addr cfg 0 y') b) : y' = y := by
  obtain ⟨k, hk, hlow, hhigh⟩ := reaches_of_touches h
  have hwide := cfg.wide
  dsimp only at hlow hhigh
  rw [hb] at hhigh
  have hin : x * cfg.bpp + k < cfg.stride * cfg.bpp :=
    calc x * cfg.bpp + k
      _ < x * cfg.bpp + cfg.bpp := by omega
      _ = (x + 1) * cfg.bpp := (Nat.succ_mul ..).symm
      _ ≤ cfg.stride * cfg.bpp := Nat.mul_le_mul_right _ (by omega)
  have hrow : ∀ x y, addr cfg x y = y * (cfg.stride * cfg.bpp) + x * cfg.bpp := fun x y => by
    rw [addr, add_mul, mul_assoc]
  rw [hrow, hrow, zero_mul, add_zero] at hlow hhigh
  have hsum : y' * (cfg.stride * cfg.bpp) + (y * (cfg.stride * cfg.bpp) + x * cfg.bpp + k - y' * (cfg.stride * cfg.bpp)) =
      y * (cfg.stride * cfg.bpp) + (x * cfg.bpp + k) := by omega
  exact (digits_inj (by omega) hin hsum).1

end touches

section marks

variable {ws ws' ms ms' acts : List Act} {fb : Surface}

theorem Marks.mono (h : Marks cfg ws ms) (hms : ∀ a ∈ ms, a ∈ ms') : Marks cfg ws ms' :=
  fun i b x y hw hx hy ht =>
    have ⟨box, hbox, hc⟩ := h i b x y hw hx hy ht
    ⟨box, hms _ hbox, hc⟩

theorem Marks.union (h : Marks cfg ws ms) (h' : Marks cfg ws' ms) : Marks cfg (ws ++ ws') ms :=
  fun i b x y hw hx hy ht => (mem_append.mp hw).elim (fun hw => h i b x y hw hx hy ht) (fun hw => h' i b x y hw hx hy ht)

theorem Marks.append (h : Marks cfg ws ws) (h' : Marks cfg ws' ws') : Marks cfg (ws ++ ws') (ws ++ ws') :=
  (h.mono fun _ => mem_append_left _).union (h'.mono fun _ => mem_append_right _)

theorem marks_nil : Marks cfg [] ms := nofun

theorem marks_mark : Marks cfg [.mark box] ms := fun _ _ _ _ hw => nomatch mem_singleton.mp hw

theorem marks_flatMap {l : List α} (h : ∀ a ∈ l, Marks cfg (f a) (f a)) : Marks cfg (l.flatMap f) (l.flatMap f) := by
  intro i b x y hw hx hy ht
  obtain ⟨a, ha, hw⟩ := mem_flatMap.mp hw
  obtain ⟨box, hbox, hc⟩ := h a ha i b x y hw hx hy ht
  exact ⟨box, mem_flatMap.mpr ⟨a, ha, hbox⟩, hc⟩

theorem contains_of_touches {box : Box} (hx : x < cfg.width) (hx' : x' < cfg.width) (hb : b.length ≤ cfg.bpp)
    (h : Touches cfg x y (addr cfg x' y') b) (hc : box.Contains x' y') : box.Contains x y := by
  obtain ⟨rfl, rfl⟩ := pixel_of_touches hx hx' hb h
  exact hc

theorem length_encode_le_bpp (rgb : Nat) : (cfg.format.encode rgb).length ≤ cfg.bpp := (length_encode_le rgb).trans kept_le

theorem marks_setMarked : Marks cfg (setMarked cfg rgb x y) (setMarked cfg rgb x y) := by
  unfold setMarked
  split_ifs with hout hlen
  · exact marks_nil
  · exact marks_nil
  intro i b fx fy hw hx hy ht
  obtain ⟨⟩ | ⟨_, hw⟩ := hw
  cases mem_singleton.mp hw
  refine ⟨⟨x, y, x, y⟩, .head _, ?_⟩
  exact contains_of_touches hx (by omega) (length_encode_le_bpp rgb) ht ⟨le_refl _, le_refl _, le_refl _, le_refl _⟩

theorem marks_fill {put : Nat → Nat → List Act} (h : ∀ x y, Marks cfg (put x y) (put x y)) :
    Marks cfg (fill put xs ys) (fill put xs ys) :=
  marks_flatMap fun _ _ => marks_flatMap fun _ _ => h _ _

theorem marks_glyph {put : Nat → Nat → List Act} (h : ∀ x y, Marks cfg (put x y) (put x y)) :
    Marks cfg (glyph cfg put p c) (glyph cfg put p c) := by
  refine marks_flatMap fun row _ => marks_flatMap fun col _ => ?_
  split
  · exact marks_fill h
  · exact marks_nil

theorem marks_clearRow : Marks cfg (clearRow cfg y) (clearRow cfg y) := by
  unfold clearRow
  split_ifs with hout
  · exact marks_nil
  intro i b fx fy hw hx hy ht
  obtain ⟨⟩ | ⟨_, hw⟩ := hw
  obtain ⟨x, hmem, heq⟩ := mem_map.mp hw
  cases heq
  have hrange := mem_range.mp (mem_filter.mp hmem).1
  refine ⟨⟨0, y, cfg.width - 1, y⟩, .head _, contains_of_touches hx hrange ?_ ht ?_⟩
  · exact length_take_le ..
  · exact ⟨Nat.zero_le _, by dsimp only; omega, Nat.le_refl _, Nat.le_refl _⟩

theorem mem_moveRows (h : .write i b ∈ moveRows cfg px n y fb) :
    ∃ k < n, i = addr cfg 0 (y + k - px) ∧ b.length = cfg.stride * cfg.bpp := by
  induction n generalizing y fb with
  | zero => cases h
  | succ n hi =>
    cases h with
    | head => exact ⟨0, by omega, rfl, length_peek⟩
    | tail _ h =>
      obtain ⟨k, hk, hi, hb⟩ := hi h
      exact ⟨k + 1, by omega, by rw [hi]; congr 2; omega, hb⟩

theorem marks_scrollUp (h : scrollUp cfg fb px = some acts) : Marks cfg acts acts := by
  unfold scrollUp at h
  split_ifs at h with hpx htop hrows
  · cases h
    exact marks_nil
  · cases h
    exact marks_mark.append (marks_flatMap fun _ _ => marks_clearRow)
  cases h
  refine Marks.append ?_ (marks_flatMap fun _ _ => marks_clearRow)
  intro i b x y hw hx hy ht
  obtain ⟨⟩ | ⟨_, hw⟩ := hw
  obtain ⟨k, hk, rfl, hb⟩ := mem_moveRows hw
  have hrow := row_of_touches hx hb ht
  exact ⟨_, .head _, Nat.zero_le _, by dsimp only; omega, by dsimp only; omega, by dsimp only; omega⟩

theorem marks_newline (h : newline cfg fb p = some (acts, q)) : Marks cfg acts acts := by
  unfold newline at h
  by_cases hrow : p.y + rowH cfg < cfg.height
  · rw [if_pos hrow] at h
    cases h
    exact marks_nil
  rw [if_neg hrow] at h
  obtain ⟨acts', hscroll, h⟩ := Option.bind_eq_some_iff.mp h
  split_ifs at h
  cases h
  exact marks_scrollUp hscroll

theorem marks_writeChar (h : writeChar cfg fb p c = some (acts, q)) : Marks cfg acts acts := by
  unfold writeChar at h
  have hglyph : ∀ q, Marks cfg (glyph cfg (setMarked cfg white) q c) (glyph cfg (setMarked cfg white) q c) := fun _ =>
    marks_glyph fun _ _ => marks_setMarked
  by_cases hfit : cfg.width < p.x + 8 * cfg.scale
  · rw [if_pos hfit] at h
    obtain ⟨⟨acts', q'⟩, hline, h⟩ := Option.bind_eq_some_iff.mp h
    cases h
    exact (marks_newline hline).append (hglyph q')
  · rw [if_neg hfit] at h
    cases h
    exact hglyph p

theorem marks_backspace : Marks cfg (backspace cfg p).1 (backspace cfg p).1 := by
  unfold backspace
  split_ifs
  · exact marks_fill fun _ _ => marks_setMarked
  · exact marks_nil

theorem marks_writeByte (h : writeByte cfg fb p c = some (acts, q)) : Marks cfg acts acts := by
  unfold writeByte at h
  split_ifs at h with hcr hlf hbs hchar
  · cases h
    exact marks_nil
  · exact marks_newline h
  · have heq : (backspace cfg p).1 = acts := congrArg Prod.fst (Option.some.inj h)
    exact heq ▸ marks_backspace
  · exact marks_writeChar h
  · cases h
    exact marks_nil

theorem marks_writeBytes (h : writeBytes cfg fb p bs = some (acts, q)) : Marks cfg acts acts := by
  induction bs generalizing fb p acts with
  | nil =>
    cases h
    exact marks_nil
  | cons c bs hi =>
    obtain ⟨⟨acts1, q1⟩, hbyte, h⟩ := Option.bind_eq_some_iff.mp h
    obtain ⟨⟨acts2, q2⟩, hbytes, h⟩ := Option.bind_eq_some_iff.mp h
    cases h
    exact (marks_writeByte hbyte).append (hi hbytes)

theorem lt_of_mem_cells (h : (row, col) ∈ cells cfg x y) : row < spriteH cfg ∧ col < spriteW cfg ∧ x + col < cfg.width := by
  simp only [cells, mem_flatMap, mem_map] at h
  obtain ⟨row', hrow, col', hcol, heq⟩ := h
  cases heq
  have hr := mem_range.mp ((takeWhile_subset _) hrow)
  have hc := mem_range.mp ((takeWhile_subset _) hcol)
  have hx := mem_takeWhile_imp hcol
  exact ⟨hr, hc, of_decide_eq_true hx⟩

def OnSprite (cfg : Config) (x y : Nat) (acts : List Act) : Prop :=
  ∀ i b, .write i b ∈ acts → ∃ row col, row < spriteH cfg ∧ col < spriteW cfg ∧ x + col < cfg.width ∧
    i = addr cfg (x + col) (y + row) ∧ b.length ≤ cfg.bpp

theorem onSprite_putBack {l : List (Nat × Nat)} (hl : ∀ cell ∈ l, cell ∈ cells cfg x y) : OnSprite cfg x y (l.map (putBack cfg save x y)) := by
  intro i b h
  obtain ⟨⟨row, col⟩, hcell, heq⟩ := mem_map.mp h
  cases heq
  have ⟨hr, hc, hx⟩ := lt_of_mem_cells (hl _ hcell)
  exact ⟨row, col, hr, hc, hx, rfl, length_peek.trans_le kept_le⟩

theorem onSprite_restore : OnSprite cfg x y (restore cfg save x y) := onSprite_putBack fun _ h => (mem_filter.mp h).1

theorem onSprite_vacated : OnSprite cfg x y (restoreVacated cfg save x y nx ny) := onSprite_putBack fun _ h => (mem_filter.mp h).1

theorem onSprite_drawArrow : OnSprite cfg x y (drawArrow cfg x y) := by
  intro i b h
  obtain ⟨row, col, rgb, hr, hc, hx, heq⟩ := mem_drawArrow h
  cases heq
  exact ⟨row, col, hr, hc, hx, rfl, length_encode_le_bpp rgb⟩

theorem OnSprite.pixel (h : OnSprite cfg x y acts) (hw : .write i b ∈ acts) (hx : fx < cfg.width) (ht : Touches cfg fx fy i b) :
    x ≤ fx ∧ fx < x + spriteW cfg ∧ y ≤ fy ∧ fy < y + spriteH cfg := by
  obtain ⟨row, col, hr, hcol, hx', rfl, hb⟩ := h i b hw
  obtain ⟨rfl, rfl⟩ := pixel_of_touches hx hx' hb ht
  omega

theorem OnSprite.marks_spriteBox (h : OnSprite cfg x y acts) (hbox : .mark (spriteBox cfg x y) ∈ ms) : Marks cfg acts ms := by
  intro i b fx fy hw hx hy ht
  have ⟨hx0, hx1, hy0, hy1⟩ := h.pixel hw hx ht
  exact ⟨_, hbox, hx0, by dsimp only [spriteBox]; omega, hy0, by dsimp only [spriteBox]; omega⟩

theorem paint_append : paint fb (ws ++ ws') = paint (paint fb ws) ws' := by
  rw [paint, filterMap_append, patches_append]
  rfl

theorem paint_mark : paint fb (ws ++ [.mark box]) = paint fb ws := by
  rw [paint_append]
  rfl

theorem consoleBytes_cases (h : consoleBytes cfg data s = some (acts, s')) : ∃ fb text pen, writeBytes cfg fb s.console data = some (text, pen) ∧
    s'.fb = paint s.fb acts ∧ (acts = text ∨
      acts = restore cfg s.save s.curX s.curY ++ [.mark (spriteBox cfg s.curX s.curY)] ++ text ++ drawArrow cfg s.curX s.curY) := by
  unfold consoleBytes hideCursor at h
  by_cases hv : s.visible = true
  · simp only [hv, if_true] at h
    obtain ⟨⟨text, pen⟩, htext, h⟩ := Option.bind_eq_some_iff.mp h
    cases h
    refine ⟨_, text, pen, htext, ?_, .inr rfl⟩
    rw [paint_append, paint_append, paint_mark]
    rfl
  · simp only [hv] at h
    obtain ⟨⟨text, pen⟩, htext, h⟩ := Option.bind_eq_some_iff.mp h
    cases h
    exact ⟨_, text, pen, htext, rfl, .inl rfl⟩

theorem marks_hide : Marks cfg (restore cfg save x y ++ [.mark (spriteBox cfg x y)]) (restore cfg save x y ++ [.mark (spriteBox cfg x y)]) :=
  (onSprite_restore.marks_spriteBox (mem_append_right _ (.head _))).union marks_mark

theorem marks_consoleBytes (h : consoleBytes cfg data s = some (acts, s')) : Marks cfg acts acts := by
  obtain ⟨fb, text, pen, htext, _, rfl | rfl⟩ := consoleBytes_cases h
  · exact marks_writeBytes htext
  refine Marks.union ((marks_hide.append (marks_writeBytes htext)).mono fun _ => mem_append_left _) ?_
  refine onSprite_drawArrow.marks_spriteBox (mem_append_left _ ?_)
  exact mem_append_left _ (mem_append_right _ (.head _))

theorem marks_all : Marks cfg ws (markAll cfg) := by
  intro i b x y _ hx hy _
  unfold markAll
  rw [if_neg (by omega)]
  exact ⟨_, .head _, Nat.zero_le _, by dsimp only; omega, Nat.zero_le _, by dsimp only; omega⟩

theorem fill_of_touches (h : .write i b ∈ fill (setPixel cfg rgb) xs ys) (hx : x < cfg.width) (ht : Touches cfg x y i b) :
    x ∈ xs ∧ y ∈ ys := by
  obtain ⟨y', hy', x', hx', hact⟩ := mem_fill.mp h
  obtain ⟨hlt, _, heq⟩ := mem_setPixel hact
  cases heq
  obtain ⟨rfl, rfl⟩ := pixel_of_touches hx hlt (length_encode_le_bpp rgb) ht
  exact ⟨hx', hy'⟩

theorem marks_fill_box (hc : ∀ x y, x ∈ xs → y ∈ ys → box.Contains x y) :
    Marks cfg (fill (setPixel cfg rgb) xs ys) [.mark box] :=
  fun _ _ _ _ hw hx _ ht =>
    have ⟨hxs, hys⟩ := fill_of_touches hw hx ht
    ⟨box, .head _, hc _ _ hxs hys⟩

-- All writes come first, and then the marks for them.
def MarkedBehind (cfg : Config) (acts : List Act) : Prop :=
  ∃ ws ms, acts = ws ++ ms ∧ Marks cfg ws ms ∧ ∀ i b, .write i b ∉ ms

theorem not_write_mem_mark : Act.write i b ∉ [Act.mark box] := fun h => nomatch mem_singleton.mp h

theorem not_write_mem_markAll : .write i b ∉ markAll cfg := by
  unfold markAll
  split_ifs
  · nofun
  · exact not_write_mem_mark

theorem markedBehind_moveSprite : MarkedBehind cfg (moveSprite cfg s nx ny).1 := by
  refine ⟨_, _, rfl, fun i b fx fy hw hx hy ht => ?_, fun i b => ?_⟩
  · have hplace : (s.curX ≤ fx ∧ fx < s.curX + spriteW cfg ∧ s.curY ≤ fy ∧ fy < s.curY + spriteH cfg) ∨
        (nx ≤ fx ∧ fx < nx + spriteW cfg ∧ ny ≤ fy ∧ fy < ny + spriteH cfg) :=
      (mem_append.mp hw).imp (onSprite_vacated.pixel · hx ht) (onSprite_drawArrow.pixel · hx ht)
    dsimp only
    rw [if_pos (by omega)]
    refine ⟨_, .head _, ?_⟩
    dsimp only [Box.Contains]
    omega
  · split_ifs
    · exact not_write_mem_mark
    · nofun

theorem markedBehind_moveCursor (h : moveCursor cfg dx dy s = some (acts, s')) : MarkedBehind cfg acts := by
  obtain ⟨accX, accY, ⟨rfl, _⟩ | ⟨nx, ny, _, _, heq⟩⟩ := moveCursor_cases h
  · exact ⟨[], [], rfl, marks_nil, nofun⟩
  · have hacts : acts = (moveSprite cfg { s with accX, accY } nx ny).1 := congrArg Prod.fst heq
    exact hacts ▸ markedBehind_moveSprite

theorem markedBehind_withWriter : MarkedBehind cfg (withWriter cfg f none s).1 := by
  unfold withWriter
  split_ifs
  · exact ⟨_, markAll cfg, rfl, marks_all, fun _ _ => not_write_mem_markAll⟩
  · exact ⟨_, markAll cfg, rfl, marks_all, fun _ _ => not_write_mem_markAll⟩

theorem markedBehind_drawProbe : MarkedBehind cfg (drawProbe cfg) := by
  refine ⟨_, _, rfl, marks_fill_box fun x y hx hy => ?_, fun _ _ => not_write_mem_mark⟩
  have hx := mem_span.mp hx
  have hy := mem_span.mp hy
  dsimp only [Box.Contains]
  omega

theorem markedBehind_drawAnim : MarkedBehind cfg (drawAnim cfg n) := by
  unfold drawAnim
  by_cases hnarrow : cfg.width - (margin + 1) ≤ margin
  · rw [if_pos hnarrow]
    exact ⟨[], [], rfl, marks_nil, nofun⟩
  rw [if_neg hnarrow]
  refine ⟨_, _, rfl, (marks_fill_box fun x y hx hy => ?_).union (marks_fill_box fun x y hx hy => ?_), fun _ _ => not_write_mem_mark⟩
  all_goals
    have hx := mem_span.mp hx
    have hy := mem_span.mp hy
    dsimp only [Box.Contains]
    omega

def ClockArea (cfg : Config) (text : List Char) (x y : Nat) : Prop :=
  clockX cfg text - 8 ≤ x ∧ x < clockX cfg text + text.length * 9 * cfg.scale + 8 ∧ 8 ≤ y ∧ y < 14 + 8 * cfg.scale + 6

theorem glyph_of_touches (h : .write i b ∈ glyph cfg (setPixel cfg rgb) p c) (hx : x < cfg.width) (ht : Touches cfg x y i b) :
    p.x ≤ x ∧ x < p.x + 8 * cfg.scale ∧ p.y ≤ y ∧ y < p.y + 8 * cfg.scale := by
  simp only [glyph, mem_flatMap, mem_range] at h
  obtain ⟨row, hrow, col, hcol, h⟩ := h
  split_ifs at h
  · have ⟨hxs, hys⟩ := fill_of_touches h hx ht
    obtain ⟨dcol, hdcol, rfl⟩ := block_lt hcol hxs
    obtain ⟨drow, hdrow, rfl⟩ := block_lt hrow hys
    omega
  · cases h

theorem clockText_of_touches (h : .write i b ∈ clockText cfg tx text) (hx : x < cfg.width) (ht : Touches cfg x y i b) :
    tx ≤ x ∧ x < tx + text.length * 9 * cfg.scale ∧ 14 ≤ y ∧ y < 14 + 8 * cfg.scale := by
  have hlen : ∀ cs : List Char, (cs.length + 1) * 9 * cfg.scale = cs.length * 9 * cfg.scale + 9 * cfg.scale := fun cs => by
    rw [add_mul, add_mul, one_mul]
  fun_induction clockText cfg tx text with
  | case1 tx => cases h
  | case2 tx c cs hc hi =>
    rw [length_cons, hlen]
    obtain h | h := mem_append.mp h
    · have hglyph := glyph_of_touches h hx ht
      dsimp only at hglyph
      omega
    · have htail := hi h
      omega
  | case3 tx c cs hc hi =>
    rw [length_cons, hlen]
    have htail := hi h
    omega

theorem clockArea_of_touches (h : .write i b ∈ drawClock cfg text) (hx : x < cfg.width) (ht : Touches cfg x y i b) :
    ClockArea cfg text x y := by
  unfold ClockArea
  obtain h | h := mem_append.mp h
  · have ⟨hxs, hys⟩ := fill_of_touches h hx ht
    have hxs := mem_span.mp hxs
    have hys := mem_span.mp hys
    omega
  · have htext := clockText_of_touches h hx ht
    omega

end marks

section runs

variable {s s' : Screen} {acts ms : List Act}

theorem paint_writes : paint fb (ws.map fun w => .write w.1 w.2) = patches fb ws := by
  rw [paint, filterMap_map]
  exact congrArg (patches fb) (filterMap_some ..)

theorem paint_behind (h : ∀ i b, .write i b ∉ ms) : paint fb (acts ++ ms) = paint fb acts := by
  rw [paint_append]
  exact funext fun a => paint_of_not_mem fun i b hmem => absurd hmem (h i b)

theorem not_write_mem_markRegion : .write i b ∉ markRegion cfg region := by
  unfold markRegion
  split
  · exact not_write_mem_markAll
  dsimp only
  split_ifs
  · exact not_write_mem_mark
  · nofun

theorem fb_moveSprite : (moveSprite cfg s nx ny).2.fb = paint s.fb (moveSprite cfg s nx ny).1 := by
  unfold moveSprite
  dsimp only
  rw [paint_behind, paint_append]
  intro i b
  split_ifs
  · exact not_write_mem_mark
  · nofun

theorem fb_withWriter : (withWriter cfg f region s).2.fb = paint s.fb (withWriter cfg f region s).1 := by
  unfold withWriter
  split_ifs
  · rw [paint_behind fun _ _ => not_write_mem_markRegion, paint_append, paint_writes]
    rfl
  · rw [paint_behind fun _ _ => not_write_mem_markRegion, paint_writes]
    rfl

theorem Draw.fb_run {d : Draw} (h : d.run cfg s = some (acts, s')) : s'.fb = paint s.fb acts := by
  cases d with
  | move dx dy =>
    obtain ⟨accX, accY, ⟨rfl, rfl⟩ | ⟨nx, ny, _, _, heq⟩⟩ := moveCursor_cases h
    · rfl
    · obtain ⟨rfl, rfl⟩ := Prod.mk.inj heq
      exact fb_moveSprite
  | console data =>
    obtain ⟨_, _, _, _, hfb, _⟩ := consoleBytes_cases h
    exact hfb
  | writer f region =>
    obtain ⟨rfl, rfl⟩ := Prod.mk.inj (Option.some.inj h)
    exact fb_withWriter
  | clock text =>
    cases h
    rfl
  | anim i =>
    cases h
    rfl
  | probe =>
    cases h
    rfl

-- A draw with the takes of others between its acts, or a take between two draws.
inductive Turn
  | draw (d : Draw) (es : List Event)
  | take

def Turn.events : Turn → List Event
  | draw _ es => es
  | take => [.take]

-- The draws of a run all return, each with the acts that are in its events.
def Played (cfg : Config) : List Turn → Screen → Prop
  | [], _ => True
  | .take :: ts, s => Played cfg ts s
  | .draw d es :: ts, s => ∃ s', d.run cfg s = some (actsOf es, s') ∧ Played cfg ts s'

-- Some draw of the run changes the pixel.
def Changes (cfg : Config) (x y : Nat) : List Turn → Screen → Prop
  | [], _ => False
  | .take :: ts, s => Changes cfg x y ts s
  | .draw d _ :: ts, s => ∃ acts s', d.run cfg s = some (acts, s') ∧
    ((∃ k < cfg.bpp, s'.fb (addr cfg x y + k) ≠ s.fb (addr cfg x y + k)) ∨ Changes cfg x y ts s')

-- Each pixel that the run changes was taken since its last write, when a take has followed.
def Complete (cfg : Config) (ts : List Turn) (s : Screen) (d : Option Box) : Prop :=
  ∀ x y, x < cfg.width → y < cfg.height → Changes cfg x y ts s →
    presented cfg x y d false (ts.flatMap Turn.events ++ [.take]) = true

def Draw.Heeded (cfg : Config) (pending : Option Box) (es : List Event) : Draw → Prop
  | move _ _ => True
  | console _ => Unparted cfg es
  | writer _ r => r = none
  | clock text => .take ∉ es ∧ ∀ x y, x < cfg.width → y < cfg.height → ClockArea cfg text x y → Dirty pending x y
  | anim _ => True
  | probe => True

def AllHeeded (cfg : Config) : List Turn → Option Box → Prop
  | [], _ => True
  | .take :: ts, _ => AllHeeded cfg ts none
  | .draw d es :: ts, p => d.Heeded cfg p es ∧ AllHeeded cfg ts (pending p es)

theorem MarkedBehind.covered (h : MarkedBehind cfg (actsOf es)) : Covered cfg d es :=
  have ⟨_, _, heq, hm, hms⟩ := h
  covered_of_marks_behind heq hm hms

theorem Draw.covered {d : Draw} (hr : d.run cfg s = some (actsOf es, s')) (hh : d.Heeded cfg p es) : Covered cfg p es := by
  cases d with
  | move dx dy => exact (markedBehind_moveCursor hr).covered
  | console data =>
    refine covered_of_unparted hh fun i b x y hw hx hy ht => ?_
    have ⟨box, hbox, hc⟩ := marks_consoleBytes hr i b x y (mem_actsOf.mpr hw) hx hy ht
    exact ⟨box, mem_actsOf.mp hbox, hc⟩
  | writer f region =>
    cases hh
    have hacts : actsOf es = (withWriter cfg f none s).1 := congrArg Prod.fst (Option.some.inj hr).symm
    exact MarkedBehind.covered (hacts ▸ markedBehind_withWriter)
  | clock text =>
    refine covered_of_untaken hh.1 fun i b x y hw hx hy ht => ?_
    have hacts : actsOf es = drawClock cfg text := congrArg Prod.fst (Option.some.inj hr).symm
    exact hh.2 x y hx hy (clockArea_of_touches (hacts ▸ mem_actsOf.mpr hw) hx ht)
  | anim i =>
    have hacts : actsOf es = drawAnim cfg i := congrArg Prod.fst (Option.some.inj hr).symm
    exact MarkedBehind.covered (hacts ▸ markedBehind_drawAnim)
  | probe =>
    have hacts : actsOf es = drawProbe cfg := congrArg Prod.fst (Option.some.inj hr).symm
    exact MarkedBehind.covered (hacts ▸ markedBehind_drawProbe)

theorem covered_run (hp : Played cfg ts s) (hh : AllHeeded cfg ts p) : Covered cfg p (ts.flatMap Turn.events) := by
  induction ts generalizing s p with
  | nil => exact MarkedBehind.covered ⟨[], [], rfl, marks_nil, nofun⟩
  | cons t ts hi =>
    cases t with
    | draw d es =>
      obtain ⟨s', hr, hp⟩ := hp
      exact (d.covered hr hh.1).append (hi hp hh.2)
    | take =>
      have hnone : Covered cfg p [.take] := MarkedBehind.covered ⟨[], [], rfl, marks_nil, nofun⟩
      exact hnone.append (hi hp hh)

theorem written_of_changes (hp : Played cfg ts s) (h : Changes cfg x y ts s) :
    ∃ i b, .act (.write i b) ∈ ts.flatMap Turn.events ∧ Touches cfg x y i b := by
  induction ts generalizing s with
  | nil => cases h
  | cons t ts hi =>
    cases t with
    | draw d es =>
      obtain ⟨s', hr, hp⟩ := hp
      obtain ⟨acts, s'', hr', h⟩ := h
      cases hr.symm.trans hr'
      obtain ⟨k, hk, hne⟩ | h := h
      · by_contra hno
        refine hne ((congrFun (d.fb_run hr) _).trans (paint_of_not_mem fun i b hw hreach => hno ?_))
        exact ⟨i, b, mem_append_left _ (mem_actsOf.mp hw), touches_of_reaches hk hreach⟩
      · have ⟨i, b, hmem, ht⟩ := hi hp h
        exact ⟨i, b, mem_append_right _ hmem, ht⟩
    | take =>
      have ⟨i, b, hmem, ht⟩ := hi hp h
      exact ⟨i, b, mem_append_right _ hmem, ht⟩

-- If each draw of a run is heeded when its turn comes, what it changes is presented.
theorem damage_complete (cfg : Config) (ts : List Turn) (s : Screen) (d : Option Box) (hp : Played cfg ts s) (hh : AllHeeded cfg ts d) :
    Complete cfg ts s d :=
  fun _ _ hx hy h => presented_of_written hx hy (covered_run hp hh) (written_of_changes hp h)

def interrupted (acts : List Act) : List Event := acts.flatMap fun a => [.take, .act a]

theorem actsOf_interrupted : actsOf (interrupted acts) = acts := by
  induction acts with
  | nil => rfl
  | cons a l hi => exact congrArg (a :: ·) hi

theorem actsOf_map_act : actsOf (acts.map .act) = acts := by
  rw [actsOf, filterMap_map]
  exact filterMap_some ..

theorem probe_complete : Complete tiny [.draw .probe (interrupted (drawProbe tiny)), .take] blackScreen none :=
  damage_complete tiny _ blackScreen none ⟨_, by rw [actsOf_interrupted]; rfl, trivial⟩ ⟨trivial, trivial⟩

def clockTurn : Turn := .draw (.clock []) ((drawClock tiny []).map .act)

def letterActs : List Act := (consoleBytes tiny [65] blackScreen).elim [] Prod.fst

def letterTurn : Turn := .draw (.console [65]) ((letterActs.take 440).map .act ++ .take :: (letterActs.drop 440).map .act)

theorem actsOf_taken : actsOf ((acts.take n).map .act ++ .take :: (acts.drop n).map .act) = acts := by
  have happend : actsOf ((acts.take n).map .act ++ .take :: (acts.drop n).map .act) =
      actsOf ((acts.take n).map .act) ++ actsOf ((acts.drop n).map .act) := filterMap_append ..
  rw [happend, actsOf_map_act, actsOf_map_act, take_append_drop]

theorem console_letter : ∃ s', consoleBytes tiny [65] blackScreen = some (letterActs, s') ∧ s'.fb (addr tiny 5 62) = 255 := by
  have hbyte : (consoleBytes tiny [65] blackScreen).map (·.2.fb (addr tiny 5 62)) = some 255 := by decide +kernel
  obtain ⟨⟨acts, s'⟩, hr, hfb⟩ := Option.map_eq_some_iff.mp hbyte
  refine ⟨s', ?_, hfb⟩
  rw [letterActs, hr]
  rfl

theorem damage_lost : (Played tiny [clockTurn] blackScreen ∧ ¬Complete tiny [clockTurn] blackScreen none) ∧
      Played tiny [letterTurn] blackScreen ∧ ¬Complete tiny [letterTurn] blackScreen none := by
  obtain ⟨s', hletter, hfb⟩ := console_letter
  have hplayed : Played tiny [letterTurn] blackScreen :=
    ⟨s', hletter.trans (congrArg (some <| Prod.mk · s') actsOf_taken.symm), trivial⟩
  refine ⟨⟨⟨_, by rw [actsOf_map_act]; rfl, trivial⟩, fun h => ?_⟩, hplayed, fun h => ?_⟩
  · have hshown := h 0 8 (by decide) (by decide) ⟨_, _, rfl, .inl ⟨0, by decide, by decide +kernel⟩⟩
    exact absurd hshown (by decide +kernel)
  · have hblack : blackScreen.fb (addr tiny 5 62) = 0 := by decide +kernel
    have hchange : s'.fb (addr tiny 5 62) ≠ blackScreen.fb (addr tiny 5 62) := by
      rw [hfb, hblack]
      decide
    have hshown := h 5 62 (by decide) (by decide) ⟨_, s', hletter, .inl ⟨0, by decide, hchange⟩⟩
    exact absurd hshown (by decide +kernel)

end runs

end Framebuffer
