import Mathlib

-- The sign-in screen (kernel/src/signin.rs): the power button, its menu and the sign-in button.

namespace Signin

def powerBtn : Nat := 48
def powerMenuW : Nat := 196
def powerItemH : Nat := 36
def powerPad : Nat := 10
def powerMargin : Nat := 30

inductive PowerItem
  | sleep
  | restart
  | shutDown
  deriving DecidableEq

def powerItems : List PowerItem := [.sleep, .restart, .shutDown]

def uiScale (h : Nat) : Nat := max 1 (min (h * 3 / 2 / 655) 2)

structure PowerGeom where
  btnX : Nat
  btnY : Nat
  menuX : Nat
  menuY : Nat
  menuH : Nat
  itemH : Nat
  pad : Nat
  btn : Nat
  menuW : Nat

def powerGeom (w h : Nat) : PowerGeom :=
  let s := uiScale h
  let btn := powerBtn * s
  let itemH := powerItemH * s
  let pad := powerPad * s
  let menuW := powerMenuW * s
  let margin := powerMargin * s
  let menuH := 3 * itemH + pad * 2
  { btnX := w - (margin + btn)
    btnY := h - (margin + btn)
    menuX := w - (margin + menuW)
    menuY := h - (margin + menuH)
    menuH, itemH, pad, btn, menuW }

def hitPower (w h x y : Nat) : Bool :=
  let g := powerGeom w h
  x ≥ g.btnX ∧ x < g.btnX + g.btn ∧ y ≥ g.btnY ∧ y < g.btnY + g.btn

-- The row of the menu that a click is in; `menuOpen` is the flag of the screen.
def hitPowerItem (menuOpen : Bool) (w h x y : Nat) : Option Nat :=
  let g := powerGeom w h
  if !menuOpen then none
  else if x < g.menuX ∨ x ≥ g.menuX + g.menuW ∨ y < g.menuY ∨ y ≥ g.menuY + g.menuH then none
  else if y < g.menuY + g.pad then none
  else
    let inner := y - (g.menuY + g.pad)
    if inner ≥ 3 * g.itemH then none else some (inner / g.itemH)

-- Of the sign-in block only the sizes of labels are left out.
structure SigninGeom where
  avatarCx : ℤ
  avatarCy : ℤ
  avatarR : ℤ
  nameBaseline : ℤ
  btnX : ℤ
  btnY : ℤ
  btnW : ℤ
  btnH : ℤ

def signinGeom (w h : Nat) : SigninGeom :=
  let cx : ℤ := (w / 2 : Nat)
  let hh : ℤ := h
  let avatarR := hh * 11 / 100
  let avatarCy := hh * 30 / 100
  -- the size of the name is a `u16`
  let fsName := max (hh * 3 / 100) 12 % 2 ^ 16
  let nameBaseline := avatarCy + avatarR + fsName * 5 / 4
  let btnH := hh * 6 / 100
  let btnW := btnH * 7 / 2
  { avatarCx := cx
    avatarCy, avatarR, nameBaseline
    btnX := cx - btnW / 2
    btnY := nameBaseline + fsName * 3 / 2
    btnW, btnH }

inductive Click
  | powerButton
  | menuItem (idx : Nat)
  | signIn
  | outside
  deriving DecidableEq

def inSignin (w h x y : Nat) : Bool :=
  let g := signinGeom w h
  x ≥ (max g.btnX 0).toNat ∧ (x : ℤ) < g.btnX + g.btnW ∧ y ≥ (max g.btnY 0).toNat ∧ (y : ℤ) < g.btnY + g.btnH

def classifyClick (menuOpen : Bool) (w h x y : Nat) : Click :=
  match hitPowerItem menuOpen w h x y with
  | some idx => .menuItem idx
  | none =>
    if hitPower w h x y then .powerButton
    else if inSignin w h x y then .signIn
    else .outside

structure Screen where
  menuOpen : Bool
  sel : Nat
  signedIn : Bool
  desktop : Bool
  performed : List PowerItem
  deriving DecidableEq

def onClick (w h : Nat) (s : Screen) (p : Nat × Nat) : Screen :=
  if w = 0 ∨ h = 0 then s
  else
    match classifyClick s.menuOpen w h p.1 p.2 with
    | .powerButton => { s with menuOpen := !s.menuOpen }
    | .menuItem idx => { s with sel := idx, menuOpen := false, performed := s.performed ++ powerItems[idx]?.toList }
    | .signIn => { s with signedIn := true, desktop := true }
    | .outside => if s.menuOpen then { s with menuOpen := false } else s

section layout

def button (w h : Nat) : Set (Nat × Nat) := {p | hitPower w h p.1 p.2 = true}

def panel (w h : Nat) : Set (Nat × Nat) :=
  let g := powerGeom w h
  {p | g.menuX ≤ p.1 ∧ p.1 < g.menuX + g.menuW ∧ g.menuY ≤ p.2 ∧ p.2 < g.menuY + g.menuH}

def signinButton (w h : Nat) : Set (Nat × Nat) := {p | inSignin w h p.1 p.2 = true}

def screen (w h : Nat) : Set (Nat × Nat) := {p | p.1 < w ∧ p.2 < h}

def rows (w h : Nat) : Set (Nat × Nat) :=
  let g := powerGeom w h
  {p | p ∈ panel w h ∧ g.menuY + g.pad ≤ p.2 ∧ p.2 < g.menuY + g.pad + 3 * g.itemH}

structure Roomy (w h : Nat) : Prop where
  menuW : powerMargin * uiScale h + (powerGeom w h).menuW ≤ w
  menuH : powerMargin * uiScale h + (powerGeom w h).menuH ≤ h
  left : 0 ≤ (signinGeom w h).btnX
  right : (signinGeom w h).btnX + (signinGeom w h).btnW ≤ w
  bottom : (signinGeom w h).btnY + (signinGeom w h).btnH ≤ h

variable {w h : Nat} (r : Roomy w h)

theorem mem_button : p ∈ button w h ↔ (powerGeom w h).btnX ≤ p.1 ∧ p.1 < (powerGeom w h).btnX + (powerGeom w h).btn ∧
    (powerGeom w h).btnY ≤ p.2 ∧ p.2 < (powerGeom w h).btnY + (powerGeom w h).btn := by
  simp [button, hitPower]

theorem mem_signinButton : p ∈ signinButton w h ↔ (signinGeom w h).btnX ≤ p.1 ∧
    p.1 < (signinGeom w h).btnX + (signinGeom w h).btnW ∧ (signinGeom w h).btnY ≤ p.2 ∧
    p.2 < (signinGeom w h).btnY + (signinGeom w h).btnH := by
  simp only [signinButton, inSignin, Set.mem_ofPred_eq, decide_eq_true_eq, ge_iff_le, Int.toNat_le]
  omega

theorem button_nonempty : (button w h).Nonempty := by
  refine ⟨((powerGeom w h).btnX, (powerGeom w h).btnY), mem_button.mpr ?_⟩
  simp only [powerGeom, powerBtn, uiScale]
  omega

include r

theorem button_subset_panel : button w h ⊆ panel w h := by
  intro p hp
  have h1 := r.menuW
  have h2 := r.menuH
  have := mem_button.mp hp
  simp only [powerGeom, powerMargin, powerBtn, powerItemH, powerPad, powerMenuW, panel, Set.mem_ofPred_eq] at *
  omega

theorem panel_subset_screen : panel w h ⊆ screen w h := by
  intro p hp
  have h1 := r.menuW
  have h2 := r.menuH
  simp only [powerGeom, powerMargin, powerItemH, powerPad, powerMenuW, panel, screen, uiScale, Set.mem_ofPred_eq] at *
  omega

theorem signinButton_subset_screen : signinButton w h ⊆ screen w h := by
  intro p hp
  have h1 := r.right
  have h2 := r.bottom
  have := mem_signinButton.mp hp
  simp only [screen, Set.mem_ofPred_eq]
  omega

theorem disjoint_button_signinButton : Disjoint (button w h) (signinButton w h) := by
  rw [Set.disjoint_left]
  intro p hp hq
  have h1 := r.menuW
  have h2 := r.menuH
  have h3 := mem_button.mp hp
  have h4 := mem_signinButton.mp hq
  simp only [powerGeom, powerMargin, powerBtn, powerItemH, powerPad, powerMenuW, uiScale, signinGeom] at h1 h2 h3 h4
  have hf : max ((h : Int) * 3 / 100) 12 % 2 ^ 16 ≤ max ((h : Int) * 3 / 100) 12 := by omega
  generalize max ((h : Int) * 3 / 100) 12 % 2 ^ 16 = fs at hf h4
  by_cases hs : h < 240
  case pos => omega
  case neg => omega

theorem disjoint_signinButton_panel_iff : Disjoint (signinButton w h) (panel w h) ↔
    (signinGeom w h).btnY + (signinGeom w h).btnH ≤ (powerGeom w h).menuY ∨
    (signinGeom w h).btnX + (signinGeom w h).btnW ≤ (powerGeom w h).menuX := by
  rw [Set.disjoint_left]
  constructor
  case mpr =>
    intro hs p hp hq
    have := mem_signinButton.mp hp
    simp only [panel, Set.mem_ofPred_eq] at hq
    omega
  case mp =>
    intro hd
    by_contra hs
    -- the lower right corner of the one or the upper left corner of the other is common
    have h1 := r.menuW
    have h2 := r.menuH
    have h3 := r.left
    refine hd (a := (max (signinGeom w h).btnX.toNat (powerGeom w h).menuX,
      max (signinGeom w h).btnY.toNat (powerGeom w h).menuY)) (mem_signinButton.mpr ?_) ?_
    all_goals
      simp only [powerGeom, powerMargin, powerBtn, powerItemH, powerPad, powerMenuW, uiScale, signinGeom, panel,
        Set.mem_ofPred_eq] at *
      have hf : max ((h : Int) * 3 / 100) 12 % 2 ^ 16 ≤ max ((h : Int) * 3 / 100) 12 := by omega
      have hn : 0 ≤ max ((h : Int) * 3 / 100) 12 % 2 ^ 16 := by omega
      generalize max ((h : Int) * 3 / 100) 12 % 2 ^ 16 = fs at *
      omega

end layout

section clicks

-- Each click opens or closes the menu and does nothing else.
def Toggles (w h : Nat) (s : Screen) : List (Nat × Nat) → Prop
  | [] => True
  | p :: ps => onClick w h s p = { s with menuOpen := !s.menuOpen } ∧ Toggles w h (onClick w h s p) ps

-- Every second click, the one that finds the menu open, is beside the rows.
def Spaced (w h : Nat) (isOpen : Bool) : List (Nat × Nat) → Prop
  | [] => True
  | p :: ps => (isOpen = true → p ∉ rows w h) ∧ Spaced w h (!isOpen) ps

theorem hitPowerItem_isSome : (hitPowerItem o w h p.1 p.2).isSome ↔ o = true ∧ p ∈ rows w h := by
  simp only [hitPowerItem, rows, panel, Set.mem_ofPred_eq]
  cases o with
  | false => simp
  | true =>
    simp only [Bool.not_true, Bool.false_eq_true, if_false, true_and]
    split_ifs <;> simp <;> omega

theorem hitPowerItem_lt (hi : hitPowerItem o w h x y = some i) : i < powerItems.length := by
  simp only [hitPowerItem] at hi
  split_ifs at hi with h1 h2 h3 h4
  cases hi
  exact Nat.div_lt_of_lt_mul (by simp only [powerItems, List.length_cons, List.length_nil]; omega)

theorem classifyClick_menuItem (hc : classifyClick o w h x y = .menuItem i) : hitPowerItem o w h x y = some i := by
  unfold classifyClick at hc
  split at hc
  case h_1 idx he => cases hc; exact he
  case h_2 => split_ifs at hc

theorem performed_onClick (hp : (onClick w h s p).performed ≠ s.performed) : s.menuOpen = true ∧ p ∈ rows w h := by
  by_cases hd : w = 0 ∨ h = 0
  case pos => simp [onClick, hd] at hp
  case neg =>
    cases hc : classifyClick s.menuOpen w h p.1 p.2 with
    | menuItem idx => exact hitPowerItem_isSome.mp (by simp [classifyClick_menuItem hc])
    | powerButton | signIn => simp [onClick, hd, hc] at hp
    | outside =>
      simp only [onClick, hd, hc, if_false] at hp
      split at hp <;> exact absurd rfl hp

theorem onClick_row (hd : ¬(w = 0 ∨ h = 0)) (ho : s.menuOpen = true) (hr : p ∈ rows w h) : ∃ i, i < powerItems.length ∧
    onClick w h s p = { s with sel := i, menuOpen := false, performed := s.performed ++ powerItems[i]?.toList } := by
  have ⟨i, hi⟩ := Option.isSome_iff_exists.mp (hitPowerItem_isSome.mpr ⟨ho, hr⟩)
  refine ⟨i, hitPowerItem_lt hi, ?_⟩
  simp [onClick, hd, classifyClick, hi]

theorem onClick_button (hd : ¬(w = 0 ∨ h = 0)) (hb : p ∈ button w h) (hr : s.menuOpen = true → p ∉ rows w h) :
    onClick w h s p = { s with menuOpen := !s.menuOpen } := by
  have hn : hitPowerItem s.menuOpen w h p.1 p.2 = none := by
    rw [← Option.not_isSome_iff_eq_none, hitPowerItem_isSome]
    exact fun ⟨ho, hm⟩ => hr ho hm
  have hb : hitPower w h p.1 p.2 = true := hb
  simp [onClick, hd, classifyClick, hn, hb]

theorem toggle_iff (hd : ¬(w = 0 ∨ h = 0)) (hb : p ∈ button w h) :
    onClick w h s p = { s with menuOpen := !s.menuOpen } ↔ (s.menuOpen = true → p ∉ rows w h) := by
  refine ⟨fun ht ho hr => ?_, onClick_button hd hb⟩
  have ⟨i, hi, he⟩ := onClick_row hd ho hr
  have hp := congrArg (·.performed) (he.symm.trans ht)
  simp [List.getElem?_eq_getElem hi] at hp

theorem toggles_iff_spaced (hd : ¬(w = 0 ∨ h = 0)) :
    ∀ {ps : List (Nat × Nat)} {s}, (∀ p ∈ ps, p ∈ button w h) → (Toggles w h s ps ↔ Spaced w h s.menuOpen ps)
  | [], _, _ => Iff.rfl
  | p :: ps, s, hb => by
    have ht := toggle_iff (s := s) hd (hb p (.head _))
    simp only [Toggles, Spaced, ht]
    refine and_congr_right fun hr => ?_
    rw [toggles_iff_spaced hd fun q hq => hb q (.tail _ hq), onClick_button hd (hb p (.head _)) hr]

end clicks

theorem clicks_toggle_iff (r : Roomy w h) :
    (panel w h ⊆ screen w h ∧ button w h ⊆ screen w h ∧ signinButton w h ⊆ screen w h) ∧
    Disjoint (button w h) (signinButton w h) ∧ ¬Disjoint (button w h) (panel w h) ∧
    (Disjoint (signinButton w h) (panel w h) ↔ (signinGeom w h).btnY + (signinGeom w h).btnH ≤ (powerGeom w h).menuY ∨
      (signinGeom w h).btnX + (signinGeom w h).btnW ≤ (powerGeom w h).menuX) ∧
    (∀ ps s, (∀ p ∈ ps, p ∈ button w h) → s.menuOpen = false → (Toggles w h s ps ↔ Spaced w h false ps)) ∧
    (∀ s p, (onClick w h s p).performed ≠ s.performed → s.menuOpen = true ∧ p ∈ rows w h) := by
  have hd : ¬(w = 0 ∨ h = 0) := by
    have h1 := r.menuW
    have h2 := r.menuH
    simp only [powerMargin, uiScale] at h1 h2
    omega
  have hb := button_subset_panel r
  refine ⟨⟨panel_subset_screen r, hb.trans (panel_subset_screen r), signinButton_subset_screen r⟩,
    disjoint_button_signinButton r, fun hn => ?_, disjoint_signinButton_panel_iff r, fun ps s hps hs => ?_,
    fun s p => performed_onClick⟩
  · have ⟨p, hp⟩ := button_nonempty (w := w) (h := h)
    exact Set.disjoint_left.mp hn hp (hb hp)
  · rw [toggles_iff_spaced hd hps, hs]

theorem roomy_display : Roomy 1024 768 := by
  constructor <;> decide

theorem clicks_toggle_display : Toggles 1024 768 ⟨false, 0, false, false, []⟩ [(960, 700), (960, 735), (960, 700)] := by
  have ht := (clicks_toggle_iff roomy_display).2.2.2.2.1 [(960, 700), (960, 735), (960, 700)] ⟨false, 0, false, false, []⟩
  refine (ht ?_ rfl).mpr ?_
  · simp only [button]
    decide
  · simp only [Spaced, rows, panel]
    decide

-- A double click in the middle of the power button shuts the machine down.
theorem double_click_shuts_down :
    Roomy 1024 768 ∧ (970, 714) ∈ button 1024 768 ∧ ¬Disjoint (button 1024 768) (panel 1024 768) ∧
    ([(970, 714), (970, 714)].foldl (onClick 1024 768) ⟨false, 0, false, false, []⟩).performed = [.shutDown] := by
  have hb : (970, 714) ∈ button 1024 768 := by simp only [button]; decide
  exact ⟨roomy_display, hb, fun hn => Set.disjoint_left.mp hn hb (button_subset_panel roomy_display hb), by decide⟩

end Signin
