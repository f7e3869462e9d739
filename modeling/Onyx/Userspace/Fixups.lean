import Onyx.Userspace.Total

-- The writes of the relocation pass, which runs after the final protection of the segments is set.

open Lib List

namespace Userspace

variable {elf : Image} {s t : Space}

-- The segment loop of `load_elf` on a position-independent image has ended in `t`.
structure SegmentsLoaded (elf : Image) (s : Space) (base : Nat) (l : Loading) (t : Space) : Prop where
  header : ∃ h, readHeader elf = .ok h ∧ h.eType = etDyn ∧ loadBase elf h.eType h.phoff h.phentsize h.phnum = .ok base ∧
    ((range h.phnum).foldlM (loadSegment elf h.phoff h.phentsize base) ⟨0, none, []⟩).run s = (.ok l, t)
  some : l.loaded ≠ 0

structure LegalWrite (elf : Image) (base : Nat) (s : Space) (target : Nat) : Prop where
  bytes : ∀ b, b < 8 → ∃ j, j < elf.phnum ∧ elf.IsLoad j ∧ base + elf.vaddr j ≤ target + b ∧
    target + b < base + elf.vaddr j + elf.memsz j
  pages : ∀ b, b < 8 → s.Writable ((target + b) / pageSize)

-- Every write that the relocation pass comes to is legal at that moment.
def FixupLaw (elf : Image) (base : Nat) (extents : List (Nat × Nat)) (t : Space) : Prop :=
  elf.shoff ≠ 0 → 64 ≤ elf.shentsize → ∀ tab, findSymbols elf elf.shoff elf.shentsize (range elf.shnum) = .ok tab →
    Prog.Before (applySection elf tab base extents elf.shoff elf.shentsize) (fun applied i s =>
      ∀ off count, relaSection elf elf.shoff elf.shentsize i = .ok (some (off, count)) →
        Prog.Before (fun applied k => applyRelocation elf tab base extents applied (off + k * 24)) (fun _ k s =>
          ∀ target value, relocation elf tab base extents (off + k * 24) = .ok (some (target, value)) →
            LegalWrite elf base s target) applied (range count) s) 0 (range elf.shnum) t

namespace Image

-- Header `i` as a round of the segment loop that goes through has seen it.
structure Seen (elf : Image) (b i : Nat) : Prop where
  inFile : elf.InFile i
  fits : elf.IsLoad i → b + elf.vaddr i + (elf.memsz i + pageMask) < 2 ^ 64
  above : elf.IsLoad i → userTextBase ≤ pageDown (b + elf.vaddr i)
  below : elf.IsLoad i → pageDown (b + elf.vaddr i + (elf.memsz i + pageMask)) ≤ userMaxAddr
  some : elf.IsLoad i → pageDown (b + elf.vaddr i) < pageDown (b + elf.vaddr i + (elf.memsz i + pageMask))

theorem seen_of_readSegment (h : readSegment elf elf.phoff elf.phentsize b known i = .ok r) : elf.Seen b i := by
  have hread : Exact (readSegment elf elf.phoff elf.phentsize b known i) _ _ _ := exact_readSegment fun _ _ =>
    .cases (fun _ => .bind .checked fun _ => .bind .checked fun _ => .ok) fun _ => .ok
  have ⟨⟨hf, hload⟩, _⟩ := hread.eq_ok.mp h
  exact ⟨hf, by grind, by grind, by grind, by grind⟩

theorem seen_of_loop (h : ((range elf.phnum).foldlM (loadSegment elf elf.phoff elf.phentsize b) l).run s = (.ok l', t))
    (hi : i < elf.phnum) : elf.Seen b i := by
  have ⟨_, s1, _, _, hround⟩ := Prog.completes_of_foldlM h i (mem_range.mpr hi)
  have ⟨_, hread, _⟩ := read_bind_eq_ok.mp hround
  exact seen_of_readSegment hread

theorem placeable_of_seen (h64 : elf.Elf64) (hsize : 56 ≤ elf.phentsize) (hd : elf.Dyn) (hsome : elf.lowest ≠ 2 ^ 64 - 1)
    (hpie : elf.lowest ≤ lnxPieLoadBase) (hseen : ∀ {i}, i < elf.phnum → elf.Seen elf.base i) : elf.Placeable := by
  have hbase : elf.base = lnxPieLoadBase - elf.lowest := if_pos hd
  obtain ⟨i, hi, hl, hlow⟩ := lowest_mem hsome
  have hlowmod : elf.lowest % pageSize = 0 := hlow ▸ pageDown_mod _
  have hmod : elf.base % pageSize = 0 := by
    rw [hbase, lnxPieLoadBase]
    rw [pageSize_eq] at *
    omega
  have hdown (a : Nat) : pageDown (elf.base + a) = elf.base + pageDown a := by
    unfold pageDown
    rw [pageSize_eq] at *
    omega
  have hhigh {j : Nat} (hj : j < elf.phnum) (hlj : elf.IsLoad j) : elf.base + elf.high j ≤ userMaxAddr := by
    have hb := (hseen hj).below hlj
    rwa [Nat.add_assoc, hdown, ← Nat.add_assoc] at hb
  have hregion : elf.region = (lnxPieLoadBase, lnxPieLoadBase + (elf.highest - elf.lowest)) := if_pos hd
  have hnonempty : elf.lowest < elf.highest := by
    have hb := (hseen hi).some hl
    rw [Nat.add_assoc, hdown, hdown, ← Nat.add_assoc] at hb
    have hle := high_le_highest hi hl
    unfold low at hlow
    unfold high at hle
    omega
  refine ⟨⟨h64, hsize, fun {j} hj => ⟨?_, fun _ => ?_, fun hlj => ?_⟩, hsome, hnonempty, ?_, ?_⟩, fun _ => hpie⟩
  · have := (hseen hj).inFile
    unfold InFile at this
    omega
  · have := (hseen hj).inFile
    unfold InFile at this
    omega
  · have := (hseen hj).fits hlj
    omega
  · rw [hregion]
    exact (by decide : userTextBase ≤ lnxPieLoadBase)
  · rw [hregion]
    have hle : elf.highest ≤ userMaxAddr - elf.base := foldl_max_le_iff.mpr ⟨Nat.zero_le _, fun j hj hlj => by
      have := hhigh (mem_range.mp hj) hlj
      omega⟩
    have := hhigh hi hl
    dsimp only
    omega

end Image

theorem SegmentsLoaded.placeable (h : SegmentsLoaded elf s base l t) :
    elf.Placeable ∧ elf.Dyn ∧ base = elf.base ∧ l.extents = elf.extents elf.phnum ∧ elf.Laid t := by
  obtain ⟨hd, hheader, hdyn, hbase, hrun⟩ := h.header
  obtain ⟨⟨h64, hsize, _⟩, rfl⟩ := Image.exact_readHeader.eq_ok.mp hheader
  have hd : elf.Dyn := hdyn
  obtain ⟨hready, rfl⟩ := Image.exact_loadBase.eq_ok.mp hbase
  -- the lowest preferred address is there and not above the load region
  obtain ⟨_, hsome, hpie⟩ := hready hd
  have hplace := Image.placeable_of_seen h64 hsize hd hsome hpie fun hi => Image.seen_of_loop hrun hi
  have hprog := (hplace.rounds (s := s)).run Image.Progress.init hrun
  exact ⟨hplace, hd, rfl, hprog.extents, hprog.laid⟩

-- The entry at `off` writes to bytes of loaded segments that are writable in the end.
structure FixupFits (elf : Image) (base : Nat) (extents : List (Nat × Nat)) (tab : Symbols) (off : Nat) : Prop where
  bytes : ∀ target value, relocation elf tab base extents off = .ok (some (target, value)) → ∀ b, b < 8 →
    ∃ j, j < elf.phnum ∧ elf.IsLoad j ∧ base + elf.vaddr j ≤ target + b ∧ target + b < base + elf.vaddr j + elf.memsz j
  writable : ∀ target value, relocation elf tab base extents off = .ok (some (target, value)) → ∀ j, j < elf.phnum → elf.IsLoad j →
    elf.start j ≤ target → target + 8 ≤ elf.stop j → (elf.segment j).writable

-- So does every entry that is reached, those before it being accepted without a panic.
def FixupsFit (elf : Image) (base : Nat) (extents : List (Nat × Nat)) : Prop :=
  elf.shoff ≠ 0 → 64 ≤ elf.shentsize → ∀ tab, findSymbols elf elf.shoff elf.shentsize (range elf.shnum) = .ok tab →
    ∀ i, i < elf.shnum → (∀ j, j < i → elf.SectionAccepted tab j ∧ elf.SectionSafe tab j) →
      ∀ off count, relaSection elf elf.shoff elf.shentsize i = .ok (some (off, count)) →
        ∀ k, k < count → (∀ j, j < k → elf.RelocAccepted tab (off + j * 24) ∧
            elf.RelocSafe tab (elf.countEntries tab (elf.appliedBefore tab i) off j) (off + j * 24)) →
          FixupFits elf base extents tab (off + k * 24)

section writes

variable {tab : Symbols} (h : elf.Placeable)

include h

theorem Image.Placeable.segment_of_relocation (hoff : off + 24 ≤ elf.len)
    (hr : relocation elf tab elf.base (elf.extents elf.phnum) off = .ok (some (target, word))) :
    ∃ j, j < elf.phnum ∧ elf.IsLoad j ∧ elf.start j ≤ target ∧ target + 8 ≤ elf.stop j := by
  rw [Image.relocation_eq _ _ hoff] at hr
  have ⟨v, _, htarget⟩ := Result.bind_eq_ok.mp hr
  cases v with
  | none => cases htarget
  | some v =>
    rcases h.relocationTarget_cases h.extents_ne_nil v (elf.relTarget off) with ⟨e, he, _⟩ | ⟨hp, _⟩ | ⟨he, _, hin⟩
    · rw [he] at htarget
      cases htarget
    · rw [hp] at htarget
      cases htarget
    rw [he] at htarget
    cases htarget
    exact hin

theorem Image.Laid.writable_iff (hlaid : elf.Laid t) (hj : j < elf.phnum) (hl : elf.IsLoad j) (hlo : elf.start j ≤ target)
    (hhi : target + 8 ≤ elf.stop j) : (∀ b, b < 8 → t.Writable ((target + b) / pageSize)) ↔ (elf.segment j).writable := by
  have hpage (b : Nat) (hb : b < 8) : t.Writable ((target + b) / pageSize) ↔ (elf.segment j).writable := by
    have hholds : elf.Holds j ((target + b) / pageSize) := by
      have h1 := h.start_mod (i := j)
      have h2 := h.stop_mod (i := j)
      unfold Image.Holds
      rw [pageSize_eq] at *
      omega
    rw [Space.Writable, hlaid j hj hl _ hholds]
    rfl
  exact ⟨fun hall => (hpage 0 (by omega)).mp (hall 0 (by omega)), fun hw b hb => (hpage b hb).mpr hw⟩

theorem Image.Laid.legal_iff (hlaid : elf.Laid t) (hoff : off + 24 ≤ elf.len) :
    (∀ target value, relocation elf tab elf.base (elf.extents elf.phnum) off = .ok (some (target, value)) →
      LegalWrite elf elf.base t target) ↔ FixupFits elf elf.base (elf.extents elf.phnum) tab off := by
  constructor
  · intro hlegal
    refine ⟨fun target value hr => (hlegal target value hr).bytes, fun target value hr j hj hl hlo hhi => ?_⟩
    exact (hlaid.writable_iff h hj hl hlo hhi).mp (hlegal target value hr).pages
  · intro hfits target value hr
    have ⟨j, hj, hl, hlo, hhi⟩ := h.segment_of_relocation hoff hr
    exact ⟨hfits.bytes target value hr, (hlaid.writable_iff h hj hl hlo hhi).mpr (hfits.writable target value hr j hj hl hlo hhi)⟩

end writes

theorem fixup_law_iff (elf : Image) (s t : Space) (base : Nat) (l : Loading) (h : SegmentsLoaded elf s base l t) :
    FixupLaw elf base l.extents t ↔ FixupsFit elf base l.extents := by
  obtain ⟨hplace, hd, rfl, hext, hlaid⟩ := h.placeable
  rw [hext]
  have hne := hplace.extents_ne_nil
  have hkeep {t' : Space} (hp : t'.pages = t.pages) : elf.Laid t' := fun j hj hl p hh => (congrFun hp p).trans (hlaid j hj hl p hh)
  refine imp_congr_right fun hoff => imp_congr_right fun hsize => forall_congr' fun tab => imp_congr_right fun htab => ?_
  have hin (hpos : 0 < elf.shnum) : elf.TableInFile := Image.tableInFile_of_findSymbols hpos htab
  refine (Image.Step.rounds (hlaid.sections hplace hne tab hin)).before (fun {i n t'} hi hp => ?_) ⟨rfl, rfl⟩
  obtain ⟨rfl, hp⟩ := hp
  refine forall_congr' fun off => forall_congr' fun count => imp_congr_right fun hsec => ?_
  refine (Image.Step.rounds (c := fun k => elf.countEntries tab (elf.appliedBefore tab i) off k)
    ((hkeep hp).entries hplace hne hsec)).before (fun {k m t''} hk hp' => ?_) ⟨rfl, rfl⟩
  exact (hkeep (hp'.2.trans hp)).legal_iff hplace (Image.entry_in_file hsec hk)

def fixupHeader : Bytes :=
  [0x7F, 0x45, 0x4C, 0x46, 2, 1, 1, 0, 0, 0, 0, 0, 0, 0, 0, 0, 3, 0, 0x3E, 0, 1, 0, 0, 0, 0, 0, 0, 0, 0, 0, 0, 0,
    64, 0, 0, 0, 0, 0, 0, 0, 120, 0, 0, 0, 0, 0, 0, 0, 0, 0, 0, 0, 64, 0, 56, 0, 1, 0, 64, 0, 1, 0, 0, 0]

def fixupSegment (flags : UInt8) : Bytes :=
  [1, 0, 0, 0, flags, 0, 0, 0, 0, 0, 0, 0, 0, 0, 0, 0, 0, 0, 0, 0, 0, 0, 0, 0, 0, 0, 0, 0, 0, 0, 0, 0,
    208, 0, 0, 0, 0, 0, 0, 0, 0, 1, 0, 0, 0, 0, 0, 0, 0, 0x10, 0, 0, 0, 0, 0, 0]

def fixupSection : Bytes :=
  [0, 0, 0, 0, 4, 0, 0, 0, 0, 0, 0, 0, 0, 0, 0, 0, 0, 0, 0, 0, 0, 0, 0, 0, 184, 0, 0, 0, 0, 0, 0, 0,
    24, 0, 0, 0, 0, 0, 0, 0, 0, 0, 0, 0, 0, 0, 0, 0, 8, 0, 0, 0, 0, 0, 0, 0, 24, 0, 0, 0, 0, 0, 0, 0]

def fixupEntry (lo hi : UInt8) : Bytes := [lo, hi, 0, 0, 0, 0, 0, 0, 8, 0, 0, 0, 0, 0, 0, 0, 0, 0, 0, 0, 0, 0, 0, 0]

def fixupImage (flags lo hi : UInt8) : Image where
  bytes := fixupHeader ++ (fixupSegment flags ++ (fixupSection ++ fixupEntry lo hi))
  small := by
    have h1 : fixupHeader.length = 64 := rfl
    have h2 : (fixupSegment flags).length = 56 := rfl
    have h3 : fixupSection.length = 64 := rfl
    have h4 : (fixupEntry lo hi).length = 24 := rfl
    simp only [length_append, h1, h2, h3, h4]
    decide

def fixupLoop (elf : Image) : LoadM Loading := (range 1).foldlM (loadSegment elf 64 56 0x2000000) ⟨0, none, []⟩

def fixupLoaded : Loading := ⟨1, some 0x2000040, [(0x2000000, 0x2001000)]⟩

theorem fixup_loaded (hh : readHeader elf = .ok ⟨0, 64, 56, 1, 3⟩) (hb : loadBase elf 3 64 56 1 = .ok 0x2000000)
    (hl : ((fixupLoop elf).run .blank).1 = .ok fixupLoaded) :
    SegmentsLoaded elf .blank 0x2000000 fixupLoaded ((fixupLoop elf).run .blank).2 :=
  ⟨⟨_, hh, rfl, hb, Prod.ext hl rfl⟩, by decide⟩

theorem fixup_legal : FixupLaw (fixupImage 6 0x80 0) 0x2000000 fixupLoaded.extents ((fixupLoop (fixupImage 6 0x80 0)).run .blank).2 := by
  refine (fixup_law_iff _ _ _ _ _ (fixup_loaded (by decide +kernel) (by decide +kernel) (by decide +kernel))).mpr ?_
  intro _ _ tab htab i hi _ off count hsec k hk _
  have hfound : findSymbols (fixupImage 6 0x80 0) (fixupImage 6 0x80 0).shoff (fixupImage 6 0x80 0).shentsize
      (range (fixupImage 6 0x80 0).shnum) = .ok ⟨none, none⟩ := by decide +kernel
  cases htab.symm.trans hfound
  have hone : (fixupImage 6 0x80 0).shnum = 1 := by decide
  obtain rfl : i = 0 := by omega
  have hentries : relaSection (fixupImage 6 0x80 0) (fixupImage 6 0x80 0).shoff (fixupImage 6 0x80 0).shentsize 0 = .ok (some (184, 1)) := by
    decide +kernel
  cases hsec.symm.trans hentries
  obtain rfl : k = 0 := by omega
  have hwrite : relocation (fixupImage 6 0x80 0) ⟨none, none⟩ 0x2000000 fixupLoaded.extents (184 + 0 * 24) = .ok (some (0x2000080, 0x2000000)) := by
    decide +kernel
  constructor
  · intro target value hr b hb
    cases hr.symm.trans hwrite
    refine ⟨0, by decide, by decide, ?_⟩
    have hva : (fixupImage 6 0x80 0).vaddr 0 = 0 := by decide
    have hmem : (fixupImage 6 0x80 0).memsz 0 = 256 := by decide
    rw [hva, hmem]
    omega
  · intro target value hr j hj _ _ _
    have hnum : (fixupImage 6 0x80 0).phnum = 1 := by decide
    obtain rfl : j = 0 := by omega
    decide

theorem FixupLaw.first (law : FixupLaw elf base exts t) (tab : Symbols) (off word : Nat) (hoff : elf.shoff ≠ 0) (hsize : 64 ≤ elf.shentsize)
    (htab : findSymbols elf elf.shoff elf.shentsize (range elf.shnum) = .ok tab) (hnum : elf.shnum = 1)
    (hsec : relaSection elf elf.shoff elf.shentsize 0 = .ok (some (off, 1)))
    (hr : relocation elf tab base exts (off + 0 * 24) = .ok (some (target, word))) : LegalWrite elf base t target := by
  have hbefore := law hoff hsize tab htab
  rw [hnum] at hbefore
  exact (hbefore.1 off 1 hsec).1 target word hr

-- The segment is read-only in the end, or the target lies behind its bytes.
theorem fixup_illegal :
    (SegmentsLoaded (fixupImage 5 0x80 0) .blank 0x2000000 fixupLoaded ((fixupLoop (fixupImage 5 0x80 0)).run .blank).2 ∧
      ¬FixupLaw (fixupImage 5 0x80 0) 0x2000000 fixupLoaded.extents ((fixupLoop (fixupImage 5 0x80 0)).run .blank).2) ∧
    (SegmentsLoaded (fixupImage 6 0 8) .blank 0x2000000 fixupLoaded ((fixupLoop (fixupImage 6 0 8)).run .blank).2 ∧
      ¬FixupLaw (fixupImage 6 0 8) 0x2000000 fixupLoaded.extents ((fixupLoop (fixupImage 6 0 8)).run .blank).2) := by
  refine ⟨⟨fixup_loaded (by decide +kernel) (by decide +kernel) (by decide +kernel), fun law => ?_⟩,
    ⟨fixup_loaded (by decide +kernel) (by decide +kernel) (by decide +kernel), fun law => ?_⟩⟩
  · have hlegal : LegalWrite _ _ _ 0x2000080 := law.first ⟨none, none⟩ 184 0x2000000
      (by decide +kernel) (by decide +kernel) (by decide +kernel) (by decide +kernel) (by decide +kernel) (by decide +kernel)
    have hw := hlegal.pages 0 (by decide)
    revert hw
    decide +kernel
  · have hlegal : LegalWrite _ _ _ 0x2000800 := law.first ⟨none, none⟩ 184 0x2000000
      (by decide +kernel) (by decide +kernel) (by decide +kernel) (by decide +kernel) (by decide +kernel) (by decide +kernel)
    have ⟨j, hj, _, _, hlt⟩ := hlegal.bytes 0 (by decide)
    have hnum : (fixupImage 6 0 8).phnum = 1 := by decide
    obtain rfl : j = 0 := by omega
    have hva : (fixupImage 6 0 8).vaddr 0 = 0 := by decide
    have hmem : (fixupImage 6 0 8).memsz 0 = 256 := by decide
    rw [hva, hmem] at hlt
    omega

end Userspace
