import Mathlib.Data.BitVec
import Mathlib.Tactic.IntervalCases
import Mathlib.Tactic.NormNum

/-!
# The relocation patchers

`patch.rs`: each patcher puts a resolved displacement into the immediate field of an instruction
word.  Range and alignment are checked by debug assertions only; a page offset that the access
cannot express is refused in every profile.

Beside each patcher stands what the architecture reads back from the word.
-/

namespace Torajs.Link

/-- What a build profile checks. -/
structure Profile where
  debugAssertions : Bool
  overflowChecks : Bool
  deriving DecidableEq, Repr

/-- `cargo build --release`. -/
def Profile.release : Profile := ⟨false, false⟩

/-- `cargo build`. -/
def Profile.dev : Profile := ⟨true, true⟩

/-- `debug_assert!`: a failure stops the program. -/
def Profile.debugAssert (p : Profile) (c : Prop) [Decidable c] : Option Unit :=
  if p.debugAssertions ∧ ¬ c then none else some ()

/-- An operation whose overflow stops the program where it is checked. -/
def Profile.checked {α : Type} (p : Profile) (overflows : Bool) (wrapped : α) : Option α :=
  if p.overflowChecks && overflows then none else some wrapped

/-! ### The patchers -/

/-- `BRANCH26_MASK`. -/
def branch26Mask : BitVec 32 := 0x03FFFFFF

/-- `PAGE21_MASK`. -/
def page21Mask : BitVec 32 := 0x60FFFFE0

/-- `PAGEOFF12_MASK`. -/
def pageoff12Mask : BitVec 32 := 0x003FFC00

/-- `patch_branch26`. -/
def patchBranch26 (p : Profile) (insn : BitVec 32) (displacementBytes : ℤ) :
    Option (BitVec 32) := do
  p.debugAssert (displacementBytes.tmod 4 = 0)
  let imm26 := displacementBytes.tdiv 4
  p.debugAssert (-2 ^ 25 ≤ imm26 ∧ imm26 < 2 ^ 25)
  let maskedImm26 := BitVec.ofInt 32 imm26 &&& branch26Mask
  return (insn &&& ~~~branch26Mask) ||| maskedImm26

/-- `patch_page21`. -/
def patchPage21 (p : Profile) (insn : BitVec 32) (pageDisplacementBytes : BitVec 64) :
    Option (BitVec 32) := do
  p.debugAssert (pageDisplacementBytes &&& 0xFFF = 0)
  let imm21 := pageDisplacementBytes.sshiftRight 12
  p.debugAssert (-2 ^ 20 ≤ imm21.toInt ∧ imm21.toInt < 2 ^ 20)
  let imm21u := imm21.setWidth 32
  let immlo := (imm21u &&& 0b11) <<< 29
  let immhi := ((imm21u >>> 2) &&& 0x7FFFF) <<< 5
  return (insn &&& ~~~page21Mask) ||| immlo ||| immhi

/-- `load_store_scale`. -/
def loadStoreScale (insn : BitVec 32) : ℕ :=
  if insn &&& 0x3B000000 ≠ 0x39000000 then 0
  else if insn &&& 0x04800000 = 0x04800000 then 4
  else (insn >>> 30).toNat

/-- `patch_pageoff12`; an offset that the access cannot express is an error. -/
def patchPageoff12 (p : Profile) (insn offset : BitVec 32) : Option (BitVec 32) := do
  p.debugAssert (offset < 0x1000)
  let scale := loadStoreScale insn
  if offset &&& ((1 : BitVec 32) <<< scale - 1) ≠ 0 then none
  else
    let imm12 := ((offset >>> scale) &&& 0xFFF) <<< 10
    return (insn &&& ~~~pageoff12Mask) ||| imm12

/-! ### What the architecture reads -/

/-- `B` or `BL`. -/
def IsBranch (w : BitVec 32) : Prop := w &&& 0x7C000000 = 0x14000000

/-- `ADRP`. -/
def IsAdrp (w : BitVec 32) : Prop := w &&& 0x9F000000 = 0x90000000

/-- `ADD (immediate)`, not shifted. -/
def IsAddImm (w : BitVec 32) : Prop := w &&& 0x7FC00000 = 0x11000000

/-- A load or store with an unsigned immediate; of the accesses to SIMD registers of 128 bits only
those with a size of 0 are allocated. -/
def IsAccess (w : BitVec 32) : Prop :=
  w &&& 0x3B000000 = 0x39000000 ∧ (w &&& 0x04800000 = 0x04800000 → w.extractLsb' 30 2 = 0)

/-- The signed displacement of a branch, in bytes. -/
def branchOffset (w : BitVec 32) : ℤ := 4 * (w.extractLsb' 0 26).toInt

/-- The signed displacement of `ADRP`, in bytes. -/
def adrpOffset (w : BitVec 32) : ℤ := 4096 * (w.extractLsb' 5 19 ++ w.extractLsb' 29 2).toInt

/-- The scale of an access: bit 23 of an access to a SIMD register stands above the size. -/
def accessScale (w : BitVec 32) : ℕ :=
  (if w.getLsbD 26 then 4 * (w.getLsbD 23).toNat else 0) + (w.extractLsb' 30 2).toNat

/-- The bytes an `ADD` or an access counts its immediate in. -/
def immediateUnit (w : BitVec 32) : ℕ :=
  if w &&& 0x3B000000 = 0x39000000 then 2 ^ accessScale w else 1

/-- The byte offset of an `ADD` or an access. -/
def immediateOffset (w : BitVec 32) : ℕ := (w.extractLsb' 10 12).toNat * immediateUnit w

/-- The displacements a branch can hold. -/
def BranchFits (d : ℤ) : Prop := d % 4 = 0 ∧ -2 ^ 27 ≤ d ∧ d < 2 ^ 27

/-- The page displacements `ADRP` can hold. -/
def PageFits (d : ℤ) : Prop := -2 ^ 32 ≤ d ∧ d < 2 ^ 32

instance (d : ℤ) : Decidable (BranchFits d) := inferInstanceAs (Decidable (_ ∧ _))

instance (d : ℤ) : Decidable (PageFits d) := inferInstanceAs (Decidable (_ ∧ _))

/-! ### Bits outside a field -/

section Fields

variable (insn imm : BitVec 32)

/-- Outside its mask a patched word keeps its bits. -/
lemma patched_and_not {m v : BitVec 32} (hv : v &&& ~~~m = 0#32) :
    ((insn &&& ~~~m) ||| v) &&& ~~~m = insn &&& ~~~m := by
  rw [BitVec.and_or_distrib_right, hv, BitVec.and_assoc, BitVec.and_self, BitVec.or_zero]

/-- Words that agree outside a mask agree on every mask beside it. -/
lemma and_congr_of_and_not {w w' m c : BitVec 32} (h : w' &&& ~~~m = w &&& ~~~m)
    (hc : ~~~m &&& c = c) : w' &&& c = w &&& c := by
  rw [← hc, ← BitVec.and_assoc, h, BitVec.and_assoc]

/-! ### The branch field -/

lemma branch26_and_not : (imm &&& branch26Mask) &&& ~~~branch26Mask = 0#32 := by
  rw [BitVec.and_assoc, show branch26Mask &&& ~~~branch26Mask = 0#32 by decide, BitVec.and_zero]

lemma branch26_field :
    ((insn &&& ~~~branch26Mask) ||| (imm &&& branch26Mask)).extractLsb' 0 26 =
      imm.extractLsb' 0 26 := by
  rw [BitVec.extractLsb'_or, BitVec.extractLsb'_and, BitVec.extractLsb'_and,
    show (~~~branch26Mask).extractLsb' 0 26 = 0#26 by decide,
    show branch26Mask.extractLsb' 0 26 = BitVec.allOnes 26 by decide, BitVec.and_zero,
    BitVec.and_allOnes, BitVec.zero_or]

lemma toInt_branch26 {x : ℤ} (hlow : -2 ^ 25 ≤ x) (hhigh : x < 2 ^ 25) :
    ((BitVec.ofInt 32 x).extractLsb' 0 26).toInt = x := by
  have hnarrow : (BitVec.ofInt 32 x).extractLsb' 0 26 = BitVec.ofInt 26 x := by
    apply BitVec.eq_of_toNat_eq
    rw [BitVec.extractLsb'_toNat, BitVec.toNat_ofInt, BitVec.toNat_ofInt, Nat.shiftRight_zero]
    omega
  rw [hnarrow, BitVec.toInt_ofInt, Int.bmod_def]
  omega

/-! ### The page field -/

/-- The two parts of an `ADRP` immediate in their slots. -/
def pageParts (imm : BitVec 32) : BitVec 32 :=
  ((imm &&& 0b11) <<< 29) ||| (((imm >>> 2) &&& 0x7FFFF) <<< 5)

/-- The bits of a word of ones. -/
lemma getLsbD_ones {n : ℕ} (hn : n ≤ 32) (i : ℕ) :
    (BitVec.ofNat 32 (2 ^ n - 1)).getLsbD i = decide (i < n) := by
  rw [BitVec.getLsbD_ofNat, Nat.testBit_two_pow_sub_one]
  by_cases h : i < n
  · rw [decide_eq_true h, Bool.and_true]
    exact decide_eq_true (by omega)
  · rw [decide_eq_false h, Bool.and_false]

lemma bit_pageParts (i : ℕ) : (pageParts imm).getLsbD i =
    if 29 ≤ i ∧ i < 31 then imm.getLsbD (i - 29)
    else if 5 ≤ i ∧ i < 24 then imm.getLsbD (i - 3) else false := by
  have hthree := getLsbD_ones (n := 2) (by norm_num)
  have hhigh := getLsbD_ones (n := 19) (by norm_num)
  change ∀ i, (0b11 : BitVec 32).getLsbD i = _ at hthree
  change ∀ i, (0x7FFFF : BitVec 32).getLsbD i = _ at hhigh
  rw [pageParts, BitVec.getLsbD_or, BitVec.getLsbD_shiftLeft, BitVec.getLsbD_shiftLeft,
    BitVec.getLsbD_and, BitVec.getLsbD_and, BitVec.getLsbD_ushiftRight, hthree, hhigh]
  by_cases hlo : 29 ≤ i ∧ i < 31
  · rw [if_pos hlo]
    simp [show i < 32 by omega, show ¬ i < 29 by omega, show i - 29 < 2 by omega,
      show ¬ i - 5 < 19 by omega]
  · have hnone : (decide (i < 32) && !decide (i < 29) &&
        (imm.getLsbD (i - 29) && decide (i - 29 < 2))) = false := by
      simp
      omega
    rw [if_neg hlo, hnone, Bool.false_or]
    by_cases hhi : 5 ≤ i ∧ i < 24
    · rw [if_pos hhi]
      simp [show i < 32 by omega, show ¬ i < 5 by omega, show i - 5 < 19 by omega,
        show 2 + (i - 5) = i - 3 by omega]
    · rw [if_neg hhi]
      simp
      omega

lemma bit_page21Mask : ∀ i : Fin 32, page21Mask.getLsbD i =
    decide (5 ≤ i.val ∧ i.val < 24 ∨ 29 ≤ i.val ∧ i.val < 31) := by decide

/-- The parts stay in the mask. -/
lemma pageParts_and_not : pageParts imm &&& ~~~page21Mask = 0#32 := by
  ext i hi
  have hmask := bit_page21Mask ⟨i, hi⟩
  have hparts := bit_pageParts imm i
  dsimp only at hmask
  rw [BitVec.getLsbD_eq_getElem hi] at hparts hmask
  rw [BitVec.getElem_and, BitVec.getElem_not, hparts, hmask, BitVec.getElem_zero]
  by_cases hlo : 29 ≤ i ∧ i < 31
  · simp [hlo]
  · by_cases hhi : 5 ≤ i ∧ i < 24
    · simp [hhi]
    · simp [hlo, hhi]

lemma page21_field :
    let w := (insn &&& ~~~page21Mask) ||| pageParts imm
    w.extractLsb' 5 19 ++ w.extractLsb' 29 2 = imm.extractLsb' 0 21 := by
  intro w
  have hlow : w.extractLsb' 29 2 = imm.extractLsb' 0 2 := by
    rw [BitVec.extractLsb'_or, BitVec.extractLsb'_and,
      show (~~~page21Mask).extractLsb' 29 2 = 0#2 by decide, BitVec.and_zero, BitVec.zero_or]
    ext i hi
    rw [BitVec.getElem_extractLsb', BitVec.getElem_extractLsb', bit_pageParts, if_pos (by omega),
      Nat.add_sub_cancel_left, Nat.zero_add]
  have hhigh : w.extractLsb' 5 19 = imm.extractLsb' 2 19 := by
    rw [BitVec.extractLsb'_or, BitVec.extractLsb'_and,
      show (~~~page21Mask).extractLsb' 5 19 = 0#19 by decide, BitVec.and_zero, BitVec.zero_or]
    ext i hi
    rw [BitVec.getElem_extractLsb', BitVec.getElem_extractLsb', bit_pageParts, if_neg (by omega),
      if_pos (by omega), show 5 + i - 3 = 2 + i by omega]
  rw [hlow, hhigh]
  exact BitVec.extractLsb'_append_extractLsb'_eq_extractLsb' rfl

lemma toInt_page21 {x : BitVec 64} (hlow : -2 ^ 20 ≤ x.toInt) (hhigh : x.toInt < 2 ^ 20) :
    ((x.setWidth 32).extractLsb' 0 21).toInt = x.toInt := by
  have hnarrow : (x.setWidth 32).extractLsb' 0 21 = x.setWidth 21 := by
    apply BitVec.eq_of_toNat_eq
    rw [BitVec.extractLsb'_toNat, BitVec.toNat_setWidth, BitVec.toNat_setWidth,
      Nat.shiftRight_zero]
    omega
  rw [BitVec.toInt_eq_toNat_bmod, Int.bmod_def] at hlow hhigh
  rw [hnarrow, BitVec.toInt_setWidth, BitVec.toInt_eq_toNat_bmod, Int.bmod_def, Int.bmod_def]
  omega

/-! ### The page offset field -/

/-- A shifted offset in its slot. -/
def pageOffsetPart (imm : BitVec 32) : BitVec 32 := (imm &&& 0xFFF) <<< 10

lemma bit_pageOffsetPart (i : ℕ) : (pageOffsetPart imm).getLsbD i =
    if 10 ≤ i ∧ i < 22 then imm.getLsbD (i - 10) else false := by
  have hones := getLsbD_ones (n := 12) (by norm_num)
  change ∀ i, (0xFFF : BitVec 32).getLsbD i = _ at hones
  rw [pageOffsetPart, BitVec.getLsbD_shiftLeft, BitVec.getLsbD_and, hones]
  by_cases hin : 10 ≤ i ∧ i < 22
  · rw [if_pos hin]
    simp [show i < 32 by omega, show ¬ i < 10 by omega, show i - 10 < 12 by omega]
  · rw [if_neg hin]
    simp
    omega

lemma bit_pageoff12Mask : ∀ i : Fin 32,
    pageoff12Mask.getLsbD i = decide (10 ≤ i.val ∧ i.val < 22) := by decide

/-- The offset stays in the mask. -/
lemma pageOffsetPart_and_not : pageOffsetPart imm &&& ~~~pageoff12Mask = 0#32 := by
  ext i hi
  have hmask := bit_pageoff12Mask ⟨i, hi⟩
  have hpart := bit_pageOffsetPart imm i
  dsimp only at hmask
  rw [BitVec.getLsbD_eq_getElem hi] at hpart hmask
  rw [BitVec.getElem_and, BitVec.getElem_not, hpart, hmask, BitVec.getElem_zero]
  by_cases hin : 10 ≤ i ∧ i < 22
  · simp [hin]
  · simp [hin]

lemma pageoff12_field :
    ((insn &&& ~~~pageoff12Mask) ||| pageOffsetPart imm).extractLsb' 10 12 =
      imm.extractLsb' 0 12 := by
  rw [BitVec.extractLsb'_or, BitVec.extractLsb'_and,
    show (~~~pageoff12Mask).extractLsb' 10 12 = 0#12 by decide, BitVec.and_zero, BitVec.zero_or]
  ext i hi
  rw [BitVec.getElem_extractLsb', BitVec.getElem_extractLsb', bit_pageOffsetPart,
    if_pos (by omega), Nat.add_sub_cancel_left, Nat.zero_add]

end Fields

/-! ### The patchers put what is read back -/

lemma Profile.debugAssert_eq_none {p : Profile} {c : Prop} [Decidable c] :
    p.debugAssert c = none ↔ p.debugAssertions = true ∧ ¬ c := by
  rw [Profile.debugAssert]
  split_ifs with h
  · exact ⟨fun _ => h, fun _ => rfl⟩
  · exact ⟨nofun, fun h' => absurd h' h⟩

lemma Profile.debugAssert_of_pos (p : Profile) {c : Prop} [Decidable c] (hc : c) :
    p.debugAssert c = some () :=
  if_neg fun h => h.2 hc

lemma Profile.debugAssert_of_off {p : Profile} (hp : p.debugAssertions = false) (c : Prop)
    [Decidable c] : p.debugAssert c = some () :=
  if_neg fun h => by rw [hp] at h; exact absurd h.1 Bool.false_ne_true

section Patchers

variable {p : Profile} {insn w : BitVec 32}

lemma tdiv_four {d : ℤ} (h : d % 4 = 0) : d.tmod 4 = 0 ∧ d.tdiv 4 = d / 4 :=
  ⟨Int.tmod_eq_zero_of_dvd (Int.dvd_of_emod_eq_zero h),
    Int.tdiv_eq_ediv_of_dvd (Int.dvd_of_emod_eq_zero h)⟩

lemma branchFits_iff {d : ℤ} :
    BranchFits d ↔ d.tmod 4 = 0 ∧ -2 ^ 25 ≤ d.tdiv 4 ∧ d.tdiv 4 < 2 ^ 25 := by
  constructor
  · rintro ⟨hmod, hlow, hhigh⟩
    rw [(tdiv_four hmod).2]
    exact ⟨(tdiv_four hmod).1, by omega, by omega⟩
  · rintro ⟨hmod, hlow, hhigh⟩
    have hdvd := Int.emod_eq_zero_of_dvd (Int.dvd_of_tmod_eq_zero hmod)
    rw [(tdiv_four hdvd).2] at hlow hhigh
    exact ⟨hdvd, by omega, by omega⟩

/-- The word `patch_branch26` builds. -/
lemma patchBranch26_spec (p : Profile) (insn : BitVec 32) (d : ℤ) :
    (patchBranch26 p insn d = none ∧ p.debugAssertions = true ∧ ¬ BranchFits d) ∨
      ∃ w, patchBranch26 p insn d = some w ∧ (p.debugAssertions = true → BranchFits d) ∧
        w &&& ~~~branch26Mask = insn &&& ~~~branch26Mask ∧
        (BranchFits d → branchOffset w = d) := by
  by_cases hstop : p.debugAssertions = true ∧ ¬ BranchFits d
  · refine Or.inl ⟨?_, hstop⟩
    rw [patchBranch26]
    by_cases hmod : d.tmod 4 = 0
    · have hrange : ¬ (-2 ^ 25 ≤ d.tdiv 4 ∧ d.tdiv 4 < 2 ^ 25) := fun h =>
        hstop.2 (branchFits_iff.mpr ⟨hmod, h⟩)
      rw [p.debugAssert_of_pos hmod]
      dsimp only [Bind.bind, Option.bind]
      rw [Profile.debugAssert_eq_none.mpr ⟨hstop.1, hrange⟩]
    · rw [Profile.debugAssert_eq_none.mpr ⟨hstop.1, hmod⟩]
      rfl
  · refine Or.inr ⟨(insn &&& ~~~branch26Mask) |||
      (BitVec.ofInt 32 (d.tdiv 4) &&& branch26Mask), ?_, ?_, ?_, ?_⟩
    · rw [patchBranch26]
      cases hp : p.debugAssertions with
      | true =>
        have hfits := branchFits_iff.mp (by_contra fun h => hstop ⟨hp, h⟩)
        rw [p.debugAssert_of_pos hfits.1]
        dsimp only [Bind.bind, Option.bind]
        rw [p.debugAssert_of_pos hfits.2]
        rfl
      | false =>
        rw [Profile.debugAssert_of_off hp]
        dsimp only [Bind.bind, Option.bind]
        rw [Profile.debugAssert_of_off hp]
        rfl
    · exact fun hp => by_contra fun h => hstop ⟨hp, h⟩
    · exact patched_and_not insn (branch26_and_not _)
    · intro hfits
      obtain ⟨hmod, hlow, hhigh⟩ := branchFits_iff.mp hfits
      rw [branchOffset, branch26_field, toInt_branch26 hlow hhigh, (tdiv_four hfits.1).2]
      have := hfits.1
      omega

lemma toInt_of_page {x : BitVec 64} (h : x &&& 0xFFF = 0) :
    (x.sshiftRight 12).toInt = x.toInt / 4096 ∧ x.toInt % 4096 = 0 := by
  have hlow : x.toNat % 4096 = 0 := by
    have := congrArg BitVec.toNat h
    rw [BitVec.toNat_and] at this
    exact (Nat.and_two_pow_sub_one_eq_mod x.toNat 12).symm.trans this
  refine ⟨?_, ?_⟩
  · rw [BitVec.toInt_sshiftRight, Int.shiftRight_eq_div_pow]
    rfl
  · rw [BitVec.toInt_eq_toNat_bmod, Int.bmod_def]
    omega

/-- The word `patch_page21` builds from a displacement of whole pages. -/
lemma patchPage21_spec (p : Profile) (insn : BitVec 32) {x : BitVec 64} (hpage : x &&& 0xFFF = 0) :
    (patchPage21 p insn x = none ∧ p.debugAssertions = true ∧ ¬ PageFits x.toInt) ∨
      ∃ w, patchPage21 p insn x = some w ∧ (p.debugAssertions = true → PageFits x.toInt) ∧
        w &&& ~~~page21Mask = insn &&& ~~~page21Mask ∧
        (PageFits x.toInt → adrpOffset w = x.toInt) := by
  obtain ⟨hshift, hmod⟩ := toInt_of_page hpage
  have hfits_iff : PageFits x.toInt ↔
      -2 ^ 20 ≤ (x.sshiftRight 12).toInt ∧ (x.sshiftRight 12).toInt < 2 ^ 20 := by
    rw [hshift, PageFits]
    omega
  by_cases hstop : p.debugAssertions = true ∧ ¬ PageFits x.toInt
  · refine Or.inl ⟨?_, hstop⟩
    have hrange := hstop.2
    rw [hfits_iff] at hrange
    rw [patchPage21, p.debugAssert_of_pos hpage]
    dsimp only [Bind.bind, Option.bind]
    rw [Profile.debugAssert_eq_none.mpr ⟨hstop.1, hrange⟩]
  · refine Or.inr ⟨(insn &&& ~~~page21Mask) |||
      pageParts ((x.sshiftRight 12).setWidth 32), ?_, ?_, ?_, ?_⟩
    · rw [patchPage21, p.debugAssert_of_pos hpage, pageParts, ← BitVec.or_assoc]
      dsimp only [Bind.bind, Option.bind]
      cases hp : p.debugAssertions with
      | true =>
        have hfits := hfits_iff.mp (by_contra fun h => hstop ⟨hp, h⟩)
        rw [p.debugAssert_of_pos hfits]
        rfl
      | false =>
        rw [Profile.debugAssert_of_off hp]
        rfl
    · exact fun hp => by_contra fun h => hstop ⟨hp, h⟩
    · exact patched_and_not insn (pageParts_and_not _)
    · intro hfits
      obtain ⟨hlow, hhigh⟩ := hfits_iff.mp hfits
      rw [adrpOffset, page21_field, toInt_page21 hlow hhigh, hshift]
      omega

/-! ### The scale of an access -/

/-- Bits 26 and 23 of a word. -/
lemma and_access128 (w : BitVec 32) :
    w &&& 0x04800000 = 0x04800000 ↔ w.getLsbD 26 = true ∧ w.getLsbD 23 = true := by
  have hmask : ∀ i : Fin 32, (0x04800000 : BitVec 32).getLsbD i =
      decide (i.val = 26 ∨ i.val = 23) := by decide
  constructor
  · intro h
    have hbit : ∀ i : Fin 32, (i.val = 26 ∨ i.val = 23) → w.getLsbD i = true := by
      intro i hi
      have hi' := congrArg (fun v => v.getLsbD i) h
      rw [BitVec.getLsbD_and, hmask, decide_eq_true hi, Bool.and_true] at hi'
      exact hi'
    exact ⟨hbit 26 (Or.inl rfl), hbit 23 (Or.inr rfl)⟩
  · rintro ⟨h26, h23⟩
    apply BitVec.eq_of_getLsbD_eq
    intro i hi
    have hi' := hmask ⟨i, hi⟩
    dsimp only at hi'
    rw [BitVec.getLsbD_and, hi']
    by_cases hin : i = 26 ∨ i = 23
    · rcases hin with rfl | rfl
      · rw [h26]
        rfl
      · rw [h23]
        rfl
    · rw [decide_eq_false hin, Bool.and_false]

lemma shift_size (w : BitVec 32) : (w >>> 30).toNat = (w.extractLsb' 30 2).toNat := by
  have hlt := w.isLt
  rw [BitVec.toNat_ushiftRight, BitVec.extractLsb'_toNat, Nat.shiftRight_eq_div_pow,
    Nat.mod_eq_of_lt]
  omega

/-- `load_store_scale` is the architecture's scale. -/
lemma loadStoreScale_spec (hsite : IsAddImm insn ∨ IsAccess insn) :
    2 ^ loadStoreScale insn = immediateUnit insn ∧ loadStoreScale insn ≤ 4 := by
  have hsize := (insn.extractLsb' 30 2).isLt
  rw [loadStoreScale, immediateUnit]
  by_cases hclass : insn &&& 0x3B000000 = 0x39000000
  · rw [if_neg (not_not.mpr hclass), if_pos hclass]
    have haccess : IsAccess insn := by
      rcases hsite with hadd | haccess
      · have hmask : insn &&& 0x3B000000 &&& 0x3B000000 &&& 0x7FC00000 =
            insn &&& 0x7FC00000 &&& 0x3B000000 := by
          rw [BitVec.and_assoc, BitVec.and_assoc, BitVec.and_assoc]
          rfl
        rw [hclass, hadd] at hmask
        exact absurd hmask (by decide)
      · exact haccess
    by_cases hwide : insn &&& 0x04800000 = 0x04800000
    · have hbits := (and_access128 insn).mp hwide
      rw [if_pos hwide, accessScale, if_pos hbits.1, hbits.2, haccess.2 hwide]
      exact ⟨rfl, le_rfl⟩
    · rw [if_neg hwide, shift_size, accessScale]
      refine ⟨?_, by omega⟩
      by_cases h26 : insn.getLsbD 26 = true
      · have h23 : insn.getLsbD 23 = false := by
          by_contra h
          exact hwide ((and_access128 insn).mpr ⟨h26, Bool.eq_true_of_not_eq_false h⟩)
        rw [if_pos h26, h23]
        exact congrArg (2 ^ ·) (Nat.zero_add _).symm
      · rw [if_neg h26, Nat.zero_add]
  · rw [if_pos hclass, if_neg hclass]
    exact ⟨rfl, Nat.zero_le _⟩

/-- Words that agree outside the page offset have the same size field. -/
lemma extractLsb_size_congr (h : w &&& ~~~pageoff12Mask = insn &&& ~~~pageoff12Mask) :
    w.extractLsb' 30 2 = insn.extractLsb' 30 2 := by
  have hpart := congrArg (BitVec.extractLsb' 30 2) h
  rw [BitVec.extractLsb'_and, BitVec.extractLsb'_and,
    show (~~~pageoff12Mask).extractLsb' 30 2 = BitVec.allOnes 2 by decide, BitVec.and_allOnes,
    BitVec.and_allOnes] at hpart
  exact hpart

/-- Words that agree outside the page offset count their immediates in the same unit. -/
lemma immediateUnit_congr (h : w &&& ~~~pageoff12Mask = insn &&& ~~~pageoff12Mask) :
    immediateUnit w = immediateUnit insn := by
  have hclass : w &&& 0x3B000000 = insn &&& 0x3B000000 := and_congr_of_and_not h (by decide)
  have hbit : ∀ i : Fin 32, (i.val = 26 ∨ i.val = 23) → w.getLsbD i = insn.getLsbD i := by
    intro i hi
    have hi' := congrArg (fun v => v.getLsbD i) h
    have hmask : (~~~pageoff12Mask).getLsbD i = true := by
      rcases hi with hi | hi
      · rw [hi]
        decide
      · rw [hi]
        decide
    rw [BitVec.getLsbD_and, BitVec.getLsbD_and, hmask, Bool.and_true, Bool.and_true] at hi'
    exact hi'
  have hsize := extractLsb_size_congr h
  have h26 : w.getLsbD 26 = insn.getLsbD 26 := hbit 26 (Or.inl rfl)
  have h23 : w.getLsbD 23 = insn.getLsbD 23 := hbit 23 (Or.inr rfl)
  rw [immediateUnit, immediateUnit, hclass, accessScale, accessScale, h26, h23, hsize]

/-- A scaled offset is a multiple of the unit. -/
lemma and_unit_eq_zero {scale : ℕ} (h : scale ≤ 4) (offset : BitVec 32) :
    offset &&& ((1 : BitVec 32) <<< scale - 1) = 0 ↔ 2 ^ scale ∣ offset.toNat := by
  have hones : ((1 : BitVec 32) <<< scale) - 1 = BitVec.ofNat 32 (2 ^ scale - 1) := by
    interval_cases scale <;> rfl
  rw [hones, Nat.dvd_iff_mod_eq_zero, ← Nat.and_two_pow_sub_one_eq_mod, ← BitVec.toNat_inj,
    BitVec.toNat_and, BitVec.toNat_ofNat, Nat.mod_eq_of_lt]
  · rfl
  · interval_cases scale <;> norm_num

/-- The word `patch_pageoff12` builds; it refuses exactly the offsets that are no multiple of the
unit. -/
lemma patchPageoff12_spec (p : Profile) {offset : BitVec 32} (hlt : offset.toNat < 4096)
    (hsite : IsAddImm insn ∨ IsAccess insn) :
    (patchPageoff12 p insn offset = none ∧ ¬ immediateUnit insn ∣ offset.toNat) ∨
      ∃ w, patchPageoff12 p insn offset = some w ∧ immediateUnit insn ∣ offset.toNat ∧
        w &&& ~~~pageoff12Mask = insn &&& ~~~pageoff12Mask ∧
        immediateOffset w = offset.toNat := by
  obtain ⟨hunit, hscale⟩ := loadStoreScale_spec hsite
  have hassert : offset < 0x1000 := by
    rw [BitVec.lt_def]
    exact hlt
  rw [patchPageoff12, p.debugAssert_of_pos hassert, ← hunit]
  dsimp only [Bind.bind, Option.bind]
  by_cases haligned : offset &&& ((1 : BitVec 32) <<< loadStoreScale insn - 1) = 0
  · have hdvd := (and_unit_eq_zero hscale offset).mp haligned
    rw [if_neg (not_not.mpr haligned)]
    have hbits := patched_and_not insn (pageOffsetPart_and_not (offset >>> loadStoreScale insn))
    refine Or.inr ⟨_, rfl, hdvd, hbits, ?_⟩
    rw [immediateOffset, ← pageOffsetPart, immediateUnit_congr hbits, pageoff12_field, ← hunit,
      BitVec.extractLsb'_toNat, Nat.shiftRight_zero, BitVec.toNat_ushiftRight,
      Nat.shiftRight_eq_div_pow, Nat.mod_eq_of_lt (lt_of_le_of_lt (Nat.div_le_self _ _) hlt),
      Nat.div_mul_cancel hdvd]
  · rw [if_pos haligned]
    exact Or.inl ⟨rfl, fun h => haligned ((and_unit_eq_zero hscale offset).mpr h)⟩

end Patchers

end Torajs.Link
