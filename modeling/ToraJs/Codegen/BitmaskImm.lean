import Mathlib.Data.Finset.Card
import Mathlib.Data.Finset.Range
import ToraJs.Codegen.Constant

/-!
# Bitmask immediates are found

`enc::logical_imm` runs the hardware's decoding backwards.  A constant that some fields decode to is
a run of ones, rotated and repeated; the halving loop finds the element, the rotations are tried in
turn, and the fields that come out are not reserved.  With the wide moves, every constant is
materialised.
-/

namespace Torajs.Codegen

/-- Fields that are not reserved: an element has two bits at least, and is not all ones. -/
structure ValidFields (n immr imms : ℕ) : Prop where
  n_lt : n < 2
  immr_lt : immr < 64
  imms_lt : imms < 64
  size : 1 ≤ (64 * n + (63 - imms)).log2
  notOnes : imms % 2 ^ (64 * n + (63 - imms)).log2 ≠ 2 ^ (64 * n + (63 - imms)).log2 - 1

/-- A constant that a logical instruction can hold. -/
def IsBitmask (v : BitVec 64) : Prop :=
  ∃ n immr imms, ValidFields n immr imms ∧ decodeBitMasks n immr imms = v

/-- The fields that are found decode to the constant, and are found for every bitmask. -/
def EncodedExactly (v : BitVec 64) : Prop :=
  match logicalImm v with
  | some (n, immr, imms) => ValidFields n immr imms ∧ decodeBitMasks n immr imms = v
  | none => ¬ IsBitmask v

/-! ### Bitmasks are runs -/

lemma isRun_of_isBitmask {v : BitVec 64} (h : IsBitmask v) : ∃ j c r, IsRun v j c r := by
  obtain ⟨n, immr, imms, hvalid, rfl⟩ := h
  set j := (64 * n + (63 - imms)).log2 with hj
  have hn := hvalid.n_lt
  have hsix : j ≤ 6 := by
    have hlt : 64 * n + (63 - imms) < 2 ^ 7 := by omega
    by_cases hzero : 64 * n + (63 - imms) = 0
    · rw [hj, hzero]
      decide
    · exact Nat.lt_succ_iff.mp ((Nat.log2_lt hzero).mpr hlt)
  have hone : 1 ≤ j := hvalid.size
  have hones : imms % 2 ^ j ≠ 2 ^ j - 1 := hvalid.notOnes
  have hdiv : 2 ^ j * (64 / 2 ^ j) = 64 := by
    clear_value j
    interval_cases j <;> rfl
  have hlt : imms % 2 ^ j < 2 ^ j := Nat.mod_lt _ (by positivity)
  refine ⟨j, imms % 2 ^ j + 1, immr % 2 ^ j, hone, hsix, Nat.succ_pos _, by omega, fun i hi => ?_⟩
  exact getLsbD_decodeBitMasks rfl hdiv hi

/-- The fields of a constant are valid. -/
lemma validFields_of_logicalImm {v : BitVec 64} {n immr imms : ℕ}
    (h : logicalImm v = some (n, immr, imms)) : ValidFields n immr imms := by
  obtain ⟨j, c, r, hrun, hr, rfl, rfl, rfl⟩ := isRun_of_logicalImm h
  obtain ⟨hlog, hS⟩ := log2_fields hrun.one_le hrun.le_six hrun.pos hrun.lt
  have hle := two_pow_le_64 hrun.le_six
  have hc := hrun.lt
  have hmod : (2 ^ j - r) % 2 ^ j < 2 ^ j := Nat.mod_lt _ (by positivity)
  have himms : (63 - (2 ^ j * 2 - 1) % 64) ||| (c - 1) < 2 ^ 6 :=
    Nat.or_lt_two_pow (by omega) (by omega)
  refine ⟨by split_ifs <;> omega, by omega, himms, ?_, ?_⟩
  · rw [hlog]
    exact hrun.one_le
  · rw [hlog]
    omega

/-! ### A rotated run -/

section Run

variable {e c r : ℕ}

/-- A rotation is undone. -/
lemma unrotate (hr : r < e) {k : ℕ} (hk : k < e) : ((k + (e - r)) % e + r) % e = k := by
  rw [Nat.mod_add_mod, show k + (e - r) + r = k + e by omega, Nat.add_mod_right,
    Nat.mod_eq_of_lt hk]

lemma unrotate' (hr : r < e) {k : ℕ} (hk : k < e) : ((k + r) % e + (e - r)) % e = k := by
  rw [Nat.mod_add_mod, show k + r + (e - r) = k + e by omega, Nat.add_mod_right,
    Nat.mod_eq_of_lt hk]

/-- A rotated run has as many bits as the run. -/
lemma card_rotated (hr : r < e) (hc : c ≤ e) :
    ((Finset.range e).filter fun i => (i + r) % e < c).card = c := by
  have he : 0 < e := by omega
  have hbij : ((Finset.range e).filter fun i => (i + r) % e < c).card = (Finset.range c).card := by
    refine Finset.card_nbij' (fun i => (i + r) % e) (fun k => (k + (e - r)) % e) ?_ ?_ ?_ ?_
    · intro i hi
      rw [Finset.mem_coe, Finset.mem_filter] at hi
      exact Finset.mem_coe.mpr (Finset.mem_range.mpr hi.2)
    · intro k hk
      rw [Finset.mem_coe, Finset.mem_range] at hk
      rw [Finset.mem_coe, Finset.mem_filter, Finset.mem_range, unrotate hr (by omega)]
      exact ⟨Nat.mod_lt _ he, hk⟩
    · intro i hi
      rw [Finset.mem_coe, Finset.mem_filter, Finset.mem_range] at hi
      exact unrotate' hr hi.1
    · intro k hk
      rw [Finset.mem_coe, Finset.mem_range] at hk
      exact unrotate hr (by omega)
  rw [hbij, Finset.card_range]

end Run

namespace IsRun

variable {v : BitVec 64} {j c r : ℕ}

/-- A rotation by less than the element does. -/
lemma mod (h : IsRun v j c r) : IsRun v j c (r % 2 ^ j) :=
  ⟨h.one_le, h.le_six, h.pos, h.lt, fun i hi => by rw [h.bit i hi, Nat.add_mod_mod]⟩

lemma ne_zero (h : IsRun v j c r) (hr : r < 2 ^ j) : v ≠ 0 := by
  have hle := two_pow_le_64 h.le_six
  have hpos : 0 < 2 ^ j := by positivity
  have hlt : (0 + (2 ^ j - r)) % 2 ^ j < 2 ^ j := Nat.mod_lt _ hpos
  have hbit := h.bit ((0 + (2 ^ j - r)) % 2 ^ j) (by omega)
  rw [Nat.mod_mod, unrotate hr hpos, decide_eq_true h.pos] at hbit
  rintro rfl
  rw [show (0 : BitVec 64).getLsbD _ = false from BitVec.getLsbD_zero (w := 64)] at hbit
  cases hbit

lemma ne_ones (h : IsRun v j c r) (hr : r < 2 ^ j) : v ≠ ~~~0 := by
  have hle := two_pow_le_64 h.le_six
  have hpos : 0 < 2 ^ j := by positivity
  have hlt : (c + (2 ^ j - r)) % 2 ^ j < 2 ^ j := Nat.mod_lt _ hpos
  have hbit := h.bit ((c + (2 ^ j - r)) % 2 ^ j) (by omega)
  rw [Nat.mod_mod, unrotate hr h.lt, decide_eq_false (lt_irrefl c)] at hbit
  rintro rfl
  rw [getLsbD_not_zero (by omega)] at hbit
  cases hbit

/-- The bits of an element. -/
lemma bit_of_lt (h : IsRun v j c r) {i : ℕ} (hi : i < 2 ^ j) :
    v.getLsbD i = decide ((i + r) % 2 ^ j < c) := by
  have hle := two_pow_le_64 h.le_six
  rw [h.bit i (by omega), Nat.mod_eq_of_lt hi]

/-- Above the element the halves agree. -/
lemma halves_agree (h : IsRun v j c r) {k : ℕ} (hk : j ≤ k) (hk5 : k ≤ 5) :
    v &&& lowOnes (2 ^ k) = (v >>> 2 ^ k) &&& lowOnes (2 ^ k) := by
  have hle : 2 ^ k ≤ 32 := Nat.pow_le_pow_right (by norm_num) hk5
  apply BitVec.eq_of_getLsbD_eq
  intro i hi
  rw [BitVec.getLsbD_and, BitVec.getLsbD_and, getLsbD_lowOnes _ hi, BitVec.getLsbD_ushiftRight]
  by_cases hlow : i < 2 ^ k
  · obtain ⟨d, hd⟩ := Nat.pow_dvd_pow 2 hk
    rw [h.bit i hi, h.bit (2 ^ k + i) (by omega), hd, Nat.mul_add_mod]
  · rw [decide_eq_false hlow, Bool.and_false, Bool.and_false]

/-- The halves of the element differ. -/
lemma halves_differ (h : IsRun v (j + 1) c r) (hr : r < 2 ^ (j + 1)) :
    v &&& lowOnes (2 ^ j) ≠ (v >>> 2 ^ j) &&& lowOnes (2 ^ j) := by
  intro heq
  have hle := two_pow_le_64 h.le_six
  have hdouble : 2 ^ (j + 1) = 2 ^ j + 2 ^ j := by rw [pow_succ, Nat.mul_two]
  have hpos : 0 < 2 ^ j := by positivity
  have hc := h.lt
  have hhalf : ∀ k < 2 ^ j, v.getLsbD k = v.getLsbD (2 ^ j + k) := by
    intro k hk
    have hbit := congrArg (fun w => w.getLsbD k) heq
    simpa [getLsbD_lowOnes (2 ^ j) (show k < 64 by omega), hk] using hbit
  -- a bit of the run, by its place in the run
  have hplace : ∀ m < 2 ^ (j + 1), v.getLsbD ((m + (2 ^ (j + 1) - r)) % 2 ^ (j + 1)) =
      decide (m < c) := by
    intro m hm
    rw [h.bit_of_lt (Nat.mod_lt _ (by positivity)), unrotate hr hm]
  have hshift : ∀ m < 2 ^ (j + 1), decide (m < c) = decide ((m + 2 ^ j) % 2 ^ (j + 1) < c) := by
    intro m hm
    rw [← hplace m hm, ← hplace _ (Nat.mod_lt _ (by positivity)), Nat.mod_add_mod]
    have hcomm : m + 2 ^ j + (2 ^ (j + 1) - r) = m + (2 ^ (j + 1) - r) + 2 ^ j := by omega
    rw [hcomm, ← Nat.mod_add_mod (m + (2 ^ (j + 1) - r))]
    have hlt : (m + (2 ^ (j + 1) - r)) % 2 ^ (j + 1) < 2 ^ (j + 1) := Nat.mod_lt _ (by positivity)
    generalize (m + (2 ^ (j + 1) - r)) % 2 ^ (j + 1) = x at hlt
    by_cases hx : x < 2 ^ j
    · rw [hhalf x hx, Nat.mod_eq_of_lt (by omega), Nat.add_comm]
    · have hback : (x + 2 ^ j) % 2 ^ (j + 1) = x - 2 ^ j := by
        rw [Nat.mod_eq_sub_mod (by omega), Nat.mod_eq_of_lt (by omega)]
        omega
      rw [hback, hhalf (x - 2 ^ j) (by omega), show 2 ^ j + (x - 2 ^ j) = x by omega]
  have hfirst := hshift 0 (by positivity)
  rw [decide_eq_true h.pos, Nat.zero_add, Nat.mod_eq_of_lt (by omega)] at hfirst
  have hlast := hshift (2 ^ (j + 1) - 1) (by omega)
  have hwrap : (2 ^ (j + 1) - 1 + 2 ^ j) % 2 ^ (j + 1) = 2 ^ j - 1 := by
    rw [Nat.mod_eq_sub_mod (by omega), Nat.mod_eq_of_lt (by omega)]
    omega
  rw [hwrap, decide_eq_false (by omega)] at hlast
  have hlarge := of_decide_eq_true hfirst.symm
  have hsmall := of_decide_eq_false hlast.symm
  omega

/-- **The halving loop stops at the element.** -/
lemma elementSize_eq (h : IsRun v j c r) (hr : r < 2 ^ j) :
    ∀ fuel ≤ 5, j ≤ fuel + 1 → elementSize v fuel (2 ^ (fuel + 1)) = 2 ^ j
  | 0, _, hj => by
    have hone := h.one_le
    rw [show j = 1 by omega]
    rfl
  | fuel + 1, hfuel, hj => by
    have hhalf : 2 ^ (fuel + 1 + 1) / 2 = 2 ^ (fuel + 1) := by
      rw [pow_succ, Nat.mul_div_cancel _ (by norm_num)]
    have hbig : 2 < 2 ^ (fuel + 1 + 1) := by
      calc 2 < 2 ^ 2 := by norm_num
        _ ≤ 2 ^ (fuel + 1 + 1) := Nat.pow_le_pow_right (by norm_num) (by omega)
    rw [elementSize, if_pos hbig, hhalf]
    dsimp only
    rcases Nat.lt_or_ge j (fuel + 1 + 1) with hlt | hge
    · rw [if_neg (not_not.mpr (h.halves_agree (by omega) (by omega)))]
      exact elementSize_eq h hr fuel (by omega) (by omega)
    · obtain rfl : j = fuel + 1 + 1 := by omega
      rw [if_pos (h.halves_differ hr)]

/-- The ones of the element are counted. -/
lemma countOnes_element (h : IsRun v j c r) (hr : r < 2 ^ j) {elem : BitVec 64}
    (helem : ∀ k < 2 ^ j, elem.getLsbD k = v.getLsbD k)
    (hout : ∀ k, 2 ^ j ≤ k → elem.getLsbD k = false) : countOnes elem = c := by
  have hle := two_pow_le_64 h.le_six
  have hset : (Finset.range 64).filter (fun i => elem.getLsbD i = true) =
      (Finset.range (2 ^ j)).filter fun i => (i + r) % 2 ^ j < c := by
    ext i
    rw [Finset.mem_filter, Finset.mem_filter, Finset.mem_range, Finset.mem_range]
    rcases Nat.lt_or_ge i (2 ^ j) with hi | hi
    · rw [helem i hi, h.bit_of_lt hi, decide_eq_true_iff]
      exact and_congr_left fun _ => ⟨fun _ => hi, fun _ => by omega⟩
    · rw [hout i hi]
      exact ⟨fun hbad => absurd hbad.2 Bool.false_ne_true, fun hbad => absurd hbad.1 (by omega)⟩
  have hcount : countOnes elem = ((Finset.range 64).filter fun i => elem.getLsbD i = true).card := by
    simp only [countOnes, List.countP_eq_length_filter, Finset.card_def, Finset.filter_val,
      Finset.range_val, Multiset.range, Multiset.filter_coe, Multiset.coe_card,
      Bool.decide_eq_true]
  rw [hcount, hset, card_rotated hr h.lt.le]

/-- **The fields of a run are found.** -/
lemma logicalImm_ne_none (h : IsRun v j c r) (hr : r < 2 ^ j) : logicalImm v ≠ none := by
  have hle := two_pow_le_64 h.le_six
  have hpos : 0 < 2 ^ j := by positivity
  have hc := h.lt
  obtain ⟨hmask, helem, hout⟩ := getLsbD_element v hle
  have hsize : elementSize v 5 64 = 2 ^ j := h.elementSize_eq hr 5 le_rfl h.le_six
  rw [logicalImm, if_neg (not_or.mpr ⟨h.ne_zero hr, h.ne_ones hr⟩), hsize]
  dsimp only
  rw [h.countOnes_element hr helem hout]
  set mask : BitVec 64 := if 2 ^ j = 64 then ~~~0 else lowOnes (2 ^ j)
  have hrot : rorElement (2 ^ j) mask (v &&& mask) ((0 + (2 ^ j - r)) % 2 ^ j) = lowOnes c := by
    have hlt : (0 + (2 ^ j - r)) % 2 ^ j < 2 ^ j := Nat.mod_lt _ hpos
    apply BitVec.eq_of_getLsbD_eq
    intro k hk
    rw [getLsbD_lowOnes c hk]
    rcases Nat.lt_or_ge k (2 ^ j) with hlow | hhigh
    · rw [getLsbD_rorElement hle hlt hmask hout hlow, helem _ (Nat.mod_lt _ hpos),
        h.bit_of_lt (Nat.mod_lt _ hpos), Nat.add_mod_mod, Nat.zero_add, unrotate hr hlow]
    · rw [decide_eq_false (by omega), rorElement]
      split_ifs
      · exact hout k hhigh
      · rw [BitVec.getLsbD_and, hmask k hk, decide_eq_false (by omega), Bool.and_false]
  cases hfind : (List.range (2 ^ j)).find? fun r =>
      decide (rorElement (2 ^ j) mask (v &&& mask) r = lowOnes c) with
  | some r => exact fun hbad => by cases hbad
  | none =>
    have hnot := List.find?_eq_none.mp hfind _ (List.mem_range.mpr (Nat.mod_lt (0 + (2 ^ j - r)) hpos))
    exact absurd (decide_eq_true hrot) hnot

end IsRun

/-- `logical_imm` finds the fields of every bitmask, and they decode to it. -/
lemma encodedExactly (v : BitVec 64) : EncodedExactly v := by
  rw [EncodedExactly]
  cases hfields : logicalImm v with
  | none =>
    intro hmask
    obtain ⟨j, c, r, hrun⟩ := isRun_of_isBitmask hmask
    exact hrun.mod.logicalImm_ne_none (Nat.mod_lt _ (by positivity)) hfields
  | some f =>
    obtain ⟨n, immr, imms⟩ := f
    exact ⟨validFields_of_logicalImm hfields, decodeBitMasks_logicalImm hfields⟩

/-- **Every constant is materialised exactly.** -/
theorem constants_exact :
    (∀ v : BitVec 64, EncodedExactly v) ∧
      ∀ (fp : FpUnit) (s : Cpu) (d : Fin 31) (v : BitVec 64),
        (s.run fp (materializeConstI64 (.x d) v)).readX (.x d) = v :=
  ⟨encodedExactly, Cpu.readX_run_materializeConstI64⟩

end Torajs.Codegen
