import Mathlib.Data.List.FinRange
import ToraJs.Codegen.A64

/-!
# Constants in registers

`enc::logical_imm`, which finds the fields of a bitmask immediate, and
`operand::materialize_const_i64`, which places an arbitrary 64-bit constant with one
`ORR` or a `MOVZ`/`MOVN` and `MOVK`s.  The fields decode back to the constant, and the
emitted instructions leave the constant in the register.
-/

namespace Torajs.Codegen

/-! ### Bitmask immediates -/

/-- `(1 << n) - 1`. -/
def lowOnes (n : ℕ) : BitVec 64 := ((1 : BitVec 64) <<< n) - 1

/-- The halving loop of `logical_imm`: the smallest element size, from `size` down to
two, at which both halves of the element agree. -/
def elementSize (v : BitVec 64) : ℕ → ℕ → ℕ
  | 0, size => size
  | fuel + 1, size =>
    if 2 < size then
      let half := size / 2
      if v &&& lowOnes half ≠ (v >>> half) &&& lowOnes half then size
      else elementSize v fuel half
    else size

/-- `u64::count_ones`. -/
def countOnes (v : BitVec 64) : ℕ := (List.range 64).countP fun i => v.getLsbD i

/-- The closure `ror` of `logical_imm`: rotation of an element of the given size. -/
def rorElement (size : ℕ) (mask x : BitVec 64) (r : ℕ) : BitVec 64 :=
  if r = 0 then x else ((x >>> r) ||| (x <<< (size - r))) &&& mask

/-- `enc::logical_imm`: the fields `(N, immr, imms)`. -/
def logicalImm (v : BitVec 64) : Option (ℕ × ℕ × ℕ) :=
  if v = 0 ∨ v = ~~~0 then none
  else
    let size := elementSize v 5 64
    let mask := if size = 64 then ~~~0 else lowOnes size
    let elem := v &&& mask
    let ones := countOnes elem
    match (List.range size).find? fun r => rorElement size mask elem r = lowOnes ones with
    | none => none
    | some r =>
      some (if size = 64 then 1 else 0, (size - r) % size, (63 - (size * 2 - 1) % 64) ||| (ones - 1))

lemma getLsbD_lowOnes {i : ℕ} (n : ℕ) (hi : i < 64) : (lowOnes n).getLsbD i = decide (i < n) := by
  rcases Nat.lt_or_ge n 64 with hn | hn
  · have hpow : 2 ^ n < 2 ^ 64 := Nat.pow_lt_pow_right (by norm_num) hn
    have h1 : 1 ≤ 2 ^ n := Nat.one_le_two_pow
    have hval : lowOnes n = BitVec.ofNat 64 (2 ^ n - 1) := by
      apply BitVec.eq_of_toNat_eq
      have hone : (1 : BitVec 64).toNat = 1 := rfl
      rw [lowOnes, BitVec.toNat_sub, BitVec.toNat_shiftLeft, BitVec.toNat_ofNat, hone,
        Nat.shiftLeft_eq, one_mul, Nat.mod_eq_of_lt hpow]
      omega
    rw [hval, BitVec.getLsbD_ofNat, Nat.testBit_two_pow_sub_one]
    simp [hi]
  · have hval : lowOnes n = BitVec.allOnes 64 := by
      rw [lowOnes, BitVec.shiftLeft_eq_zero hn]
      decide
    rw [hval, BitVec.getLsbD_allOnes]
    simp [hi, Nat.lt_of_lt_of_le hi hn]

lemma getLsbD_not_zero {i : ℕ} (hi : i < 64) : (~~~(0 : BitVec 64)).getLsbD i = true := by
  rw [BitVec.getLsbD_not, decide_eq_true hi]
  exact congrArg not (BitVec.getLsbD_zero (w := 64))

/-- The bits repeat with the given period. -/
def Periodic (v : BitVec 64) (p : ℕ) : Prop := ∀ i < 64, v.getLsbD i = v.getLsbD (i % p)

/-- Equal halves halve the period. -/
lemma Periodic.half {v : BitVec 64} {h : ℕ} (hv : Periodic v (h + h)) (h0 : 0 < h) (hle : h ≤ 32)
    (heq : v &&& lowOnes h = (v >>> h) &&& lowOnes h) : Periodic v h := by
  have hbit : ∀ k < h, v.getLsbD k = v.getLsbD (h + k) := by
    intro k hk
    have := congrArg (fun w => w.getLsbD k) heq
    simpa [getLsbD_lowOnes h (show k < 64 by omega), hk] using this
  intro i hi
  rw [hv i hi]
  have hlt : i % (h + h) < h + h := Nat.mod_lt _ (by omega)
  have hmod : i % (h + h) % h = i % h := Nat.mod_mod_of_dvd i ⟨2, (mul_two h).symm⟩
  rcases Nat.lt_or_ge (i % (h + h)) h with hlo | hhi
  · rw [← hmod, Nat.mod_eq_of_lt hlo]
  · obtain ⟨k, hk⟩ := Nat.exists_eq_add_of_le hhi
    have hkh : k < h := by omega
    rw [← hmod, hk, Nat.add_mod_left, Nat.mod_eq_of_lt hkh, ← hbit k hkh]

/-- The element size is a power of two between 2 and 64, and a period. -/
lemma elementSize_spec (v : BitVec 64) : ∀ fuel ≤ 5, Periodic v (2 ^ (fuel + 1)) →
    ∃ j, 1 ≤ j ∧ j ≤ 6 ∧ elementSize v fuel (2 ^ (fuel + 1)) = 2 ^ j ∧ Periodic v (2 ^ j)
  | 0, _, hper => ⟨1, le_rfl, by norm_num, rfl, hper⟩
  | fuel + 1, hfuel, hper => by
    have hhalf : 2 ^ (fuel + 2) / 2 = 2 ^ (fuel + 1) := by
      rw [pow_succ, Nat.mul_div_cancel _ (by norm_num)]
    have hpos : 0 < 2 ^ (fuel + 1) := by positivity
    have hbig : 2 < 2 ^ (fuel + 2) := by
      calc 2 < 2 ^ 2 := by norm_num
        _ ≤ 2 ^ (fuel + 2) := Nat.pow_le_pow_right (by norm_num) (by omega)
    rw [elementSize, if_pos hbig, hhalf]
    dsimp only
    split_ifs with hne
    · exact ⟨fuel + 2, by omega, by omega, rfl, hper⟩
    · refine elementSize_spec v fuel (by omega) (Periodic.half ?_ hpos ?_ (not_not.mp hne))
      · rwa [show fuel + 1 + 1 = (fuel + 1) + 1 from rfl, pow_succ, mul_two] at hper
      · calc 2 ^ (fuel + 1) ≤ 2 ^ 5 := Nat.pow_le_pow_right (by norm_num) (by omega)
          _ = 32 := by norm_num

/-- The bits of a rotated element. -/
lemma getLsbD_rorElement {size r : ℕ} {mask x : BitVec 64} (hsize : size ≤ 64) (hr : r < size)
    (hmask : ∀ i < 64, mask.getLsbD i = decide (i < size))
    (hx : ∀ i, size ≤ i → x.getLsbD i = false) {i : ℕ} (hi : i < size) :
    (rorElement size mask x r).getLsbD i = x.getLsbD ((i + r) % size) := by
  by_cases h0 : r = 0
  · rw [rorElement, if_pos h0, h0, Nat.add_zero, Nat.mod_eq_of_lt hi]
  · rw [rorElement, if_neg h0, BitVec.getLsbD_and, BitVec.getLsbD_or, hmask i (by omega),
      BitVec.getLsbD_ushiftRight, BitVec.getLsbD_shiftLeft]
    rcases Nat.lt_or_ge (i + r) size with hlt | hge
    · rw [Nat.mod_eq_of_lt hlt, Nat.add_comm r i]
      simp [hi, show i < size - r by omega]
    · rw [Nat.mod_eq_sub_mod hge, Nat.mod_eq_of_lt (by omega), hx (r + i) (by omega),
        show i - (size - r) = i + r - size by omega]
      simp [hi, show i < 64 by omega, show ¬ i < size - r by omega]

/-- The bits of a decoded bitmask. -/
lemma getLsbD_decodeBitMasks {n immr imms e i : ℕ} (he : 2 ^ (64 * n + (63 - imms)).log2 = e)
    (h64 : e * (64 / e) = 64) (hi : i < 64) :
    (decodeBitMasks n immr imms).getLsbD i =
      decide ((i % e + immr % e) % e < imms % e + 1) := by
  have hpos : 0 < e := Nat.pos_of_mul_pos_right (by omega : 0 < e * (64 / e))
  have hlen : i < e * (64 / e) := by rwa [h64]
  have hmod : i % e < e := Nat.mod_lt _ hpos
  have hones : ∀ k < e, (BitVec.ofNat e (2 ^ (imms % e + 1) - 1)).getLsbD k =
      decide (k < imms % e + 1) := by
    intro k hk
    rw [BitVec.getLsbD_ofNat, Nat.testBit_two_pow_sub_one]
    simp [hk]
  unfold decodeBitMasks
  rw [he]
  dsimp only
  rw [BitVec.getLsbD_setWidth, BitVec.getLsbD_replicate, BitVec.getLsbD_rotateRight, Nat.mod_mod]
  have hr : immr % e < e := Nat.mod_lt _ hpos
  rcases Nat.lt_or_ge (i % e) (e - immr % e) with hlt | hge
  · have hsum : (i % e + immr % e) % e = immr % e + i % e := by
      rw [Nat.mod_eq_of_lt (by omega), Nat.add_comm]
    rw [hones _ (by omega), hsum]
    simp [hi, hlen, hlt]
  · have hsum : (i % e + immr % e) % e = i % e - (e - immr % e) := by
      rw [Nat.mod_eq_sub_mod (by omega), Nat.mod_eq_of_lt (by omega)]
      omega
    rw [hones (i % e - (e - immr % e)) (by omega), hsum]
    simp [hi, hlen, hmod, show ¬ i % e < e - immr % e by omega]

/-- The element size that the hardware reads off the fields. -/
lemma log2_fields {j c : ℕ} (h1 : 1 ≤ j) (h6 : j ≤ 6) (hc : 0 < c) (hlt : c < 2 ^ j) :
    (64 * (if 2 ^ j = 64 then 1 else 0) +
        (63 - ((63 - (2 ^ j * 2 - 1) % 64) ||| (c - 1)))).log2 = j ∧
      ((63 - (2 ^ j * 2 - 1) % 64) ||| (c - 1)) % 2 ^ j + 1 = c := by
  have hor : (63 - (2 ^ j * 2 - 1) % 64) ||| (c - 1) = 63 - (2 ^ j * 2 - 1) % 64 + (c - 1) := by
    have hshift : 63 - (2 ^ j * 2 - 1) % 64 = ((63 - (2 ^ j * 2 - 1) % 64) >>> j) <<< j := by
      interval_cases j <;> rfl
    rw [hshift, Nat.shiftLeft_add_eq_or_of_lt (by omega)]
  rw [hor]
  constructor
  · rw [Nat.log2_eq_iff (by split_ifs <;> interval_cases j <;> omega)]
    split_ifs <;> interval_cases j <;> omega
  · interval_cases j <;> omega

/-- The bits are a run of `c` ones in every element of `2 ^ j` bits, rotated right by `r`. -/
structure IsRun (v : BitVec 64) (j c r : ℕ) : Prop where
  one_le : 1 ≤ j
  le_six : j ≤ 6
  pos : 0 < c
  lt : c < 2 ^ j
  bit : ∀ i < 64, v.getLsbD i = decide ((i % 2 ^ j + r) % 2 ^ j < c)

/-- The mask of an element and the element, bit by bit. -/
lemma getLsbD_element {j : ℕ} (v : BitVec 64) (hle : 2 ^ j ≤ 64) :
    (∀ i < 64, (if 2 ^ j = 64 then ~~~0 else lowOnes (2 ^ j) : BitVec 64).getLsbD i =
      decide (i < 2 ^ j)) ∧
    (∀ k < 2 ^ j, (v &&& if 2 ^ j = 64 then ~~~0 else lowOnes (2 ^ j)).getLsbD k = v.getLsbD k) ∧
    ∀ k, 2 ^ j ≤ k → (v &&& if 2 ^ j = 64 then ~~~0 else lowOnes (2 ^ j)).getLsbD k = false := by
  have hmask : ∀ i < 64, (if 2 ^ j = 64 then ~~~0 else lowOnes (2 ^ j) : BitVec 64).getLsbD i =
      decide (i < 2 ^ j) := by
    intro i hi
    split_ifs with h64
    · rw [getLsbD_not_zero hi, h64, decide_eq_true hi]
    · exact getLsbD_lowOnes _ hi
  refine ⟨hmask, fun k hk => ?_, fun k hk => ?_⟩
  · rw [BitVec.getLsbD_and, hmask k (by omega)]
    simp [hk]
  · rw [BitVec.getLsbD_and]
    rcases Nat.lt_or_ge k 64 with hk' | hk'
    · rw [hmask k hk']
      simp [Nat.not_lt.mpr hk]
    · rw [BitVec.getLsbD_of_ge v k hk', Bool.false_and]

lemma two_pow_le_64 {j : ℕ} (h6 : j ≤ 6) : 2 ^ j ≤ 64 :=
  le_trans (Nat.pow_le_pow_right (by norm_num) h6) (by norm_num)

/-- What the fields that are found say of the constant. -/
lemma isRun_of_logicalImm {v : BitVec 64} {n immr imms : ℕ}
    (h : logicalImm v = some (n, immr, imms)) :
    ∃ j c r, IsRun v j c (2 ^ j - r) ∧ r < 2 ^ j ∧ n = (if 2 ^ j = 64 then 1 else 0) ∧
      immr = (2 ^ j - r) % 2 ^ j ∧ imms = (63 - (2 ^ j * 2 - 1) % 64) ||| (c - 1) := by
  rw [logicalImm] at h
  split_ifs at h with hv
  rw [not_or] at hv
  obtain ⟨hv0, hv1⟩ := hv
  obtain ⟨j, hj1, hj6, hsize, hper⟩ := elementSize_spec v 5 le_rfl fun i hi => by
    rw [Nat.mod_eq_of_lt (by simpa using hi)]
  rw [show 2 ^ (5 + 1) = 64 from rfl] at hsize
  rw [hsize] at h
  have hle := two_pow_le_64 hj6
  have hpos : 0 < 2 ^ j := by positivity
  obtain ⟨hmask, helem, hout⟩ := getLsbD_element v hle
  dsimp only at h
  set mask : BitVec 64 := if 2 ^ j = 64 then ~~~0 else lowOnes (2 ^ j) with hmaskdef
  set c := countOnes (v &&& mask) with hc
  cases hfind : (List.range (2 ^ j)).find? fun r =>
      decide (rorElement (2 ^ j) mask (v &&& mask) r = lowOnes c) with
  | none => simp [hfind] at h
  | some r =>
    rw [hfind] at h
    have hr : r < 2 ^ j := List.mem_range.mp (List.mem_of_find?_eq_some hfind)
    have hror : rorElement (2 ^ j) mask (v &&& mask) r = lowOnes c :=
      of_decide_eq_true (List.find?_some (p := fun r =>
        decide (rorElement (2 ^ j) mask (v &&& mask) r = lowOnes c)) hfind)
    -- the element is the run of ones, rotated left by `r`
    have hbits : ∀ k < 2 ^ j, v.getLsbD ((k + r) % 2 ^ j) = decide (k < c) := by
      intro k hk
      rw [← helem _ (Nat.mod_lt _ hpos), ← getLsbD_rorElement hle hr hmask hout hk, hror,
        getLsbD_lowOnes c (by omega)]
    have hback : ∀ k < 2 ^ j, ((k + (2 ^ j - r)) % 2 ^ j + r) % 2 ^ j = k := by
      intro k hk
      rw [Nat.mod_add_mod, show k + (2 ^ j - r) + r = k + 2 ^ j by omega, Nat.add_mod_right,
        Nat.mod_eq_of_lt hk]
    have helt : ∀ k < 2 ^ j, v.getLsbD k = decide ((k + (2 ^ j - r)) % 2 ^ j < c) := by
      intro k hk
      rw [← hbits _ (Nat.mod_lt _ hpos), hback k hk]
    have hc0 : 0 < c := by
      rw [Nat.pos_iff_ne_zero]
      intro h0
      apply hv0
      apply BitVec.eq_of_getLsbD_eq
      intro i hi
      rw [hper i hi, helt _ (Nat.mod_lt _ hpos), h0]
      simp
    have hclt : c < 2 ^ j := by
      by_contra hge
      apply hv1
      apply BitVec.eq_of_getLsbD_eq
      intro i hi
      rw [hper i hi, helt _ (Nat.mod_lt _ hpos)]
      have : (i % 2 ^ j + (2 ^ j - r)) % 2 ^ j < 2 ^ j := Nat.mod_lt _ hpos
      rw [getLsbD_not_zero hi, decide_eq_true (by omega)]
    simp only [Option.some.injEq, Prod.mk.injEq] at h
    obtain ⟨rfl, rfl, rfl⟩ := h
    refine ⟨j, c, r, ⟨hj1, hj6, hc0, hclt, fun i hi => ?_⟩, hr, rfl, rfl, rfl⟩
    rw [hper i hi, helt _ (Nat.mod_lt _ hpos)]

/-- **The fields of a bitmask immediate decode to it.** -/
lemma decodeBitMasks_logicalImm {v : BitVec 64} {n immr imms : ℕ}
    (h : logicalImm v = some (n, immr, imms)) : decodeBitMasks n immr imms = v := by
  obtain ⟨j, c, r, hrun, hr, rfl, rfl, rfl⟩ := isRun_of_logicalImm h
  obtain ⟨hlog, hS⟩ := log2_fields hrun.one_le hrun.le_six hrun.pos hrun.lt
  have hdiv : 2 ^ j * (64 / 2 ^ j) = 64 := by
    have h6 := hrun.le_six
    interval_cases j <;> rfl
  apply BitVec.eq_of_getLsbD_eq
  intro i hi
  have hexp : 2 ^ (64 * (if 2 ^ j = 64 then 1 else 0) +
      (63 - ((63 - (2 ^ j * 2 - 1) % 64) ||| (c - 1)))).log2 = 2 ^ j := by rw [hlog]
  rw [getLsbD_decodeBitMasks hexp hdiv hi, hS, hrun.bit i hi]
  simp only [Nat.mod_mod, Nat.add_mod_mod]

/-! ### Wide moves -/

/-- The 16 bits at quadrant `hw`. -/
def quad (v : BitVec 64) (hw : Fin 4) : BitVec 16 := v.extractLsb' (16 * hw.val) 16

/-- `materialize_const_i64`'s first wide move: `MOVN` for the dense-ones base, `MOVZ`
for the zero base. -/
def firstQuad (dst : Gpr) (dense : Bool) (q : BitVec 16) (hw : Fin 4) : Inst :=
  if dense then .movnImm dst (~~~q) hw else .movzImm dst q hw

/-- The quadrant value that the base fills in. -/
def skipQuad (dense : Bool) : BitVec 16 := if dense then 0xFFFF else 0

/-- The loop over the quadrants: those that the base leaves wrong, the first placed by
the base instruction and each other by a `MOVK`. -/
def wideMoves (dst : Gpr) (dense : Bool) (v : BitVec 64) : List Inst :=
  match (List.finRange 4).filter fun hw => quad v hw ≠ skipQuad dense with
  | [] => [firstQuad dst dense (skipQuad dense) 0]
  | hw :: rest =>
    firstQuad dst dense (quad v hw) hw :: rest.map fun hw' => .movkImm dst (quad v hw') hw'

/-- `operand::materialize_const_i64`. -/
def materializeConstI64 (dst : Gpr) (v : BitVec 64) : List Inst :=
  let zeros := (List.finRange 4).countP fun hw => quad v hw = 0
  let ones := (List.finRange 4).countP fun hw => quad v hw = 0xFFFF
  if max zeros ones < 3 then
    match logicalImm v with
    | some (n, immr, imms) => [.orrImm dst .xzr n immr imms]
    | none => wideMoves dst (ones > zeros) v
  else wideMoves dst (ones > zeros) v

lemma quad_setQuad (w : BitVec 64) (hw i : Fin 4) (q : BitVec 16) :
    quad (setQuad w hw q) i = if i = hw then q else quad w i := by
  apply BitVec.eq_of_getLsbD_eq
  intro k hk
  have hmask : (0xFFFF : BitVec 64) = lowOnes 16 := by decide
  rw [quad, setQuad, hmask, BitVec.getLsbD_extractLsb', BitVec.getLsbD_or, BitVec.getLsbD_and,
    BitVec.getLsbD_not, BitVec.getLsbD_shiftLeft, BitVec.getLsbD_shiftLeft, BitVec.getLsbD_setWidth,
    getLsbD_lowOnes _ (by omega : 16 * i.val + k - 16 * hw.val < 64)]
  split_ifs with h
  · subst h
    simp [hk, show 16 * i.val + k < 64 by omega, show k < 64 by omega]
  · have hne : i.val ≠ hw.val := fun h' => h (Fin.ext h')
    rw [quad, BitVec.getLsbD_extractLsb']
    rcases Nat.lt_or_gt_of_ne hne with hlt | hgt
    · simp [hk, show 16 * i.val + k < 64 by omega, show 16 * i.val + k < 16 * hw.val by omega]
    · have hge : ¬ 16 * i.val + k < 16 * hw.val := by omega
      have hout : ¬ 16 * i.val + k - 16 * hw.val < 16 := by omega
      simp [hk, show 16 * i.val + k < 64 by omega, hge, hout,
        BitVec.getLsbD_of_ge q _ (Nat.not_lt.mp hout)]

lemma eq_of_quad_eq {v w : BitVec 64} (h : ∀ hw, quad v hw = quad w hw) : v = w := by
  apply BitVec.eq_of_getLsbD_eq
  intro i hi
  have hbit := congrArg (fun q => q.getLsbD (i % 16)) (h ⟨i / 16, by omega⟩)
  simpa [quad, Nat.mod_lt i (show 0 < 16 by norm_num), Nat.div_add_mod] using hbit

lemma quad_not (w : BitVec 64) (hw : Fin 4) : quad (~~~w) hw = ~~~(quad w hw) := by
  apply BitVec.eq_of_getLsbD_eq
  intro k hk
  simp [quad, hk, show 16 * hw.val + k < 64 by omega]

namespace Cpu

variable (fp : FpUnit)

/-- The base instruction places its quadrant and fills the others. -/
lemma quad_firstQuad (s : Cpu) (d : Fin 31) (dense : Bool) (q : BitVec 16) (hw i : Fin 4) :
    quad ((s.step fp (firstQuad (.x d) dense q hw)).readX (.x d)) i =
      if i = hw then q else skipQuad dense := by
  have hzero : quad 0 i = 0 := by
    revert i
    decide
  cases dense with
  | false =>
    simp only [firstQuad, skipQuad, Bool.false_eq_true, if_false, step, readX_writeX_self]
    rw [quad_setQuad, hzero]
  | true =>
    simp only [firstQuad, skipQuad, if_true, step, readX_writeX_self]
    rw [quad_not, quad_setQuad, hzero]
    split_ifs
    · exact BitVec.not_not
    · decide

/-- The `MOVK`s correct their quadrants and leave the others. -/
lemma quad_run_movk (v : BitVec 64) (d : Fin 31) (i : Fin 4) (hws : List (Fin 4)) (s : Cpu) :
    quad ((s.run fp (hws.map fun hw => .movkImm (.x d) (quad v hw) hw)).readX (.x d)) i =
      if i ∈ hws then quad v i else quad (s.readX (.x d)) i := by
  induction hws generalizing s with
  | nil => rfl
  | cons hw hws ih =>
    rw [List.map_cons, run_cons, ih]
    simp only [step, readX_writeX_self, quad_setQuad, List.mem_cons]
    by_cases hmem : i ∈ hws
    · simp [hmem]
    · by_cases heq : i = hw
      · simp [heq]
      · simp [hmem, heq]

/-- The wide moves leave the constant. -/
lemma readX_run_wideMoves (s : Cpu) (d : Fin 31) (dense : Bool) (v : BitVec 64) :
    (s.run fp (wideMoves (.x d) dense v)).readX (.x d) = v := by
  apply eq_of_quad_eq
  intro i
  have hmem : i ∈ ((List.finRange 4).filter fun hw => quad v hw ≠ skipQuad dense) ↔
      quad v i ≠ skipQuad dense := by
    simp [List.mem_filter, List.mem_finRange]
  unfold wideMoves
  split
  · next hnil =>
    rw [hnil] at hmem
    have hskip : quad v i = skipQuad dense := by simpa using hmem
    rw [run_cons, run_nil, quad_firstQuad, hskip, ite_self]
  · next hw rest hcons =>
    rw [hcons, List.mem_cons] at hmem
    rw [run_cons, quad_run_movk, quad_firstQuad]
    by_cases hrest : i ∈ rest
    · rw [if_pos hrest]
    · rw [if_neg hrest]
      by_cases heq : i = hw
      · rw [if_pos heq, heq]
      · rw [if_neg heq]
        by_contra hne
        rcases hmem.mpr (Ne.symm hne) with h | h
        · exact heq h
        · exact hrest h

lemma keeps_run_movk (v : BitVec 64) {X : Set Reg} {M : Set (BitVec 64)} {d : Fin 31}
    (hd : Reg.gpr (.x d) ∈ X) (hws : List (Fin 4)) (s : Cpu) :
    Keeps X M s (s.run fp (hws.map fun hw => .movkImm (.x d) (quad v hw) hw)) := by
  induction hws generalizing s with
  | nil => exact Keeps.refl X M s
  | cons hw hws ih => exact (Keeps.writeX s hd _).trans (ih _)

lemma keeps_firstQuad (s : Cpu) {X : Set Reg} {M : Set (BitVec 64)} {d : Fin 31}
    (hd : Reg.gpr (.x d) ∈ X) (dense : Bool) (q : BitVec 16) (hw : Fin 4) :
    Keeps X M s (s.step fp (firstQuad (.x d) dense q hw)) := by
  cases dense <;> exact Keeps.writeX s hd _

lemma keeps_run_wideMoves (s : Cpu) {X : Set Reg} {M : Set (BitVec 64)} {d : Fin 31}
    (hd : Reg.gpr (.x d) ∈ X) (dense : Bool) (v : BitVec 64) :
    Keeps X M s (s.run fp (wideMoves (.x d) dense v)) := by
  unfold wideMoves
  split
  · exact keeps_firstQuad fp s hd dense _ _
  · exact (keeps_firstQuad fp s hd dense _ _).trans (keeps_run_movk fp v hd _ _)

/-- **A constant's instructions leave the constant in the register.** -/
lemma readX_run_materializeConstI64 (s : Cpu) (d : Fin 31) (v : BitVec 64) :
    (s.run fp (materializeConstI64 (.x d) v)).readX (.x d) = v := by
  unfold materializeConstI64
  dsimp only
  split_ifs
  · split
    · next n immr imms h =>
      rw [run_cons, run_nil, step, readX_writeBase_self, decodeBitMasks_logicalImm h]
      exact BitVec.zero_or
    · exact readX_run_wideMoves fp s d _ v
  · exact readX_run_wideMoves fp s d _ v

/-- They change no other register. -/
lemma keeps_run_materializeConstI64 (s : Cpu) {X : Set Reg} {M : Set (BitVec 64)} {d : Fin 31}
    (hd : Reg.gpr (.x d) ∈ X) (v : BitVec 64) :
    Keeps X M s (s.run fp (materializeConstI64 (.x d) v)) := by
  unfold materializeConstI64
  dsimp only
  split_ifs
  · split
    · exact Keeps.writeBase s hd _
    · exact keeps_run_wideMoves fp s hd _ v
  · exact keeps_run_wideMoves fp s hd _ v

end Cpu

end Torajs.Codegen
