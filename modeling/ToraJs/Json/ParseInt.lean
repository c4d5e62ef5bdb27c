import Mathlib.Data.List.TakeWhile
import Mathlib.Data.Nat.Digits.Defs
import ToraJs.Json.Source

/-!
# The integer reader

`parse_int.rs` accumulates the digits of an integer literal in an `i64`.  In the release
profile the accumulation wraps; in the development profile a step that overflows stops the
program.

The reader is exact exactly where the literal's digits denote a number below `2^63`.
-/

namespace Torajs.Json

/-! ### The reader -/

/-- `u8::is_ascii_digit`. -/
def isAsciiDigit (c : ℕ) : Bool := 0x30 ≤ c && c ≤ 0x39

/-- The digit loop: the cursor and the value behind it. -/
def digitLoop (data : JsonSrc) : ℕ → ℕ → BitVec 64 → ℕ × BitVec 64
  | 0, pos, value => (pos, value)
  | fuel + 1, pos, value =>
    if pos < data.len then
      let c := data.ascii pos
      if isAsciiDigit c then
        let value := value * 10 + BitVec.ofNat 64 (c - 0x30)
        if value = 0 then (pos + 1, value) else digitLoop data fuel (pos + 1) value
      else (pos, value)
    else (pos, value)

/-- The sign at a cursor, and the cursor behind it. -/
def readSign (data : JsonSrc) (pos : ℕ) : Bool × ℕ :=
  if pos < data.len ∧ data.ascii pos = 0x2D then (true, pos + 1) else (false, pos)

/-- What a run of the reader leaves: the cursor, the error it throws, the value. -/
structure IntResult where
  pos : ℕ
  error : Option JsonError
  value : BitVec 64
  deriving DecidableEq, Repr

/-- `__torajs_json_parse_int`. -/
def parseInt (data : JsonSrc) (pos : ℕ) : IntResult :=
  let start := skipWs data pos
  let (neg, digitsStart) := readSign data start
  let (pos, value) := digitLoop data (data.len - digitsStart) digitsStart 0
  if pos = digitsStart then ⟨pos, some ⟨"JSON.parse: expected number digits", start⟩, 0⟩
  else ⟨pos, none, if neg then -value else value⟩

/-! ### The same steps with their overflow seen -/

/-- A result of an operation on `i64`; nothing where it overflows. -/
def inI64 (x : ℤ) : Option ℤ := if -2 ^ 63 ≤ x ∧ x < 2 ^ 63 then some x else none

/-- The digit loop where every step must fit. -/
def checkedDigitLoop (data : JsonSrc) : ℕ → ℕ → ℤ → Option (ℕ × ℤ)
  | 0, pos, value => some (pos, value)
  | fuel + 1, pos, value =>
    if pos < data.len then
      let c := data.ascii pos
      if isAsciiDigit c then
        (inI64 (value * 10)).bind fun tens =>
          (inI64 (tens + (c - 0x30 : ℕ))).bind fun value =>
            if value = 0 then some (pos + 1, value) else checkedDigitLoop data fuel (pos + 1) value
      else some (pos, value)
    else some (pos, value)

/-- The reader where every step must fit: its value. -/
def checkedParseInt (data : JsonSrc) (pos : ℕ) : Option ℤ :=
  let (neg, digitsStart) := readSign data (skipWs data pos)
  (checkedDigitLoop data (data.len - digitsStart) digitsStart 0).bind fun r =>
    if r.1 = digitsStart then some 0 else if neg then inI64 (-r.2) else some r.2

/-! ### Literals -/

/-- The number a sequence of decimal digits denotes. -/
def decimalValue (ds : List ℕ) : ℕ := Nat.ofDigits 10 (ds.reverse.map (· - 0x30))

/-- The longest literal `-?(0|[1-9][0-9]*)` at the start of a text: sign, digits, rest. -/
structure IsIntLiteral (s : List ℕ) (neg : Bool) (ds rest : List ℕ) : Prop where
  split : s = (if neg then [0x2D] else []) ++ (ds ++ rest)
  digit : ∀ d ∈ ds, isAsciiDigit d = true
  nonempty : ds ≠ []
  /-- A leading zero is the whole literal; otherwise no further digit follows. -/
  longest : ds = [0x30] ∨ ds.head? ≠ some 0x30 ∧ ∀ d ∈ rest.head?, isAsciiDigit d = false

/-- The integer a literal denotes. -/
def literalValue (neg : Bool) (ds : List ℕ) : ℤ := if neg then -decimalValue ds else decimalValue ds

/-- **The reader is exact at a cursor**: on a literal it returns the denoted integer and leaves
the cursor behind it, or throws because no `i64` is that integer; without a digit it throws;
and no step overflows where it returns. -/
structure IntExact (data : JsonSrc) (pos : ℕ) : Prop where
  literal : ∀ neg ds rest, IsIntLiteral (data.units.drop (skipWs data pos)) neg ds rest →
    ((parseInt data pos).error = none ∧ (parseInt data pos).value.toInt = literalValue neg ds ∧
      data.units.drop (parseInt data pos).pos = rest) ∨
    ((parseInt data pos).error ≠ none ∧ inI64 (literalValue neg ds) = none)
  no_digit : (¬ ∃ neg ds rest, IsIntLiteral (data.units.drop (skipWs data pos)) neg ds rest) →
    (parseInt data pos).error =
      some ⟨"JSON.parse: expected number digits", skipWs data pos⟩
  no_overflow : (parseInt data pos).error = none →
    checkedParseInt data pos = some (parseInt data pos).value.toInt

/-- The condition: the digits of the literal denote a number below `2^63`. -/
def DigitsFit (data : JsonSrc) (pos : ℕ) : Prop :=
  ∀ neg ds rest, IsIntLiteral (data.units.drop (skipWs data pos)) neg ds rest →
    decimalValue ds < 2 ^ 63

/-! ### The digits of a literal -/

/-- A value with further digits behind it. -/
def accumulate (v : ℕ) (ds : List ℕ) : ℕ := ds.foldl (fun v d => v * 10 + (d - 0x30)) v

lemma accumulate_cons (v d : ℕ) (ds : List ℕ) :
    accumulate v (d :: ds) = accumulate (v * 10 + (d - 0x30)) ds := by
  rw [accumulate, accumulate, List.foldl_cons]

lemma accumulate_zero (ds : List ℕ) : accumulate 0 ds = decimalValue ds := by
  induction ds using List.reverseRecOn with
  | nil => rfl
  | append_singleton ds d ih =>
    rw [decimalValue, List.reverse_append, List.reverse_singleton, List.singleton_append,
      List.map_cons, Nat.ofDigits_cons, ← decimalValue, ← ih, accumulate, List.foldl_append]
    change accumulate 0 ds * 10 + (d - 0x30) = _
    omega

lemma le_accumulate (v : ℕ) (ds : List ℕ) : v ≤ accumulate v ds := by
  induction ds generalizing v with
  | nil => exact le_rfl
  | cons d ds ih =>
    rw [accumulate_cons]
    exact le_trans (by omega) (ih _)

/-- The digits the reader takes from a text. -/
def takenDigits : List ℕ → List ℕ
  | [] => []
  | c :: s =>
    if c = 0x30 then [0x30] else if isAsciiDigit c then c :: s.takeWhile isAsciiDigit else []

lemma isAsciiDigit_of_mem_takeWhile {s : List ℕ} {d : ℕ} (h : d ∈ s.takeWhile isAsciiDigit) :
    isAsciiDigit d = true :=
  List.mem_takeWhile_imp h

lemma isAsciiDigit_of_mem_takenDigits {s : List ℕ} {d : ℕ} (h : d ∈ takenDigits s) :
    isAsciiDigit d = true := by
  cases s with
  | nil => cases h
  | cons c s =>
    rw [takenDigits] at h
    split_ifs at h with hzero hdigit
    · rw [List.mem_singleton.mp h]
      rfl
    · rcases List.mem_cons.mp h with rfl | h
      · exact hdigit
      · exact isAsciiDigit_of_mem_takeWhile h
    · cases h

/-- The text behind the taken digits. -/
lemma takenDigits_append (s : List ℕ) :
    ∃ rest, s = takenDigits s ++ rest ∧ (takenDigits s = [0x30] ∨ takenDigits s = [] ∨
      (takenDigits s).head? ≠ some 0x30 ∧ ∀ d ∈ rest.head?, isAsciiDigit d = false) := by
  cases s with
  | nil => exact ⟨[], rfl, Or.inr (Or.inl rfl)⟩
  | cons c s =>
    rw [takenDigits]
    split_ifs with hzero hdigit
    · exact ⟨s, by rw [hzero]; rfl, Or.inl rfl⟩
    · refine ⟨s.dropWhile isAsciiDigit, by rw [List.cons_append, List.takeWhile_append_dropWhile],
        Or.inr (Or.inr ⟨fun h => hzero (Option.some.inj h), fun d hd => ?_⟩)⟩
      have := List.head?_dropWhile_not isAsciiDigit s
      rw [show (s.dropWhile isAsciiDigit).head? = some d from hd] at this
      simpa using this
    · exact ⟨c :: s, rfl, Or.inr (Or.inl rfl)⟩

lemma takenDigits_of_literal {ds rest : List ℕ} (hdigit : ∀ d ∈ ds, isAsciiDigit d = true)
    (hne : ds ≠ []) (hlongest : ds = [0x30] ∨
      ds.head? ≠ some 0x30 ∧ ∀ d ∈ rest.head?, isAsciiDigit d = false) :
    takenDigits (ds ++ rest) = ds := by
  obtain ⟨c, ds, rfl⟩ := List.exists_cons_of_ne_nil hne
  rw [List.cons_append, takenDigits]
  rcases hlongest with hzero | ⟨hhead, hrest⟩
  · rw [(List.cons.inj hzero).1, (List.cons.inj hzero).2, if_pos rfl]
  · have hc : c ≠ 0x30 := fun h => hhead (congrArg some h)
    rw [if_neg hc, if_pos (hdigit c List.mem_cons_self), List.takeWhile_append_of_pos
      fun d hd => hdigit d (List.mem_cons_of_mem _ hd)]
    have htake : rest.takeWhile isAsciiDigit = [] := by
      cases rest with
      | nil => rfl
      | cons d rest =>
        rw [List.takeWhile_cons_of_neg]
        rw [hrest d rfl]
        exact Bool.false_ne_true
    rw [htake, List.append_nil]

/-! ### The loops -/

variable {data : JsonSrc}

lemma isAsciiDigit_ascii (pos : ℕ) :
    isAsciiDigit (data.ascii pos) = isAsciiDigit (data.unit pos) := by
  rw [JsonSrc.ascii]
  split
  · rfl
  · have hbig : ¬ (data.unit pos < 0x80) := by assumption
    have hfalse : isAsciiDigit (data.unit pos) = false := by
      rw [isAsciiDigit, Bool.and_eq_false_iff]
      exact Or.inr (decide_eq_false (by omega))
    rw [hfalse]
    rfl

lemma ascii_of_digit {pos : ℕ} (h : isAsciiDigit (data.unit pos) = true) :
    data.ascii pos = data.unit pos := by
  rw [isAsciiDigit, Bool.and_eq_true, decide_eq_true_eq, decide_eq_true_eq] at h
  rw [JsonSrc.ascii, if_pos (by omega)]

lemma digit_range {c : ℕ} (h : isAsciiDigit c = true) : 0x30 ≤ c ∧ c ≤ 0x39 := by
  rw [isAsciiDigit, Bool.and_eq_true, decide_eq_true_eq, decide_eq_true_eq] at h
  exact h

/-- The cursor of the loop never goes back. -/
lemma le_digitLoop (fuel pos : ℕ) (value : BitVec 64) :
    pos ≤ (digitLoop data fuel pos value).1 := by
  induction fuel generalizing pos value with
  | zero => exact le_rfl
  | succ fuel ih =>
    rw [digitLoop]
    dsimp only
    split_ifs
    · exact Nat.le_succ pos
    · exact le_trans (Nat.le_succ pos) (ih _ _)
    · exact le_rfl
    · exact le_rfl

lemma inI64_of_lt {v : ℕ} (h : v < 2 ^ 63) : inI64 (v : ℤ) = some (v : ℤ) :=
  if_pos ⟨by omega, by exact_mod_cast h⟩

lemma inI64_of_le {v : ℕ} (h : 2 ^ 63 ≤ v) : inI64 (v : ℤ) = none :=
  if_neg fun hfit => absurd hfit.2 (not_lt.mpr (by exact_mod_cast h))

/-- One checked step on a digit. -/
lemma checked_step {v c : ℕ} {β : Type} (next : ℤ → Option β) :
    ((inI64 ((v : ℤ) * 10)).bind fun tens => (inI64 (tens + (c : ℕ))).bind next) =
      if v * 10 + c < 2 ^ 63 then next (v * 10 + c : ℕ) else none := by
  have hcast : (v : ℤ) * 10 = (v * 10 : ℕ) := by push_cast; rfl
  have hsum : ((v * 10 : ℕ) : ℤ) + (c : ℕ) = (v * 10 + c : ℕ) := by push_cast; rfl
  rw [hcast]
  by_cases htens : v * 10 < 2 ^ 63
  · rw [inI64_of_lt htens, Option.bind_some, hsum]
    by_cases hfit : v * 10 + c < 2 ^ 63
    · rw [inI64_of_lt hfit, if_pos hfit, Option.bind_some]
    · rw [inI64_of_le (Nat.not_lt.mp hfit), if_neg hfit, Option.bind_none]
  · rw [inI64_of_le (Nat.not_lt.mp htens), if_neg (by omega), Option.bind_none]

lemma wrapped_step (v c : ℕ) :
    BitVec.ofNat 64 v * 10 + BitVec.ofNat 64 c = BitVec.ofNat 64 (v * 10 + c) := by
  rw [BitVec.ofNat_add, BitVec.ofNat_mul]
  rfl

lemma ofNat_ne_zero {v : ℕ} (hpos : 0 < v) (hlt : v < 2 ^ 63) : BitVec.ofNat 64 v ≠ 0 := by
  intro h
  have := congrArg BitVec.toNat h
  rw [BitVec.toNat_ofNat, Nat.mod_eq_of_lt (by omega)] at this
  change v = 0 at this
  omega

/-- Behind a first digit that is not zero, the checked loop takes the run of digits and ends
exactly where the number fits; there the wrapping loop does the same. -/
lemma loops_of_pos (data : JsonSrc) {fuel : ℕ} (pos : ℕ) {v : ℕ} (hfuel : data.len - pos ≤ fuel) (hpos : 0 < v)
    (hfit : v < 2 ^ 63) (D : List ℕ) (hD : D = (data.units.drop pos).takeWhile isAsciiDigit) :
    (accumulate v D < 2 ^ 63 →
      checkedDigitLoop data fuel pos v = some (pos + D.length, (accumulate v D : ℤ)) ∧
      digitLoop data fuel pos (BitVec.ofNat 64 v) =
        (pos + D.length, BitVec.ofNat 64 (accumulate v D))) ∧
    (2 ^ 63 ≤ accumulate v D → checkedDigitLoop data fuel pos v = none) := by
  induction fuel generalizing pos v D with
  | zero =>
    rw [JsonSrc.drop_units_of_le (by omega)] at hD
    subst hD
    exact ⟨fun _ => ⟨rfl, rfl⟩, fun h => absurd hfit (Nat.not_lt.mpr h)⟩
  | succ fuel ih =>
    rw [checkedDigitLoop, digitLoop]
    dsimp only
    by_cases hlt : pos < data.len
    · rw [if_pos hlt, if_pos hlt, isAsciiDigit_ascii]
      rw [JsonSrc.drop_units hlt] at hD
      by_cases hdigit : isAsciiDigit (data.unit pos) = true
      · rw [List.takeWhile_cons_of_pos hdigit] at hD
        subst hD
        rw [if_pos hdigit, if_pos hdigit, ascii_of_digit hdigit, checked_step, wrapped_step,
          accumulate_cons]
        have hrange := digit_range hdigit
        have hnext : 0 < v * 10 + (data.unit pos - 0x30) := by omega
        by_cases hstep : v * 10 + (data.unit pos - 0x30) < 2 ^ 63
        · obtain ⟨hsmall, hbig⟩ := @ih (pos + 1) _ (by omega) hnext hstep _ rfl
          rw [if_pos hstep, if_neg (by omega), if_neg (ofNat_ne_zero hnext hstep)]
          refine ⟨fun h => ?_, hbig⟩
          rw [List.length_cons, ← Nat.add_assoc, Nat.add_right_comm]
          exact hsmall h
        · rw [if_neg hstep]
          refine ⟨fun h => absurd (le_trans (Nat.not_lt.mp hstep) (le_accumulate _ _))
            (Nat.not_le.mpr h), fun _ => rfl⟩
      · rw [List.takeWhile_cons_of_neg hdigit] at hD
        subst hD
        rw [if_neg hdigit, if_neg hdigit]
        exact ⟨fun _ => ⟨rfl, rfl⟩, fun h => absurd hfit (Nat.not_lt.mpr h)⟩
    · rw [JsonSrc.drop_units_of_le (Nat.not_lt.mp hlt)] at hD
      subst hD
      rw [if_neg hlt, if_neg hlt]
      exact ⟨fun _ => ⟨rfl, rfl⟩, fun h => absurd hfit (Nat.not_lt.mpr h)⟩

/-- The same from the first digit on. -/
lemma loops_of_zero (data : JsonSrc) {fuel : ℕ} (pos : ℕ) (hfuel : data.len - pos ≤ fuel) (T : List ℕ)
    (hT : T = takenDigits (data.units.drop pos)) :
    (decimalValue T < 2 ^ 63 →
      checkedDigitLoop data fuel pos 0 = some (pos + T.length, (decimalValue T : ℤ)) ∧
      digitLoop data fuel pos 0 = (pos + T.length, BitVec.ofNat 64 (decimalValue T))) ∧
    (2 ^ 63 ≤ decimalValue T → checkedDigitLoop data fuel pos 0 = none) ∧
    (T ≠ [] → (digitLoop data fuel pos 0).1 ≠ pos) := by
  have hempty : decimalValue [] = 0 := rfl
  cases fuel with
  | zero =>
    rw [JsonSrc.drop_units_of_le (by omega)] at hT
    subst hT
    exact ⟨fun _ => ⟨rfl, rfl⟩, fun h => absurd h (by norm_num [takenDigits, hempty]),
      fun h => absurd rfl h⟩
  | succ fuel =>
    rw [checkedDigitLoop, digitLoop]
    dsimp only
    by_cases hlt : pos < data.len
    · rw [if_pos hlt, if_pos hlt, isAsciiDigit_ascii]
      rw [JsonSrc.drop_units hlt, takenDigits] at hT
      by_cases hdigit : isAsciiDigit (data.unit pos) = true
      · have hrange := digit_range hdigit
        have hstep : (0 : ℕ) * 10 + (data.unit pos - 0x30) < 2 ^ 63 := by omega
        have hchecked := checked_step (v := 0) (c := data.unit pos - 0x30)
          fun value => if value = 0 then some (pos + 1, value)
            else checkedDigitLoop data fuel (pos + 1) value
        rw [if_pos hdigit, if_pos hdigit, ascii_of_digit hdigit]
        rw [Nat.cast_zero, if_pos hstep] at hchecked
        rw [hchecked]
        have hwrap := wrapped_step 0 (data.unit pos - 0x30)
        change (0 : BitVec 64) * 10 + _ = _ at hwrap
        rw [hwrap]
        by_cases hzero : data.unit pos = 0x30
        · rw [if_pos hzero] at hT
          subst hT
          rw [hzero]
          exact ⟨fun _ => ⟨rfl, rfl⟩, fun h => absurd h (by norm_num [decimalValue]),
            fun _ => Nat.succ_ne_self pos⟩
        · rw [if_neg hzero, if_pos hdigit] at hT
          subst hT
          have hnext : 0 < 0 * 10 + (data.unit pos - 0x30) := by omega
          have hfuel' : data.len - (pos + 1) ≤ fuel := by omega
          obtain ⟨hsmall, hbig⟩ := loops_of_pos data (pos + 1) hfuel' hnext hstep _ rfl
          rw [if_neg (by omega), if_neg (ofNat_ne_zero hnext hstep), ← accumulate_zero,
            accumulate_cons]
          refine ⟨fun h => ?_, hbig, fun _ h => ?_⟩
          · rw [List.length_cons, ← Nat.add_assoc, Nat.add_right_comm]
            exact hsmall h
          · have := @le_digitLoop data fuel (pos + 1)
              (BitVec.ofNat 64 (0 * 10 + (data.unit pos - 0x30)))
            omega
      · rw [if_neg hdigit, if_neg (fun h => hdigit (by rw [h]; rfl))] at hT
        subst hT
        rw [if_neg hdigit, if_neg hdigit]
        exact ⟨fun _ => ⟨rfl, rfl⟩, fun h => absurd h (by norm_num [hempty]),
          fun h => absurd rfl h⟩
    · rw [JsonSrc.drop_units_of_le (Nat.not_lt.mp hlt)] at hT
      subst hT
      rw [if_neg hlt, if_neg hlt]
      exact ⟨fun _ => ⟨rfl, rfl⟩, fun h => absurd h (by norm_num [takenDigits, hempty]),
        fun h => absurd rfl h⟩

/-! ### The literal at a cursor -/

lemma readSign_spec (pos : ℕ) :
    readSign data pos = (true, pos + 1) ∧
        data.units.drop pos = 0x2D :: data.units.drop (pos + 1) ∨
      readSign data pos = (false, pos) ∧ (data.units.drop pos).head? ≠ some 0x2D := by
  have hascii : data.ascii pos = 0x2D ↔ data.unit pos = 0x2D :=
    JsonSrc.ascii_eq_iff (by norm_num) (by norm_num)
  rw [readSign]
  by_cases hsign : pos < data.len ∧ data.ascii pos = 0x2D
  · refine Or.inl ⟨if_pos hsign, ?_⟩
    rw [JsonSrc.drop_units hsign.1, hascii.mp hsign.2]
  · refine Or.inr ⟨if_neg hsign, fun h => ?_⟩
    obtain ⟨s, hs⟩ : ∃ s, data.units.drop pos = 0x2D :: s := by
      cases hdrop : data.units.drop pos with
      | nil =>
        rw [hdrop] at h
        cases h
      | cons u s =>
        rw [hdrop] at h
        exact ⟨s, by rw [Option.some.inj h]⟩
    exact hsign ⟨(JsonSrc.lt_len_of_drop hs).1, hascii.mpr (JsonSrc.lt_len_of_drop hs).2.1⟩

/-- The literal at a cursor is the sign the reader reads and the digits it takes. -/
lemma isIntLiteral_iff (start : ℕ) (neg : Bool) (ds rest : List ℕ) :
    IsIntLiteral (data.units.drop start) neg ds rest ↔
      (readSign data start).1 = neg ∧
        takenDigits (data.units.drop (readSign data start).2) = ds ∧ ds ≠ [] ∧
        data.units.drop (readSign data start).2 = ds ++ rest := by
  constructor
  · rintro ⟨hsplit, hdigit, hne, hlongest⟩
    have htaken := takenDigits_of_literal hdigit hne hlongest
    rcases @readSign_spec data start with ⟨hsign, hdrop⟩ | ⟨hsign, hhead⟩
    · rw [hsign]
      cases neg with
      | true =>
        rw [hdrop, if_pos rfl, List.singleton_append] at hsplit
        have hrest := (List.cons.inj hsplit).2
        exact ⟨rfl, by rw [hrest, htaken], hne, hrest⟩
      | false =>
        rw [hdrop, if_neg Bool.false_ne_true, List.nil_append] at hsplit
        obtain ⟨c, ds, rfl⟩ := List.exists_cons_of_ne_nil hne
        have hc := hdigit c List.mem_cons_self
        rw [← (List.cons.inj hsplit).1] at hc
        exact absurd hc (by decide)
    · rw [hsign]
      cases neg with
      | true =>
        rw [hsplit, if_pos rfl, List.singleton_append] at hhead
        exact absurd rfl hhead
      | false =>
        rw [if_neg Bool.false_ne_true, List.nil_append] at hsplit
        exact ⟨rfl, by rw [hsplit, htaken], hne, hsplit⟩
  · rintro ⟨rfl, htaken, hne, hrest⟩
    refine ⟨?_, ?_, hne, ?_⟩
    · rcases @readSign_spec data start with ⟨hsign, hdrop⟩ | ⟨hsign, -⟩
      · rw [hsign] at hrest ⊢
        rw [hdrop, if_pos rfl, hrest]
        rfl
      · rw [hsign] at hrest ⊢
        rw [if_neg Bool.false_ne_true, hrest]
        rfl
    · intro d hd
      rw [← htaken] at hd
      exact isAsciiDigit_of_mem_takenDigits hd
    · obtain ⟨rest', hsplit, hlongest⟩ :=
        takenDigits_append (data.units.drop (readSign data start).2)
      rw [htaken] at hsplit hlongest
      obtain rfl := List.append_cancel_left (hrest.symm.trans hsplit)
      rcases hlongest with h | h | h
      · exact Or.inl h
      · exact absurd h hne
      · exact Or.inr h

/-! ### Exactness -/

lemma toInt_ofNat {v : ℕ} (h : v < 2 ^ 63) : (BitVec.ofNat 64 v).toInt = v := by
  rw [BitVec.toInt_ofNat', Int.bmod_def]
  omega

lemma toInt_neg_ofNat {v : ℕ} (h : v < 2 ^ 63) : (-BitVec.ofNat 64 v).toInt = -(v : ℤ) := by
  rw [BitVec.toInt_neg, toInt_ofNat h, Int.bmod_def]
  omega

lemma inI64_neg {v : ℕ} (h : v < 2 ^ 63) : inI64 (-(v : ℤ)) = some (-(v : ℤ)) :=
  if_pos ⟨by omega, by omega⟩

/-- What both readers leave, from the digits at the cursor. -/
structure Taken (data : JsonSrc) (pos : ℕ) (neg : Bool) (ds : List ℕ) (digitsStart : ℕ) :
    Prop where
  start : readSign data (skipWs data pos) = (neg, digitsStart)
  taken : takenDigits (data.units.drop digitsStart) = ds

lemma exists_taken (data : JsonSrc) (pos : ℕ) :
    ∃ neg ds digitsStart, Taken data pos neg ds digitsStart :=
  ⟨_, _, _, rfl, rfl⟩

section Taken

variable {pos digitsStart : ℕ} {neg : Bool} {ds : List ℕ}

lemma Taken.isIntLiteral_iff (h : Taken data pos neg ds digitsStart) (neg' : Bool)
    (ds' rest : List ℕ) :
    IsIntLiteral (data.units.drop (skipWs data pos)) neg' ds' rest ↔
      neg = neg' ∧ ds = ds' ∧ ds' ≠ [] ∧ data.units.drop digitsStart = ds' ++ rest := by
  rw [Json.isIntLiteral_iff, h.start, h.taken]

/-- There is a literal where a digit is taken. -/
lemma Taken.exists_literal (h : Taken data pos neg ds digitsStart) (hne : ds ≠ []) :
    ∃ rest, IsIntLiteral (data.units.drop (skipWs data pos)) neg ds rest := by
  obtain ⟨rest, hsplit, -⟩ := takenDigits_append (data.units.drop digitsStart)
  rw [h.taken] at hsplit
  exact ⟨rest, (h.isIntLiteral_iff neg ds rest).mpr ⟨rfl, rfl, hne, hsplit⟩⟩

lemma Taken.parseInt_nil (h : Taken data pos neg [] digitsStart) :
    parseInt data pos =
      ⟨digitsStart, some ⟨"JSON.parse: expected number digits", skipWs data pos⟩, 0⟩ := by
  obtain ⟨hloop, -⟩ := loops_of_zero data digitsStart le_rfl _ h.taken.symm
  have hzero : decimalValue [] = 0 := rfl
  rw [parseInt, h.start]
  dsimp only
  rw [(hloop (by rw [hzero]; norm_num)).2]
  exact if_pos rfl

/-- Where a digit is taken the reader throws nothing. -/
lemma Taken.error_eq_none (h : Taken data pos neg ds digitsStart) (hne : ds ≠ []) :
    (parseInt data pos).error = none := by
  obtain ⟨-, -, hmoves⟩ := loops_of_zero data digitsStart le_rfl _ h.taken.symm
  rw [parseInt, h.start]
  dsimp only
  rw [if_neg (hmoves hne)]

/-- Where the number does not fit a step overflows. -/
lemma Taken.checked_of_le (h : Taken data pos neg ds digitsStart)
    (hbig : 2 ^ 63 ≤ decimalValue ds) : checkedParseInt data pos = none := by
  obtain ⟨-, hnone, -⟩ := loops_of_zero data digitsStart le_rfl _ h.taken.symm
  rw [checkedParseInt, h.start]
  dsimp only
  rw [hnone hbig, Option.bind_none]

/-- Where it fits both readers return the integer of the literal. -/
lemma Taken.parseInt_of_lt (h : Taken data pos neg ds digitsStart) (hne : ds ≠ [])
    (hfit : decimalValue ds < 2 ^ 63) :
    (parseInt data pos).pos = digitsStart + ds.length ∧
      (parseInt data pos).value.toInt = literalValue neg ds ∧
      checkedParseInt data pos = some (literalValue neg ds) := by
  obtain ⟨hloop, -⟩ := loops_of_zero data digitsStart le_rfl _ h.taken.symm
  obtain ⟨hchecked, hwrapped⟩ := hloop hfit
  have hmoved : digitsStart + ds.length ≠ digitsStart := by
    have := List.length_pos_of_ne_nil hne
    omega
  rw [parseInt, checkedParseInt, h.start]
  dsimp only
  rw [hchecked, hwrapped, Option.bind_some, if_neg hmoved, if_neg hmoved, literalValue]
  cases neg with
  | true => exact ⟨rfl, toInt_neg_ofNat hfit, inI64_neg hfit⟩
  | false => exact ⟨rfl, toInt_ofNat hfit, rfl⟩

end Taken

/-- **The integer reader is exact exactly on literals whose digits denote a number below
`2^63`**: from there on the accumulation wraps, also where the sign would have made room for
`-2^63`. -/
theorem parseInt_exact_iff (data : JsonSrc) (pos : ℕ) :
    IntExact data pos ↔ DigitsFit data pos := by
  obtain ⟨neg, ds, digitsStart, h⟩ := exists_taken data pos
  constructor
  · intro hexact neg' ds' rest hliteral
    obtain ⟨rfl, rfl, hne, -⟩ := (h.isIntLiteral_iff _ _ _).mp hliteral
    by_contra hbig
    have hreturned := hexact.no_overflow (h.error_eq_none hne)
    rw [h.checked_of_le (Nat.not_lt.mp hbig)] at hreturned
    cases hreturned
  · intro hfit
    refine ⟨fun neg' ds' rest hliteral => Or.inl ?_, fun hnone => ?_, fun hreturned => ?_⟩
    · obtain ⟨rfl, rfl, hne, hrest⟩ := (h.isIntLiteral_iff _ _ _).mp hliteral
      obtain ⟨hpos, hvalue, -⟩ := h.parseInt_of_lt hne (hfit _ _ _ hliteral)
      refine ⟨h.error_eq_none hne, hvalue, ?_⟩
      rw [hpos, ← List.drop_drop, hrest, List.drop_left]
    · have hnil : ds = [] := by
        by_contra hne
        obtain ⟨rest, hliteral⟩ := h.exists_literal hne
        exact hnone ⟨_, _, _, hliteral⟩
      subst hnil
      rw [h.parseInt_nil]
    · have hne : ds ≠ [] := by
        rintro rfl
        rw [h.parseInt_nil] at hreturned
        cases hreturned
      obtain ⟨rest, hliteral⟩ := h.exists_literal hne
      obtain ⟨-, hvalue, hchecked⟩ := h.parseInt_of_lt hne (hfit _ _ _ hliteral)
      rw [hvalue, hchecked]

/-- The literal `9223372036854775808`. -/
def twoPow63 : List ℕ :=
  [0x39, 0x32, 0x32, 0x33, 0x33, 0x37, 0x32, 0x30, 0x33, 0x36, 0x38, 0x35, 0x34, 0x37, 0x37,
    0x35, 0x38, 0x30, 0x38]

/-- On it the reader returns `-2^63`. -/
theorem parseInt_twoPow63 :
    (parseInt (JsonSrc.ofUnits twoPow63) 0).error = none ∧
      (parseInt (JsonSrc.ofUnits twoPow63) 0).value.toInt = -2 ^ 63 ∧
      ¬ IntExact (JsonSrc.ofUnits twoPow63) 0 := by
  refine ⟨by decide +kernel, by decide +kernel, fun hexact => ?_⟩
  have hchecked := hexact.no_overflow (by decide +kernel)
  rw [show checkedParseInt (JsonSrc.ofUnits twoPow63) 0 = none by decide +kernel] at hchecked
  cases hchecked

end Torajs.Json
