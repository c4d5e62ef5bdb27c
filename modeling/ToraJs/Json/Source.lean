import Mathlib.Data.List.Range
import Mathlib.Tactic.NormNum

/-!
# The text of a parse

`JsonSrc` in `json_parse/mod.rs`: the payload of a string read code unit by code unit, one byte
a unit or two, lower byte first.  The token helpers compare ASCII bytes, and a unit above ASCII
matches none of them.

The results about the parsers are stated on the list of units.
-/

namespace Torajs.Json

/-- `JsonSrc`. -/
structure JsonSrc where
  base : List UInt8
  len : ℕ
  latin1 : Bool

/-- `JsonSrc::unit`. -/
def JsonSrc.unit (data : JsonSrc) (i : ℕ) : ℕ :=
  if data.latin1 then (data.base.getD i 0).toNat
  else (data.base.getD (2 * i) 0).toNat + 256 * (data.base.getD (2 * i + 1) 0).toNat

/-- `JsonSrc::ascii`. -/
def JsonSrc.ascii (data : JsonSrc) (i : ℕ) : ℕ :=
  if data.unit i < 0x80 then data.unit i else 0

/-- The units of the text. -/
def JsonSrc.units (data : JsonSrc) : List ℕ := (List.range data.len).map data.unit

/-- JSON whitespace. -/
def isJsonWs (c : ℕ) : Bool := c = 0x20 || c = 0x09 || c = 0x0A || c = 0x0D

/-- The loop of `json_skip_ws`. -/
def skipWsFrom (data : JsonSrc) : ℕ → ℕ → ℕ
  | 0, pos => pos
  | fuel + 1, pos =>
    if pos < data.len then
      if isJsonWs (data.ascii pos) then skipWsFrom data fuel (pos + 1) else pos
    else pos

/-- `json_skip_ws`: the loop ends at the end of the text. -/
def skipWs (data : JsonSrc) (pos : ℕ) : ℕ := skipWsFrom data (data.len - pos) pos

/-- A thrown SyntaxError: its message, and the position named in it. -/
structure JsonError where
  msg : String
  pos : ℕ
  deriving DecidableEq, Repr

/-! ### The units from a position on -/

variable {data : JsonSrc}

@[simp]
lemma JsonSrc.length_units (data : JsonSrc) : data.units.length = data.len := by
  rw [JsonSrc.units, List.length_map, List.length_range]

lemma JsonSrc.unit_lt (data : JsonSrc) (i : ℕ) : data.unit i < 65536 := by
  have hbyte : ∀ k, (data.base.getD k 0).toNat < 256 := fun k => UInt8.toNat_lt _
  rw [JsonSrc.unit]
  split
  · exact lt_of_lt_of_le (hbyte i) (by norm_num)
  · have := hbyte (2 * i)
    have := hbyte (2 * i + 1)
    omega

/-- Inside the text a unit is left. -/
lemma JsonSrc.drop_units {pos : ℕ} (h : pos < data.len) :
    data.units.drop pos = data.unit pos :: data.units.drop (pos + 1) := by
  rw [List.drop_eq_getElem_cons (by rwa [data.length_units])]
  simp [JsonSrc.units]

lemma JsonSrc.drop_units_of_le {pos : ℕ} (h : data.len ≤ pos) : data.units.drop pos = [] :=
  List.drop_eq_nil_of_le (by rwa [data.length_units])

/-- What is left starts with a unit only inside the text. -/
lemma JsonSrc.lt_len_of_drop {pos u : ℕ} {s : List ℕ} (h : data.units.drop pos = u :: s) :
    pos < data.len ∧ data.unit pos = u ∧ data.units.drop (pos + 1) = s := by
  have hlt : pos < data.len := by
    by_contra hle
    rw [JsonSrc.drop_units_of_le (Nat.not_lt.mp hle)] at h
    cases h
  rw [JsonSrc.drop_units hlt] at h
  exact ⟨hlt, (List.cons.inj h).1, (List.cons.inj h).2⟩

/-- A unit that is ASCII is what `ascii` reads; NUL stands for every other. -/
lemma JsonSrc.ascii_eq_iff {pos c : ℕ} (hc : 0 < c) (hlt : c < 0x80) :
    data.ascii pos = c ↔ data.unit pos = c := by
  rw [JsonSrc.ascii]
  split <;> omega

/-- The text of a list of units, in two bytes each. -/
def JsonSrc.ofUnits (units : List ℕ) : JsonSrc where
  base := units.flatMap fun u => [UInt8.ofNat u, UInt8.ofNat (u / 256)]
  len := units.length
  latin1 := false

/-! ### Whitespace -/

/-- The position behind the whitespace at a position. -/
def IsSkipped (s : List ℕ) (k : ℕ) : Prop :=
  (∀ u ∈ s.take k, isJsonWs u = true) ∧ ∀ u ∈ (s.drop k).head?, isJsonWs u = false

lemma isJsonWs_ascii (pos : ℕ) : isJsonWs (data.ascii pos) = isJsonWs (data.unit pos) := by
  rw [JsonSrc.ascii]
  split
  · rfl
  · simp only [isJsonWs, Bool.or_eq_true, decide_eq_true_eq, Bool.or_eq_false_iff,
      decide_eq_false_iff_not]
    have : ¬ (data.unit pos < 0x80) := by assumption
    simp [show data.unit pos ≠ 0x20 by omega, show data.unit pos ≠ 0x09 by omega,
      show data.unit pos ≠ 0x0A by omega, show data.unit pos ≠ 0x0D by omega]

/-- **`json_skip_ws` goes to the first unit that is no whitespace.** -/
theorem skipWs_spec (data : JsonSrc) (pos : ℕ) :
    ∃ k, skipWs data pos = pos + k ∧ IsSkipped (data.units.drop pos) k := by
  have hfrom : ∀ fuel pos, data.len - pos ≤ fuel →
      ∃ k, skipWsFrom data fuel pos = pos + k ∧ IsSkipped (data.units.drop pos) k := by
    intro fuel
    induction fuel with
    | zero =>
      intro pos hfuel
      refine ⟨0, rfl, ?_⟩
      rw [JsonSrc.drop_units_of_le (by omega)]
      exact ⟨fun u hu => absurd hu List.not_mem_nil, fun u hu => by cases hu⟩
    | succ fuel ih =>
      intro pos hfuel
      rw [skipWsFrom]
      by_cases hlt : pos < data.len
      · rw [if_pos hlt, JsonSrc.drop_units hlt, isJsonWs_ascii]
        by_cases hws : isJsonWs (data.unit pos) = true
        · obtain ⟨k, hk, hskip⟩ := ih (pos + 1) (by omega)
          rw [if_pos hws]
          refine ⟨k + 1, by rw [hk]; omega, ?_, ?_⟩
          · intro u hu
            rw [List.take_succ_cons] at hu
            rcases List.mem_cons.mp hu with rfl | hu
            · exact hws
            · exact hskip.1 u hu
          · rw [List.drop_succ_cons]
            exact hskip.2
        · rw [if_neg hws]
          refine ⟨0, rfl, fun u hu => absurd hu List.not_mem_nil, fun u hu => ?_⟩
          obtain rfl := Option.some.inj hu
          exact Bool.eq_false_of_not_eq_true hws
      · rw [if_neg hlt]
        refine ⟨0, rfl, ?_⟩
        rw [JsonSrc.drop_units_of_le (Nat.not_lt.mp hlt)]
        exact ⟨fun u hu => absurd hu List.not_mem_nil, fun u hu => by cases hu⟩
  exact hfrom _ pos le_rfl

end Torajs.Json
