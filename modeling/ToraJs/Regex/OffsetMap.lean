import ToraJs.Wtf8.Sequence
import Mathlib.Algebra.Order.BigOperators.Group.List
import Mathlib.Data.Int.ConditionallyCompleteOrder

/-!
# Offsets in bytes and in code units

The two maps of `offset_map.rs` between an offset in the bytes that the matcher searches and an
offset in UTF-16 code units, which the program sees.  One adds up a prefix byte by byte; the other
walks forward from lead to lead.  On a string of code points, whose surrogates may stand alone or
in pairs, the walk stops at the last boundary at or before a unit, so it takes back what the sum
gives at each boundary.
-/

namespace Torajs.Regex

open Unicode Wtf8

/-! ### The maps -/

/-- The code units that a byte counts for: continuation bytes for none, and the lead of four bytes
for two. -/
def byteUnits (b : UInt8) : ℤ :=
  (if (b &&& 0xC0) != 0x80 then 1 else 0) + (if 0xF0 ≤ b then 1 else 0)

/-- `byte_to_utf16_units`. -/
def byteToUtf16Units (s : List UInt8) (byteIdx : ℤ) (isAscii : Bool) : ℤ :=
  if isAscii = true ∨ byteIdx ≤ 0 then byteIdx
  else ((s.take (min byteIdx.toNat s.length)).map byteUnits).sum

/-- The bytes and the code units of the sequence that a byte leads. -/
def unitStep (b : UInt8) : ℕ × ℤ :=
  if b < 0x80 then (1, 1)
  else if b < 0xE0 then (2, 1)
  else if b < 0xF0 then (3, 1)
  else (4, 2)

lemma unitStep_pos (b : UInt8) : 0 < (unitStep b).1 := by
  unfold unitStep
  split_ifs <;> omega

/-- The loop of `utf16_units_to_byte` from a byte on, with the units before it. -/
def unitsWalk (s : List UInt8) (units : ℤ) (i : ℕ) (u : ℤ) : ℤ :=
  if h : i < s.length then
    if units ≤ u then i
    else if units < u + (unitStep s[i]).2 then i
    else unitsWalk s units (i + (unitStep s[i]).1) (u + (unitStep s[i]).2)
  else if units ≤ u then s.length
  else s.length + 1
termination_by s.length - i
decreasing_by
  have hpos := unitStep_pos s[i]
  omega

/-- `utf16_units_to_byte`. -/
def utf16UnitsToByte (s : List UInt8) (units : ℤ) (isAscii : Bool) : ℤ :=
  if isAscii = true ∨ units ≤ 0 then units else unitsWalk s units 0 0

/-! ### Boundaries -/

/-- The bytes of a string of code points. -/
def bytesOf (cps : List ℕ) : List UInt8 := cps.flatMap encodeCp

/-- The boundary in front of a code point, in bytes. -/
def byteBoundary (cps : List ℕ) (k : ℕ) : ℕ := (bytesOf (cps.take k)).length

/-- The boundary in front of a code point, in code units. -/
def unitBoundary (cps : List ℕ) (k : ℕ) : ℕ := ((cps.take k).flatMap units).length

section Boundaries

variable {cps : List ℕ} {k c : ℕ}

lemma take_succ (hget : cps[k]? = some c) : cps.take (k + 1) = cps.take k ++ [c] := by
  rw [List.take_add_one, hget]
  rfl

lemma byteBoundary_succ (hget : cps[k]? = some c) :
    byteBoundary cps (k + 1) = byteBoundary cps k + (encodeCp c).length := by
  rw [byteBoundary, take_succ hget, bytesOf, List.flatMap_append, List.length_append]
  simp [byteBoundary, bytesOf]

lemma unitBoundary_succ (hget : cps[k]? = some c) :
    unitBoundary cps (k + 1) = unitBoundary cps k + (units c).length := by
  rw [unitBoundary, take_succ hget, List.flatMap_append, List.length_append]
  simp [unitBoundary]

lemma units_length_pos (c : ℕ) : 0 < (units c).length := by
  unfold units
  split_ifs <;> exact Nat.succ_pos _

/-- Each code point takes a unit at least. -/
lemma unitBoundary_lt {j : ℕ} (hjk : j < k) (hk : k ≤ cps.length) :
    unitBoundary cps j < unitBoundary cps k := by
  induction k, hjk using Nat.le_induction with
  | base =>
    obtain ⟨c, hget⟩ : ∃ c, cps[j]? = some c := ⟨_, List.getElem?_eq_getElem (by omega)⟩
    have hpos := units_length_pos c
    rw [unitBoundary_succ hget]
    omega
  | succ k hle ih =>
    obtain ⟨c, hget⟩ : ∃ c, cps[k]? = some c := ⟨_, List.getElem?_eq_getElem (by omega)⟩
    have hlt := ih (by omega)
    rw [unitBoundary_succ hget]
    omega

/-- The bytes in front of a boundary, the code point there, and the rest. -/
lemma bytesOf_split (hget : cps[k]? = some c) :
    bytesOf cps = bytesOf (cps.take k) ++ (encodeCp c ++ bytesOf (cps.drop (k + 1))) := by
  have hsplit : cps = cps.take k ++ c :: cps.drop (k + 1) := by
    obtain ⟨hlt, hc⟩ := List.getElem?_eq_some_iff.mp hget
    rw [← hc, ← List.drop_eq_getElem_cons hlt, List.take_append_drop]
  conv_lhs => rw [hsplit]
  rw [bytesOf, List.flatMap_append, List.flatMap_cons]
  rfl

end Boundaries

/-! ### One sequence -/

/-- What a byte counts for, by its number. -/
def numberUnits (n : ℕ) : ℤ := (if 0x80 ≤ n ∧ n < 0xC0 then 0 else 1) + if 0xF0 ≤ n then 1 else 0

lemma byteUnits_eq (b : UInt8) : byteUnits b = numberUnits b.toNat := by
  have hlead : 0xF0 ≤ b ↔ 0xF0 ≤ b.toNat := UInt8.le_iff_toNat_le
  rw [byteUnits, tail_mask, numberUnits]
  by_cases h : IsTail b.toNat
  · have h' : 0x80 ≤ b.toNat ∧ b.toNat < 0xC0 := h
    simp only [decide_eq_true h, hlead, if_pos h', Bool.not_true, Bool.false_eq_true, if_false]
  · have h' : ¬ (0x80 ≤ b.toNat ∧ b.toNat < 0xC0) := h
    simp only [decide_eq_false h, hlead, if_neg h', Bool.not_false, if_true]

/-- What a lead byte announces, by its number. -/
lemma unitStep_eq (b : UInt8) :
    unitStep b = (leadLength b.toNat, if 0xF0 ≤ b.toNat then 2 else 1) := by
  have h80 : b < 0x80 ↔ b.toNat < 0x80 := UInt8.lt_iff_toNat_lt
  have hE0 : b < 0xE0 ↔ b.toNat < 0xE0 := UInt8.lt_iff_toNat_lt
  have hF0 : b < 0xF0 ↔ b.toNat < 0xF0 := UInt8.lt_iff_toNat_lt
  rw [unitStep, leadLength]
  simp only [h80, hE0, hF0]
  split_ifs <;> first | rfl | omega

/-- A well-formed sequence counts for the code units of its code point, and its lead announces
them. -/
lemma units_of_form {ns : List ℕ} {c : ℕ} (h : Form ns c) :
    ∃ a tail, ns = a :: tail ∧ ns.length = leadLength a ∧
      (if 0xF0 ≤ a then 2 else 1 : ℤ) = (units c).length ∧
      (ns.map numberUnits).sum = (units c).length := by
  obtain ⟨a, tail, rfl, hlength⟩ := h.length
  refine ⟨a, tail, rfl, hlength, ?_⟩
  have hlead (n : ℕ) (hn : n < 0x80 ∨ (0xC2 ≤ n ∧ n < 0xF0)) : numberUnits n = 1 := by
    rw [numberUnits, if_neg (by omega), if_neg (by omega)]
    rfl
  have htail (n : ℕ) (hn : IsTail n) : numberUnits n = 0 := by
    unfold IsTail at hn
    rw [numberUnits, if_pos (by omega), if_neg (by omega)]
    rfl
  cases h with
  | one ha =>
    rw [units_small (by omega), if_neg (by omega), List.map_cons, hlead _ (by omega)]
    exact ⟨rfl, rfl⟩
  | two ha ha' hb =>
    have hb' := hb
    unfold IsTail at hb'
    rw [units_small (by omega), if_neg (by omega), List.map_cons, List.map_cons,
      hlead a (by omega), htail _ hb]
    exact ⟨rfl, rfl⟩
  | three ha ha' hb hc hlong =>
    have hb' := hb
    have hc' := hc
    unfold IsTail at hb' hc'
    rw [units_small (by omega), if_neg (by omega), List.map_cons, List.map_cons, List.map_cons,
      hlead a (by omega), htail _ hb, htail _ hc]
    exact ⟨rfl, rfl⟩
  | four ha ha' hb hc hd hlong hhigh =>
    have hb' := hb
    unfold IsTail at hb'
    have hfour : numberUnits a = 2 := by
      rw [numberUnits, if_neg (by omega), if_pos ha]
      rfl
    rw [if_pos ha, units, if_neg (by omega), List.map_cons, List.map_cons, List.map_cons,
      List.map_cons, hfour, htail _ hb, htail _ hc, htail _ hd]
    exact ⟨rfl, rfl⟩

/-- A sequence has the bytes and the code units that its lead announces, and its bytes count for
its code units. -/
lemma encodeCp_step {c : ℕ} (hc : c ≤ 0x10FFFF) :
    ∃ lead tail, encodeCp c = lead :: tail ∧
      unitStep lead = ((encodeCp c).length, ((units c).length : ℤ)) ∧
      ((encodeCp c).map byteUnits).sum = (units c).length := by
  obtain ⟨a, ns, hns, hlength, hunits, hsum⟩ := units_of_form (form_encodeCp hc)
  obtain ⟨lead, tail, hbytes, rfl, -⟩ := List.map_eq_cons_iff.mp hns
  refine ⟨lead, tail, hbytes, ?_, ?_⟩
  · rw [unitStep_eq, hunits, ← hlength, List.length_map]
  · have hnumbers : ((encodeCp c).map byteUnits) =
        ((encodeCp c).map UInt8.toNat).map numberUnits := by
      rw [List.map_map]
      exact List.map_congr_left fun b _ => byteUnits_eq b
    rw [hnumbers, hsum]

/-- The bytes of a string count for its code units. -/
lemma sum_byteUnits {cps : List ℕ} (hcps : ∀ c ∈ cps, c ≤ 0x10FFFF) :
    ((bytesOf cps).map byteUnits).sum = (cps.flatMap units).length := by
  induction cps with
  | nil => rfl
  | cons c cps ih =>
    obtain ⟨-, -, -, -, hsum⟩ := encodeCp_step (hcps c List.mem_cons_self)
    have hrest := ih fun d hd => hcps d (List.mem_cons_of_mem _ hd)
    rw [bytesOf] at hrest ⊢
    rw [List.flatMap_cons, List.map_append, List.sum_append, hsum, hrest, List.flatMap_cons,
      List.length_append, Nat.cast_add]

/-! ### The sum -/

lemma byteUnits_nonneg (b : UInt8) : 0 ≤ byteUnits b := by
  unfold byteUnits
  split_ifs <;> decide

/-- From an offset that is not negative on, the sum runs over a prefix. -/
lemma byteToUtf16Units_nat (s : List UInt8) (n : ℕ) :
    byteToUtf16Units s n false = ((s.take n).map byteUnits).sum := by
  have htake : s.take (min n s.length) = s.take n := by
    rcases Nat.le_total n s.length with h | h
    · rw [Nat.min_eq_left h]
    · rw [Nat.min_eq_right h, List.take_length, List.take_of_length_le h]
  by_cases hn : (n : ℤ) ≤ 0
  · obtain rfl : n = 0 := by omega
    rw [byteToUtf16Units, if_pos (Or.inr hn), List.take_zero]
    rfl
  · rw [byteToUtf16Units, if_neg (by simpa using hn), Int.toNat_natCast, htake]

/-- The sum grows with the offset. -/
lemma byteToUtf16Units_mono (s : List UInt8) : Monotone fun b => byteToUtf16Units s b false := by
  have hprefix : ∀ m n : ℕ, m ≤ n →
      byteToUtf16Units s m false ≤ byteToUtf16Units s n false := by
    intro m n hmn
    obtain ⟨rest, hrest⟩ := List.take_prefix_take_left (l := s) hmn
    rw [byteToUtf16Units_nat, byteToUtf16Units_nat, ← hrest, List.map_append, List.sum_append]
    have hnonneg : 0 ≤ (rest.map byteUnits).sum :=
      List.sum_nonneg fun x hx => by
        obtain ⟨b, -, rfl⟩ := List.mem_map.mp hx
        exact byteUnits_nonneg b
    omega
  intro a b hab
  rcases lt_or_ge a 0 with ha | ha
  · have hlow : byteToUtf16Units s a false = a := if_pos (Or.inr ha.le)
    rcases le_or_gt b 0 with hb | hb
    · have hlow' : byteToUtf16Units s b false = b := if_pos (Or.inr hb)
      change byteToUtf16Units s a false ≤ byteToUtf16Units s b false
      rwa [hlow, hlow']
    · obtain ⟨n, rfl⟩ := Int.eq_ofNat_of_zero_le hb.le
      have hzero : byteToUtf16Units s (0 : ℕ) false = 0 := byteToUtf16Units_nat s 0
      have hle := hprefix 0 n (Nat.zero_le n)
      change byteToUtf16Units s a false ≤ byteToUtf16Units s n false
      omega
  · obtain ⟨m, rfl⟩ := Int.eq_ofNat_of_zero_le ha
    obtain ⟨n, rfl⟩ := Int.eq_ofNat_of_zero_le (ha.trans hab)
    exact hprefix m n (by exact_mod_cast hab)

section Strings

variable {cps : List ℕ}

/-- At a boundary the sum is the code units before it. -/
lemma byteToUtf16Units_boundary (hcps : ∀ c ∈ cps, c ≤ 0x10FFFF) (k : ℕ) :
    byteToUtf16Units (bytesOf cps) (byteBoundary cps k) false = unitBoundary cps k := by
  have hsplit : bytesOf cps = bytesOf (cps.take k) ++ bytesOf (cps.drop k) := by
    rw [bytesOf, bytesOf, bytesOf, ← List.flatMap_append, List.take_append_drop]
  rw [byteToUtf16Units_nat, hsplit, byteBoundary, List.take_left,
    sum_byteUnits fun c hc => hcps c (List.mem_of_mem_take hc), unitBoundary]

/-! ### The walk -/

/-- The walk at a byte of the string. -/
lemma unitsWalk_at {s : List UInt8} {u v : ℤ} {i : ℕ} {b : UInt8} (hget : s[i]? = some b) :
    unitsWalk s u i v =
      if u ≤ v then (i : ℤ) else if u < v + (unitStep b).2 then (i : ℤ)
      else unitsWalk s u (i + (unitStep b).1) (v + (unitStep b).2) := by
  obtain ⟨hlt, rfl⟩ := List.getElem?_eq_some_iff.mp hget
  rw [unitsWalk, dif_pos hlt]

/-- The walk at the end of the string. -/
lemma unitsWalk_end {s : List UInt8} {u v : ℤ} :
    unitsWalk s u s.length v = if u ≤ v then (s.length : ℤ) else s.length + 1 := by
  rw [unitsWalk, dif_neg (Nat.lt_irrefl _)]

/-- The byte at a boundary leads the code point there. -/
lemma getElem?_boundary {k c : ℕ} (hget : cps[k]? = some c) {lead : UInt8} {tail : List UInt8}
    (hlead : encodeCp c = lead :: tail) : (bytesOf cps)[byteBoundary cps k]? = some lead := by
  rw [bytesOf_split hget, byteBoundary, List.getElem?_append_right (Nat.le_refl _), Nat.sub_self,
    hlead]
  rfl

/-- The walk steps from boundary to boundary. -/
lemma unitsWalk_boundary (hcps : ∀ c ∈ cps, c ≤ 0x10FFFF) (u : ℤ) {k : ℕ} (hk : k < cps.length) :
    unitsWalk (bytesOf cps) u (byteBoundary cps k) (unitBoundary cps k) =
      if u ≤ unitBoundary cps k then (byteBoundary cps k : ℤ)
      else if u < unitBoundary cps (k + 1) then (byteBoundary cps k : ℤ)
      else unitsWalk (bytesOf cps) u (byteBoundary cps (k + 1)) (unitBoundary cps (k + 1)) := by
  obtain ⟨c, hget⟩ : ∃ c, cps[k]? = some c := ⟨_, List.getElem?_eq_getElem hk⟩
  obtain ⟨lead, tail, hlead, hstep, -⟩ := encodeCp_step (hcps c (List.mem_of_getElem? hget))
  rw [unitsWalk_at (getElem?_boundary hget hlead), hstep, byteBoundary_succ hget,
    unitBoundary_succ hget, Nat.cast_add]

/-- **The walk** from a boundary on stops at the last boundary at or before the unit, or behind the
end when the string has fewer units. -/
lemma unitsWalk_spec (hcps : ∀ c ∈ cps, c ≤ 0x10FFFF) (u : ℤ) {k : ℕ} (hk : k ≤ cps.length)
    (hu : unitBoundary cps k ≤ u) :
    (∃ j, j ≤ cps.length ∧
      unitsWalk (bytesOf cps) u (byteBoundary cps k) (unitBoundary cps k) = byteBoundary cps j ∧
      unitBoundary cps j ≤ u ∧ (j < cps.length → u < unitBoundary cps (j + 1)) ∧
      u ≤ unitBoundary cps cps.length) ∨
    (unitBoundary cps cps.length < u ∧
      unitsWalk (bytesOf cps) u (byteBoundary cps k) (unitBoundary cps k) =
        (bytesOf cps).length + 1) := by
  induction hk using Nat.decreasingInduction with
  | self =>
    have hend : byteBoundary cps cps.length = (bytesOf cps).length := by
      rw [byteBoundary, List.take_length]
    rw [hend, unitsWalk_end]
    by_cases hle : u ≤ unitBoundary cps cps.length
    · exact Or.inl ⟨_, Nat.le_refl _, by rw [if_pos hle, hend], hu, fun h => absurd h (by omega), hle⟩
    · exact Or.inr ⟨not_le.mp hle, if_neg hle⟩
  | of_succ k hk ih =>
    have hlt : k < cps.length := hk
    have hstep := unitBoundary_lt (Nat.lt_succ_self k) hk
    have htotal : unitBoundary cps (k + 1) ≤ unitBoundary cps cps.length := by
      rcases Nat.eq_or_lt_of_le hk with heq | hless
      · rw [← heq]
      · exact (unitBoundary_lt hless (Nat.le_refl _)).le
    rw [unitsWalk_boundary hcps u hlt]
    by_cases hnext : u < unitBoundary cps (k + 1)
    · refine Or.inl ⟨k, hlt.le, ?_, hu, fun _ => hnext, ?_⟩
      · rw [if_pos hnext, ite_self]
      · have hcast : (unitBoundary cps (k + 1) : ℤ) ≤ unitBoundary cps cps.length := by
          exact_mod_cast htotal
        omega
    · have hafter : ¬ u ≤ unitBoundary cps k := by
        have hcast : (unitBoundary cps k : ℤ) < unitBoundary cps (k + 1) := by exact_mod_cast hstep
        omega
      rw [if_neg hafter, if_neg hnext]
      exact ih (not_lt.mp hnext)

/-! ### Both maps -/

/-- The maps agree on a string: at a boundary the sum is the number of code units before it and
the walk takes it back; the sum grows with the offset; and a unit of the string is taken to the
last boundary at or before it.  Behind the end the walk gives one byte more than the string has,
but an offset into an ASCII string is passed on as it is. -/
structure MapsAgree (cps : List ℕ) (isAscii : Bool) : Prop where
  counts : ∀ k ≤ cps.length,
    byteToUtf16Units (bytesOf cps) (byteBoundary cps k) isAscii = unitBoundary cps k
  back : ∀ k ≤ cps.length, utf16UnitsToByte (bytesOf cps)
    (byteToUtf16Units (bytesOf cps) (byteBoundary cps k) isAscii) isAscii = byteBoundary cps k
  grows : Monotone fun b => byteToUtf16Units (bytesOf cps) b isAscii
  floor : ∀ u : ℤ, 0 ≤ u → u ≤ unitBoundary cps cps.length → ∃ j ≤ cps.length,
    utf16UnitsToByte (bytesOf cps) u isAscii = byteBoundary cps j ∧ unitBoundary cps j ≤ u ∧
      ∀ i ≤ cps.length, unitBoundary cps i ≤ u → unitBoundary cps i ≤ unitBoundary cps j
  past : ∀ u : ℤ, unitBoundary cps cps.length < u →
    utf16UnitsToByte (bytesOf cps) u isAscii = if isAscii then u else (bytesOf cps).length + 1

lemma unitBoundary_mono {i j : ℕ} (hij : i ≤ j) (hj : j ≤ cps.length) :
    unitBoundary cps i ≤ unitBoundary cps j := by
  rcases Nat.eq_or_lt_of_le hij with rfl | hlt
  · exact Nat.le_refl _
  · exact (unitBoundary_lt hlt hj).le

/-- The boundary that the walk gives is the last one at or before the unit. -/
lemma last_of_next {u : ℤ} {j : ℕ} (hnext : j < cps.length → u < unitBoundary cps (j + 1))
    (hj : j ≤ cps.length) {i : ℕ} (hi : i ≤ cps.length) (hu : unitBoundary cps i ≤ u) : i ≤ j := by
  by_contra hlt
  have hbound := unitBoundary_mono (show j + 1 ≤ i by omega) hi
  have hcast : (unitBoundary cps (j + 1) : ℤ) ≤ unitBoundary cps i := by exact_mod_cast hbound
  have hless := hnext (by omega)
  omega

/-- From the first unit on the map of units is the walk. -/
lemma utf16UnitsToByte_eq (s : List UInt8) {u : ℤ} (hu : 0 < u) :
    utf16UnitsToByte s u false = unitsWalk s u 0 0 := by
  rw [utf16UnitsToByte, if_neg (by simpa using hu)]

lemma unitsToByte_spec (hcps : ∀ c ∈ cps, c ≤ 0x10FFFF) {u : ℤ} (hu : 0 ≤ u) :
    (∃ j, j ≤ cps.length ∧ utf16UnitsToByte (bytesOf cps) u false = byteBoundary cps j ∧
      unitBoundary cps j ≤ u ∧ (j < cps.length → u < unitBoundary cps (j + 1)) ∧
      u ≤ unitBoundary cps cps.length) ∨
    (unitBoundary cps cps.length < u ∧
      utf16UnitsToByte (bytesOf cps) u false = (bytesOf cps).length + 1) := by
  rcases hu.eq_or_lt with rfl | hpos
  · refine Or.inl ⟨0, Nat.zero_le _, rfl, le_rfl, fun hlt => ?_, by positivity⟩
    have hfirst := unitBoundary_lt (Nat.lt_succ_self 0) hlt
    exact_mod_cast hfirst
  · rw [utf16UnitsToByte_eq _ hpos]
    exact unitsWalk_spec hcps u (Nat.zero_le _) hu

/-- A string of ASCII has one byte and one code unit for each code point. -/
lemma ascii_boundaries (hascii : ∀ c ∈ cps, c < 0x80) {k : ℕ} (hk : k ≤ cps.length) :
    byteBoundary cps k = k ∧ unitBoundary cps k = k := by
  induction k with
  | zero => exact ⟨rfl, rfl⟩
  | succ k ih =>
    obtain ⟨c, hget⟩ : ∃ c, cps[k]? = some c := ⟨_, List.getElem?_eq_getElem hk⟩
    have hc := hascii c (List.mem_of_getElem? hget)
    obtain ⟨hbyte, hunit⟩ := ih (by omega)
    have hone : encodeCp c = [UInt8.ofNat c] := if_pos hc
    rw [byteBoundary_succ hget, unitBoundary_succ hget, hbyte, hunit, hone,
      units_small (by omega)]
    exact ⟨rfl, rfl⟩

/-- **The offset maps agree** on every string of code points, the surrogates among them in pairs
or alone; the flag of an ASCII string is set for ASCII only. -/
theorem mapsAgree (cps : List ℕ) (isAscii : Bool) (hcps : ∀ c ∈ cps, c ≤ 0x10FFFF)
    (hascii : isAscii = true → ∀ c ∈ cps, c < 0x80) : MapsAgree cps isAscii := by
  cases isAscii with
  | true =>
    have hsame (x : ℤ) : utf16UnitsToByte (bytesOf cps) x true = x := if_pos (Or.inl rfl)
    have hsame' (x : ℤ) : byteToUtf16Units (bytesOf cps) x true = x := if_pos (Or.inl rfl)
    have hone {k : ℕ} (hk : k ≤ cps.length) := ascii_boundaries (hascii rfl) hk
    refine ⟨fun k hk => ?_, fun k hk => ?_, fun a b hab => ?_, fun u h0 hu => ?_, fun u _ => hsame u⟩
    · rw [hsame', (hone hk).1, (hone hk).2]
    · rw [hsame', hsame]
    · change byteToUtf16Units (bytesOf cps) a true ≤ byteToUtf16Units (bytesOf cps) b true
      rwa [hsame', hsame']
    · obtain ⟨j, rfl⟩ := Int.eq_ofNat_of_zero_le h0
      rw [(hone le_rfl).2] at hu
      have hj : j ≤ cps.length := by exact_mod_cast hu
      refine ⟨j, hj, ?_, ?_, fun i hi hle => ?_⟩
      · rw [hsame, (hone hj).1]
      · rw [(hone hj).2]
      · rw [(hone hi).2] at hle
        rw [(hone hi).2, (hone hj).2]
        exact_mod_cast hle
  | false =>
    refine ⟨fun k _ => byteToUtf16Units_boundary hcps k, fun k hk => ?_,
      byteToUtf16Units_mono (bytesOf cps), fun u h0 hu => ?_, fun u hu => ?_⟩
    · rw [byteToUtf16Units_boundary hcps k]
      have htotal := unitBoundary_mono hk le_rfl
      rcases unitsToByte_spec hcps (u := unitBoundary cps k) (by positivity) with
        ⟨j, hj, hbyte, hle, hnext, -⟩ | ⟨hless, -⟩
      · have hkj := last_of_next hnext hj hk le_rfl
        rcases Nat.eq_or_lt_of_le hkj with rfl | hlt
        · exact hbyte
        · have habsurd := unitBoundary_lt hlt hj
          exact absurd hle (by exact_mod_cast Nat.not_le_of_lt habsurd)
      · exact absurd hless (by exact_mod_cast Nat.not_lt_of_le htotal)
    · rcases unitsToByte_spec hcps h0 with ⟨j, hj, hbyte, hle, hnext, -⟩ | ⟨hless, -⟩
      · exact ⟨j, hj, hbyte, hle, fun i hi hiu => unitBoundary_mono (last_of_next hnext hj hi hiu) hj⟩
      · omega
    · rcases unitsToByte_spec hcps (u := u) (by omega) with ⟨_, _, _, _, _, hle⟩ | ⟨-, hpast⟩
      · omega
      · exact hpast

/-- The maps agree on a string of one, two, three and four bytes, with a pair of surrogates. -/
theorem mapsAgree_mixed : MapsAgree [0x68, 0xE9, 0x4E16, 0x1D11E, 0xD834, 0xDD1E] false :=
  mapsAgree _ _ (by decide) nofun

end Strings

/-- An offset behind the end of an ASCII string is passed on. -/
theorem not_behind_ascii :
    ¬ ∀ (cps : List ℕ) (isAscii : Bool), (∀ c ∈ cps, c ≤ 0x10FFFF) →
      (isAscii = true → ∀ c ∈ cps, c < 0x80) → ∀ u : ℤ, unitBoundary cps cps.length < u →
      utf16UnitsToByte (bytesOf cps) u isAscii = (bytesOf cps).length + 1 := by
  intro h
  have hbehind := h [0x61] true (by decide) (by decide) 5 (by decide)
  have hsame : utf16UnitsToByte (bytesOf [0x61]) 5 true = 5 := if_pos (Or.inl rfl)
  rw [hsame] at hbehind
  have hlength : (bytesOf [0x61]).length = 1 := rfl
  rw [hlength] at hbehind
  omega

end Torajs.Regex
