import ToraJs.Json.StringScan

/-!
# Quoting and reading back

Both encodings are quoted to the same characters: each code unit by itself, with a look at its
neighbours where it is a surrogate.  The sizing pass counts them, they hide every character that may
not stand in a JSON string and every lone surrogate, and reading them gives the code units back.
-/

namespace Torajs.Json

open Unicode

/-! ### Quoted characters -/

/-- A surrogate between two neighbours that pairs with neither. -/
def IsLone (prev : Option ℕ) (u : ℕ) (next : Option ℕ) : Prop :=
  (IsHigh u ∧ ∀ l ∈ next, ¬ IsLow l) ∨ (IsLow u ∧ ∀ h ∈ prev, ¬ IsHigh h)

instance (prev : Option ℕ) (u : ℕ) (next : Option ℕ) : Decidable (IsLone prev u next) :=
  inferInstanceAs (Decidable (_ ∨ _))

/-- A quoted code unit. -/
def quotedUnit (lone : Bool) (u : ℕ) : List ℕ :=
  match shortEscape u with
  | some e => [0x5C, e]
  | none => if u < 0x20 ∨ lone = true then hexEscape u else [u]

/-- Quoted code units behind another. -/
def quotedChars : Option ℕ → List ℕ → List ℕ
  | _, [] => []
  | prev, u :: us => quotedUnit (decide (IsLone prev u us.head?)) u ++ quotedChars (some u) us

/-! ### They are characters of a JSON string -/

lemma JsonChars.append {s s' out out' : List ℕ} (h : JsonChars s out) (h' : JsonChars s' out') :
    JsonChars (s ++ s') (out ++ out') := by
  induction h with
  | nil => exact h'
  | unescaped hc hquote hslash _ ih => exact JsonChars.unescaped hc hquote hslash ih
  | escape he _ ih => exact JsonChars.escape he ih
  | hex ha hb hc hd _ ih => exact JsonChars.hex ha hb hc hd ih

/-- The short escapes are read back. -/
lemma escapeValue_shortEscape {u e : ℕ} (h : shortEscape u = some e) : escapeValue e = some u := by
  rw [shortEscape] at h
  split_ifs at h with h1 h2 h3 h4 h5 h6 h7
  · obtain rfl := Option.some.inj h
    rw [h1]
    rfl
  · obtain rfl := Option.some.inj h
    rw [h2]
    rfl
  · obtain rfl := Option.some.inj h
    rw [h3]
    rfl
  · obtain rfl := Option.some.inj h
    rw [h4]
    rfl
  · obtain rfl := Option.some.inj h
    rw [h5]
    rfl
  · obtain rfl := Option.some.inj h
    rw [h6]
    rfl
  · obtain rfl := Option.some.inj h
    rw [h7]
    rfl

lemma ne_of_shortEscape {u : ℕ} (h : shortEscape u = none) : u ≠ 0x22 ∧ u ≠ 0x5C := by
  rw [shortEscape] at h
  constructor
  · rintro rfl
    cases h
  · rintro rfl
    cases h

lemma hexDigit_hexLower {n : ℕ} (hn : n < 16) : hexDigit (hexLower n) = some n := by
  have hall : ∀ n < 16, hexDigit (hexLower n) = some n := by decide
  exact hall n hn

/-- The four digits of a code unit. -/
lemma hexEscape_eq (u : ℕ) : hexEscape u = [0x5C, 0x75, hexLower (u / 4096),
    hexLower (u / 256 % 16), hexLower (u / 16 % 16), hexLower (u % 16)] := by
  have h12 : u >>> 12 = u / 4096 := Nat.shiftRight_eq_div_pow u 12
  have h8 : u >>> 8 &&& 0xF = u / 256 % 16 := by
    rw [Nat.shiftRight_eq_div_pow]
    exact Nat.and_two_pow_sub_one_eq_mod _ 4
  have h4 : u >>> 4 &&& 0xF = u / 16 % 16 := by
    rw [Nat.shiftRight_eq_div_pow]
    exact Nat.and_two_pow_sub_one_eq_mod _ 4
  have h0 : u &&& 0xF = u % 16 := Nat.and_two_pow_sub_one_eq_mod _ 4
  rw [hexEscape, h12, h8, h4, h0]

lemma jsonChars_quotedUnit (lone : Bool) {u : ℕ} (hu : u < 65536) :
    JsonChars (quotedUnit lone u) [u] := by
  rw [quotedUnit]
  cases hshort : shortEscape u with
  | some e => exact JsonChars.escape (escapeValue_shortEscape hshort) JsonChars.nil
  | none =>
    dsimp only
    obtain ⟨hquote, hslash⟩ := ne_of_shortEscape hshort
    split_ifs with hesc
    · have hread := JsonChars.hex (hexDigit_hexLower (show u / 4096 < 16 by omega))
        (hexDigit_hexLower (show u / 256 % 16 < 16 by omega))
        (hexDigit_hexLower (show u / 16 % 16 < 16 by omega))
        (hexDigit_hexLower (show u % 16 < 16 by omega)) JsonChars.nil
      rw [show ((u / 4096 * 16 + u / 256 % 16) * 16 + u / 16 % 16) * 16 + u % 16 = u by omega]
        at hread
      rw [hexEscape_eq]
      exact hread
    · obtain ⟨hcontrol, -⟩ := not_or.mp hesc
      exact JsonChars.unescaped (Nat.not_lt.mp hcontrol) hquote hslash JsonChars.nil

/-- **Quoted characters stand for the code units.** -/
theorem jsonChars_quotedChars (prev : Option ℕ) {us : List ℕ} (hus : ∀ u ∈ us, u < 65536) :
    JsonChars (quotedChars prev us) us := by
  induction us generalizing prev with
  | nil => exact JsonChars.nil
  | cons u us ih =>
    exact (jsonChars_quotedUnit _ (hus u List.mem_cons_self)).append
      (ih (some u) fun v hv => hus v (List.mem_cons_of_mem _ hv))

/-! ### No surrogate is lone -/

lemma loneSurrogate_plain {u : ℕ} {s : List ℕ} (hhigh : ¬ IsHigh u) (hlow : ¬ IsLow u) :
    LoneSurrogate (u :: s) ↔ LoneSurrogate s :=
  (loneSurrogate_cons hhigh).trans (or_iff_right hlow)

lemma ascii_not_surrogate {u : ℕ} (h : u < 0x80) : ¬ IsHigh u ∧ ¬ IsLow u := by
  constructor
  · intro hu
    have := hu.1
    omega
  · intro hu
    have := hu.1
    omega

/-- Characters of ASCII in front make no surrogate lone. -/
lemma loneSurrogate_ascii {w s : List ℕ} (hw : ∀ u ∈ w, u < 0x80) :
    LoneSurrogate (w ++ s) ↔ LoneSurrogate s := by
  induction w with
  | nil => exact Iff.rfl
  | cons u w ih =>
    obtain ⟨hhigh, hlow⟩ := ascii_not_surrogate (hw u List.mem_cons_self)
    rw [List.cons_append, loneSurrogate_plain hhigh hlow]
    exact ih fun v hv => hw v (List.mem_cons_of_mem _ hv)

lemma hexLower_lt {n : ℕ} (hn : n < 16) : hexLower n < 0x80 := by
  rw [hexLower]
  split_ifs <;> omega

lemma shortEscape_lt {u e : ℕ} (h : shortEscape u = some e) : u < 0x80 ∧ e < 0x80 := by
  rw [shortEscape] at h
  split_ifs at h <;> (obtain rfl := Option.some.inj h; omega)

/-- A quoted code unit is written in ASCII, or is the unit itself and not lone. -/
lemma quotedUnit_cases (lone : Bool) {u : ℕ} (hu : u < 65536) :
    (∀ v ∈ quotedUnit lone u, v < 0x80) ∨ quotedUnit lone u = [u] ∧ lone = false := by
  rw [quotedUnit]
  cases hshort : shortEscape u with
  | some e =>
    left
    intro v hv
    rcases List.mem_cons.mp hv with rfl | hv
    · omega
    · rw [List.mem_singleton.mp hv]
      exact (shortEscape_lt hshort).2
  | none =>
    dsimp only
    split_ifs with hesc
    · left
      intro v hv
      rw [hexEscape_eq] at hv
      simp only [List.mem_cons, List.not_mem_nil, or_false] at hv
      rcases hv with rfl | rfl | rfl | rfl | rfl | rfl
      · omega
      · omega
      · exact hexLower_lt (by omega)
      · exact hexLower_lt (by omega)
      · exact hexLower_lt (by omega)
      · exact hexLower_lt (by omega)
    · exact Or.inr ⟨rfl, Bool.eq_false_iff.mpr (not_or.mp hesc).2⟩

/-- A half of a pair is written as itself. -/
lemma quotedUnit_paired {u : ℕ} (hsurrogate : IsHigh u ∨ IsLow u) : quotedUnit false u = [u] := by
  have hlarge : 0xD800 ≤ u := by
    rcases hsurrogate with h | h
    · exact h.1
    · have := h.1
      omega
  rw [quotedUnit]
  cases hshort : shortEscape u with
  | some e =>
    have := (shortEscape_lt hshort).1
    omega
  | none =>
    dsimp only
    refine if_neg (not_or.mpr ⟨by omega, Bool.false_ne_true⟩)

/-- **No surrogate is lone in quoted characters.** -/
theorem not_loneSurrogate_quotedChars {us : List ℕ} (hus : ∀ u ∈ us, u < 65536) {prev : Option ℕ}
    (hprev : ∀ h ∈ prev, ∀ l ∈ us.head?, ¬ (IsHigh h ∧ IsLow l)) :
    ¬ LoneSurrogate (quotedChars prev us ++ [0x22]) := by
  have hrun : ∀ (k : ℕ) (us : List ℕ) (prev : Option ℕ), us.length ≤ k → (∀ u ∈ us, u < 65536) →
      (∀ h ∈ prev, ∀ l ∈ us.head?, ¬ (IsHigh h ∧ IsLow l)) →
      ¬ LoneSurrogate (quotedChars prev us ++ [0x22]) := by
    have hend : ¬ LoneSurrogate [0x22] := by
      rw [loneSurrogate_plain (by decide) (by decide)]
      rintro ⟨p, u, r, hsplit, -⟩
      exact absurd hsplit.symm (List.append_ne_nil_of_right_ne_nil _ (List.cons_ne_nil _ _))
    intro k
    induction k with
    | zero =>
      intro us prev hk _ _
      obtain rfl := List.length_eq_zero_iff.mp (Nat.le_zero.mp hk)
      exact hend
    | succ k ih =>
      intro us prev hk hus hprev
      cases us with
      | nil => exact hend
      | cons u us =>
        have hu := hus u List.mem_cons_self
        have hus' := fun v hv => hus v (List.mem_cons_of_mem u hv)
        rw [List.length_cons] at hk
        rw [quotedChars, List.append_assoc]
        rcases quotedUnit_cases (decide (IsLone prev u us.head?)) hu with hascii | ⟨hsame, hlone⟩
        · rw [loneSurrogate_ascii hascii]
          refine ih us (some u) (by omega) hus' fun h hh l hl => ?_
          obtain rfl := Option.some.inj hh
          rintro ⟨hhigh, hlow⟩
          -- a high half is written as itself
          have hpaired : ¬ IsLone prev u us.head? := by
            rintro (⟨-, hnext⟩ | ⟨hlow', -⟩)
            · exact hnext l hl hlow
            · exact hlow'.not_isHigh hhigh
          rw [decide_eq_false hpaired, quotedUnit_paired (Or.inl hhigh)] at hascii
          have := hascii u List.mem_cons_self
          have := hhigh.1
          omega
        · have hnotlone := of_decide_eq_false hlone
          rw [hsame, List.singleton_append]
          by_cases hhigh : IsHigh u
          · -- a high half stands before a low one, which is written as itself as well
            cases us with
            | nil => exact absurd (Or.inl ⟨hhigh, (fun l hl => by cases hl)⟩) hnotlone
            | cons lo us =>
              have hlow : IsLow lo := by
                by_contra hlow
                refine hnotlone (Or.inl ⟨hhigh, fun l hl => ?_⟩)
                obtain rfl := Option.some.inj hl
                exact hlow
              have hpaired : ¬ IsLone (some u) lo us.head? := by
                rintro (⟨hhigh', -⟩ | ⟨-, hprev'⟩)
                · exact hlow.not_isHigh hhigh'
                · exact hprev' u rfl hhigh
              rw [quotedChars, decide_eq_false hpaired, quotedUnit_paired (Or.inr hlow),
                List.append_assoc, List.singleton_append, loneSurrogate_pair hhigh hlow]
              rw [List.length_cons] at hk
              refine ih us (some lo) (by omega) (fun v hv => hus' v (List.mem_cons_of_mem _ hv))
                fun h hh l _ hbad => ?_
              obtain rfl := Option.some.inj hh
              exact hlow.not_isHigh hbad.1
          · have hlow : ¬ IsLow u := by
              intro hlow
              refine hnotlone (Or.inr ⟨hlow, fun h hh hhigh' => ?_⟩)
              exact hprev h hh u rfl ⟨hhigh', hlow⟩
            rw [loneSurrogate_plain hhigh hlow]
            refine ih us (some u) (by omega) hus' fun h hh l _ hbad => ?_
            obtain rfl := Option.some.inj hh
            exact hhigh hbad.1
  exact hrun us.length us prev le_rfl hus hprev

/-! ### Both walks write them -/

lemma isLoneAt_iff {unit : ℕ → ℕ} {n i : ℕ} {prev next : Option ℕ}
    (hnext : next = if i + 1 < n then some (unit (i + 1)) else none)
    (hprev : prev = if 0 < i then some (unit (i - 1)) else none) :
    isLoneAt unit n i = decide (IsLone prev (unit i) next) := by
  have hhigh : ∀ u, 0xD800 ≤ u ∧ u ≤ 0xDBFF ↔ IsHigh u := fun u =>
    and_congr_right fun _ => Nat.lt_succ_iff.symm
  have hlow : ∀ u, 0xDC00 ≤ u ∧ u ≤ 0xDFFF ↔ IsLow u := fun u =>
    and_congr_right fun _ => Nat.lt_succ_iff.symm
  have hboth : 0xD800 ≤ unit i ∧ unit i ≤ 0xDFFF ↔ IsHigh (unit i) ∨ IsLow (unit i) := by
    rw [← hhigh, ← hlow]
    omega
  rw [Bool.eq_iff_iff, decide_eq_true_iff, isLoneAt, surrogateIsPaired, Bool.and_eq_true,
    decide_eq_true_iff, hboth, Bool.not_eq_true', IsLone]
  simp only [hhigh, hlow]
  by_cases h1 : IsHigh (unit i)
  · have h2 : ¬ IsLow (unit i) := fun h => h.not_isHigh h1
    rw [if_pos h1, decide_eq_false_iff_not, hnext]
    by_cases hin : i + 1 < n
    · simp [h1, h2, hin]
    · simp [h1, h2, hin]
  · rw [if_neg h1]
    by_cases h2 : IsLow (unit i)
    · rw [if_pos h2, decide_eq_false_iff_not, hprev]
      by_cases hin : 0 < i
      · simp [h1, h2, hin]
      · simp [h1, h2, hin]
    · simp [h1, h2]

/-- The walk over code units from a place on. -/
lemma flatMap_unitPiece (data : JsonSrc) (k m : ℕ) (hk : k + m = data.len) :
    (List.range' k m).flatMap (fun i => unitPiece data.unit data.len i) =
      quotedChars (if 0 < k then some (data.unit (k - 1)) else none) (data.units.drop k) := by
  induction m generalizing k with
  | zero =>
    rw [JsonSrc.drop_units_of_le (by omega)]
    rfl
  | succ m ih =>
    have hlt : k < data.len := by omega
    have hhead : (data.units.drop (k + 1)).head? =
        if k + 1 < data.len then some (data.unit (k + 1)) else none := by
      split_ifs with hin
      · rw [JsonSrc.drop_units hin]
        rfl
      · rw [JsonSrc.drop_units_of_le (by omega)]
        rfl
    rw [List.range'_succ, List.flatMap_cons, ih (k + 1) (by omega), JsonSrc.drop_units hlt,
      quotedChars, if_pos (Nat.succ_pos k), Nat.add_sub_cancel]
    congr 1
    rw [unitPiece, quotedUnit, isLoneAt_iff hhead rfl] <;> rfl

/-- The units that take two are those with a short escape. -/
lemma isShort_eq (u : ℕ) : isShort u = (shortEscape u).isSome := by
  rw [isShort, shortEscape, Bool.eq_iff_iff]
  simp only [Bool.or_eq_true, decide_eq_true_eq]
  split_ifs <;> simp_all

/-- Both passes agree on a code unit. -/
lemma length_unitPiece (unit : ℕ → ℕ) (n i : ℕ) :
    (unitPiece unit n i).length = unitSize unit n i := by
  rw [unitPiece, unitSize, isShort_eq]
  cases shortEscape (unit i) with
  | some e => rfl
  | none =>
    dsimp only [Option.isSome_none]
    rw [if_neg Bool.false_ne_true]
    split_ifs <;> first | rfl | simp_all

lemma foldl_sizes (f : ℕ → ℕ) (l : List ℕ) (a : ℕ) :
    l.foldl (fun out i => out + f i) a = a + (l.map f).sum := by
  induction l generalizing a with
  | nil => rfl
  | cons i l ih =>
    rw [List.foldl_cons, ih, List.map_cons, List.sum_cons, Nat.add_assoc]

/-- **The walk over code units** writes the quoted characters, as many as were counted. -/
theorem quoteUtf16_eq (data : JsonSrc) :
    let text := 0x22 :: quotedChars none data.units ++ [0x22]
    quoteUtf16 data = if strMaxLen < text.length then none
      else some ⟨writtenBytes false text, text.length, false⟩ := by
  intro text
  have hwalk : (List.range data.len).flatMap (fun i => unitPiece data.unit data.len i) =
      quotedChars none data.units := by
    have hfrom := flatMap_unitPiece data 0 data.len (Nat.zero_add _)
    rwa [← List.range_eq_range'] at hfrom
  have hsize : (List.range data.len).foldl (fun out i => out + unitSize data.unit data.len i) 2 =
      text.length := by
    have hpieces : (List.range data.len).map (fun i => (unitPiece data.unit data.len i).length) =
        (List.range data.len).map (unitSize data.unit data.len) :=
      List.map_congr_left fun i _ => length_unitPiece data.unit data.len i
    rw [foldl_sizes, List.length_append, List.length_cons, List.length_singleton, ← hwalk,
      List.length_flatMap, hpieces]
    omega
  rw [quoteUtf16, hsize, hwalk]

end Torajs.Json
