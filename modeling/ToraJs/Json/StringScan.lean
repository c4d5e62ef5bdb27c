import ToraJs.Json.Quote

/-!
# Reading a string

The two passes of the string reader agree: the first goes over the characters of a JSON string to
its closing quote and counts what they stand for, the second writes it.
-/

namespace Torajs.Json

open Unicode

/-! ### Blocks -/

lemma length_writtenBytes (latin1 : Bool) (units : List ℕ) :
    (writtenBytes latin1 units).length = stride latin1 * units.length := by
  cases latin1 with
  | true => rw [writtenBytes, if_pos rfl, List.length_map, stride, if_pos rfl, Nat.one_mul]
  | false =>
    rw [writtenBytes, if_neg Bool.false_ne_true, stride, if_neg Bool.false_ne_true]
    induction units with
    | nil => rfl
    | cons u units ih =>
      rw [List.flatMap_cons, List.length_append, ih]
      simp only [List.length_cons, List.length_nil]
      omega

/-- The unit at a place of a block that was written. -/
lemma unit_written (latin1 : Bool) {units : List ℕ} (n : ℕ)
    (hunits : ∀ u ∈ units, u < if latin1 then 256 else 65536) {i : ℕ} (hi : i < units.length) :
    JsonSrc.unit ⟨writtenBytes latin1 units, n, latin1⟩ i = units.getD i 0 := by
  cases latin1 with
  | true =>
    have hmem : units[i] < 256 := hunits _ (List.getElem_mem hi)
    rw [JsonSrc.unit, if_pos rfl, writtenBytes, if_pos rfl]
    dsimp only
    rw [List.getD_eq_getElem?_getD, List.getElem?_map, List.getElem?_eq_getElem hi,
      List.getD_eq_getElem?_getD, List.getElem?_eq_getElem hi, Option.map_some,
      Option.getD_some, Option.getD_some, UInt8.toNat_ofNat', Nat.mod_eq_of_lt hmem]
  | false =>
    rw [JsonSrc.unit, if_neg Bool.false_ne_true, writtenBytes, if_neg Bool.false_ne_true]
    dsimp only
    induction units generalizing i with
    | nil => exact absurd hi (Nat.not_lt_zero i)
    | cons u units ih =>
      have hu : u < 65536 := hunits u List.mem_cons_self
      rw [List.flatMap_cons]
      cases i with
      | zero =>
        change (UInt8.ofNat u).toNat + 256 * (UInt8.ofNat (u / 256)).toNat = u
        rw [UInt8.toNat_ofNat', UInt8.toNat_ofNat']
        omega
      | succ i =>
        have hrest := ih (Nat.lt_of_succ_lt_succ hi) fun v hv =>
          hunits v (List.mem_cons_of_mem _ hv)
        rw [show 2 * (i + 1) + 1 = 2 * i + 1 + 1 + 1 by omega,
          show 2 * (i + 1) = 2 * i + 1 + 1 by omega]
        exact hrest

/-- **A block that was written is read back.** -/
theorem units_written (latin1 : Bool) {units : List ℕ}
    (hunits : ∀ u ∈ units, u < if latin1 then 256 else 65536) :
    JsonSrc.units ⟨writtenBytes latin1 units, units.length, latin1⟩ = units := by
  refine List.ext_getElem ?_ fun i hi hi' => ?_
  · rw [JsonSrc.length_units]
  · simp only [JsonSrc.units, List.getElem_map, List.getElem_range]
    rw [unit_written latin1 _ hunits hi', List.getD_eq_getElem?_getD,
      List.getElem?_eq_getElem hi', Option.getD_some]

/-! ### Digits and letters -/

section Reader

variable {data : JsonSrc}

lemma hexDigit_lt {c d : ℕ} (h : hexDigit c = some d) : d < 16 := by
  rw [hexDigit] at h
  split_ifs at h with h1 h2 h3
  · obtain rfl := Option.some.inj h
    omega
  · obtain rfl := Option.some.inj h
    omega
  · obtain rfl := Option.some.inj h
    omega

/-- A unit that is no ASCII is read as NUL, and is neither a digit nor a letter of an escape. -/
lemma hexDigit_ascii (i : ℕ) : hexDigit (data.ascii i) = hexDigit (data.unit i) := by
  rw [JsonSrc.ascii]
  split_ifs with hlt
  · rfl
  · have hno : ∀ low high, high < 0x80 → ¬ (low ≤ data.unit i ∧ data.unit i ≤ high) := by
      intro low high hhigh h
      omega
    rw [hexDigit, hexDigit, if_neg (hno 0x30 0x39 (by omega)), if_neg (hno 0x61 0x66 (by omega)),
      if_neg (hno 0x41 0x46 (by omega))]
    rfl

lemma escapeValue_ascii (i : ℕ) : escapeValue (data.ascii i) = escapeValue (data.unit i) := by
  rw [JsonSrc.ascii]
  split_ifs with hlt
  · rfl
  · have hno : ∀ c < 0x80, data.unit i ≠ c := by
      intro c hc h
      omega
    rw [escapeValue, escapeValue, if_neg (hno 0x22 (by omega)), if_neg (hno 0x5C (by omega)),
      if_neg (hno 0x2F (by omega)), if_neg (hno 0x62 (by omega)), if_neg (hno 0x66 (by omega)),
      if_neg (hno 0x6E (by omega)), if_neg (hno 0x72 (by omega)), if_neg (hno 0x74 (by omega))]
    rfl

/-- The letters of the escapes are those that stand for something, and both are narrow. -/
lemma isEscapeChar_iff {e : ℕ} : isEscapeChar e = true ↔ ∃ v, escapeValue e = some v := by
  rw [escapeValue, isEscapeChar]
  simp only [Bool.or_eq_true, decide_eq_true_eq]
  split_ifs <;> simp_all

lemma escapeValue_le {e v : ℕ} (h : escapeValue e = some v) : e ≤ 0x74 ∧ v ≤ 0x5C ∧ e ≠ 0x75 := by
  rw [escapeValue] at h
  split_ifs at h <;> (obtain rfl := Option.some.inj h; omega)

/-- The four digits behind a `\u`. -/
lemma uEscapeUnit_eq {i va vb vc vd : ℕ} (ha : hexDigit (data.unit (i + 2)) = some va)
    (hb : hexDigit (data.unit (i + 3)) = some vb) (hc : hexDigit (data.unit (i + 4)) = some vc)
    (hd : hexDigit (data.unit (i + 5)) = some vd) :
    uEscapeUnit data i = ((va * 16 + vb) * 16 + vc) * 16 + vd := by
  have hput : ∀ {v d : ℕ}, d < 16 → v <<< 4 ||| d = v * 16 + d := by
    intro v d hlt
    have hbits : d < 2 ^ 4 := hlt
    rw [← Nat.shiftLeft_add_eq_or_of_lt hbits, Nat.shiftLeft_eq]
  have hla := hexDigit_lt ha
  have hlb := hexDigit_lt hb
  have hlc := hexDigit_lt hc
  have hld := hexDigit_lt hd
  rw [uEscapeUnit, show List.range 4 = [0, 1, 2, 3] by rfl]
  simp only [List.foldl_cons, List.foldl_nil, hexDigit_ascii, Nat.add_zero, Nat.add_assoc,
    Nat.reduceAdd, ha, hb, hc, hd, hput hla, hput hlb, hput hlc, hput hld]
  have hlt : ((va * 16 + vb) * 16 + vc) * 16 + vd < 2 ^ 16 := by omega
  rw [Nat.zero_mul, Nat.zero_add]
  exact Nat.mod_eq_of_lt hlt

/-! ### The passes -/

/-- The units from a position on, six of them at an escape. -/
lemma drop_hex {scan : ℕ} (hlen : scan + 6 ≤ data.len) : data.units.drop (scan + 2) =
    data.unit (scan + 2) :: data.unit (scan + 3) :: data.unit (scan + 4) :: data.unit (scan + 5) ::
      data.units.drop (scan + 6) := by
  rw [JsonSrc.drop_units (show scan + 2 < data.len by omega),
    JsonSrc.drop_units (show scan + 2 + 1 < data.len by omega),
    JsonSrc.drop_units (show scan + 2 + 1 + 1 < data.len by omega),
    JsonSrc.drop_units (show scan + 2 + 1 + 1 + 1 < data.len by omega)]

/-- **The first pass stops behind the characters of a string.** -/
theorem scanFrom_ok {fuel scan outLen widest : ℕ} {r : ℕ × ℕ × ℕ} (hfuel : data.len - scan ≤ fuel)
    (h : scanFrom data fuel scan outLen widest = .ok r) (hr : r.1 < data.len) :
    ∃ chars out, data.units.drop scan = chars ++ 0x22 :: data.units.drop (r.1 + 1) ∧
      JsonChars chars out := by
  induction fuel generalizing scan outLen widest with
  | zero =>
    rw [scanFrom] at h
    obtain rfl := Except.ok.inj h
    dsimp only at hr
    omega
  | succ fuel ih =>
    rw [scanFrom] at h
    by_cases hlt : scan < data.len
    · rw [if_pos hlt] at h
      dsimp only at h
      have hdrop := JsonSrc.drop_units hlt
      by_cases hquote : data.unit scan = 0x22
      · rw [if_pos hquote] at h
        obtain rfl := Except.ok.inj h
        refine ⟨[], [], ?_, JsonChars.nil⟩
        rw [hdrop, hquote]
        rfl
      · rw [if_neg hquote] at h
        by_cases hslash : data.unit scan = 0x5C
        · rw [if_pos hslash] at h
          by_cases hend : data.len ≤ scan + 1
          · rw [if_pos hend] at h
            cases h
          · rw [if_neg hend] at h
            have hlt' : scan + 1 < data.len := Nat.not_le.mp hend
            have hdrop' := JsonSrc.drop_units hlt'
            by_cases hu : data.ascii (scan + 1) = 0x75
            · rw [if_pos hu] at h
              rw [JsonSrc.ascii_eq_iff (by omega) (by omega)] at hu
              by_cases hbad : data.len < scan + 6 ∨ (List.range 4).any
                  (fun k => (hexDigit (data.ascii (scan + 2 + k))).isNone) = true
              · rw [if_pos hbad] at h
                cases h
              · rw [if_neg hbad] at h
                obtain ⟨hlen, hdigits⟩ := not_or.mp hbad
                have hlen' : scan + 6 ≤ data.len := Nat.not_lt.mp hlen
                have hdigit : ∀ k < 4, ∃ d, hexDigit (data.unit (scan + 2 + k)) = some d := by
                  intro k hk
                  by_contra hno
                  refine hdigits (List.any_eq_true.mpr ⟨k, List.mem_range.mpr hk, ?_⟩)
                  rw [hexDigit_ascii, Option.isNone_iff_eq_none, Option.eq_none_iff_forall_ne_some]
                  exact fun d hd => hno ⟨d, hd⟩
                obtain ⟨va, ha⟩ := hdigit 0 (by omega)
                obtain ⟨vb, hb⟩ := hdigit 1 (by omega)
                obtain ⟨vc, hc⟩ := hdigit 2 (by omega)
                obtain ⟨vd, hd⟩ := hdigit 3 (by omega)
                obtain ⟨chars, out, hchars, hjson⟩ := ih (by omega) h
                refine ⟨0x5C :: 0x75 :: data.unit (scan + 2) :: data.unit (scan + 3) ::
                  data.unit (scan + 4) :: data.unit (scan + 5) :: chars, _, ?_,
                  JsonChars.hex ha hb hc hd hjson⟩
                rw [hdrop, hdrop', hslash, hu, drop_hex hlen', hchars]
                rfl
            · rw [if_neg hu] at h
              by_cases hesc : isEscapeChar (data.unit (scan + 1)) = false
              · rw [if_pos hesc] at h
                cases h
              · rw [if_neg hesc] at h
                obtain ⟨v, hv⟩ := isEscapeChar_iff.mp (Bool.not_eq_false _ ▸ hesc)
                obtain ⟨chars, out, hchars, hjson⟩ := ih (by omega) h
                refine ⟨0x5C :: data.unit (scan + 1) :: chars, v :: out, ?_,
                  JsonChars.escape hv hjson⟩
                rw [hdrop, hdrop', hslash, hchars]
                rfl
        · rw [if_neg hslash] at h
          by_cases hcontrol : data.unit scan < 0x20
          · rw [if_pos hcontrol] at h
            cases h
          · rw [if_neg hcontrol] at h
            obtain ⟨chars, out, hchars, hjson⟩ := ih (by omega) h
            refine ⟨data.unit scan :: chars, data.unit scan :: out, ?_,
              JsonChars.unescaped (Nat.not_lt.mp hcontrol) hquote hslash hjson⟩
            rw [hdrop, hchars]
            rfl
    · rw [if_neg hlt] at h
      obtain rfl := Except.ok.inj h
      exact absurd hr hlt

/-- **The first pass goes over the characters of a string** to the closing quote, and counts and
measures what they stand for. -/
theorem scanFrom_of_chars {chars out rest : List ℕ} (hjson : JsonChars chars out)
    {fuel scan : ℕ} (outLen widest : ℕ) (hfuel : data.len - scan ≤ fuel)
    (hdrop : data.units.drop scan = chars ++ 0x22 :: rest) :
    ∃ w, scanFrom data fuel scan outLen widest =
        .ok (scan + chars.length, outLen + out.length, w) ∧
      (w ≤ 0xFF ↔ widest ≤ 0xFF ∧ ∀ u ∈ out, u ≤ 0xFF) := by
  induction hjson generalizing fuel scan outLen widest with
  | nil =>
    obtain ⟨hlt, hunit, -⟩ := JsonSrc.lt_len_of_drop hdrop
    obtain ⟨fuel, rfl⟩ : ∃ f, fuel = f + 1 := ⟨fuel - 1, by omega⟩
    refine ⟨widest, ?_, fun hw => ⟨hw, (fun u hu => by cases hu)⟩, fun hw => hw.1⟩
    rw [scanFrom, if_pos hlt]
    exact if_pos hunit
  | @unescaped c s out hc hquote hslash _ ih =>
    obtain ⟨hlt, rfl, hrest⟩ := JsonSrc.lt_len_of_drop hdrop
    obtain ⟨fuel, rfl⟩ : ∃ f, fuel = f + 1 := ⟨fuel - 1, by omega⟩
    have hfuel' : data.len - (scan + 1) ≤ fuel := by omega
    obtain ⟨w, hw, hwide⟩ := ih (outLen + 1) (max widest (data.unit scan)) hfuel' hrest
    refine ⟨w, ?_, by rw [hwide, List.forall_mem_cons, max_le_iff, and_assoc]⟩
    rw [scanFrom, if_pos hlt]
    dsimp only
    rw [if_neg hquote, if_neg hslash, if_neg (Nat.not_lt.mpr hc), hw, List.length_cons,
      List.length_cons, Nat.add_right_comm scan, Nat.add_right_comm outLen]
    rfl
  | @escape e v s out he _ ih =>
    obtain ⟨hlt, hunit, hrest⟩ := JsonSrc.lt_len_of_drop hdrop
    obtain ⟨hlt', rfl, hrest'⟩ := JsonSrc.lt_len_of_drop hrest
    obtain ⟨fuel, rfl⟩ : ∃ f, fuel = f + 1 := ⟨fuel - 1, by omega⟩
    have hfuel' : data.len - (scan + 2) ≤ fuel := by omega
    obtain ⟨w, hw, hwide⟩ := ih (outLen + 1) (max widest (data.unit (scan + 1))) hfuel' hrest'
    obtain ⟨hnarrow, hnarrow', hu⟩ := escapeValue_le he
    have hquote : ¬ data.unit scan = 0x22 := by omega
    have hu' : ¬ data.ascii (scan + 1) = 0x75 :=
      (JsonSrc.ascii_eq_iff (by omega) (by omega)).not.mpr hu
    have hesc : ¬ isEscapeChar (data.unit (scan + 1)) = false := by
      rw [isEscapeChar_iff.mpr ⟨v, he⟩]
      exact Bool.noConfusion
    refine ⟨w, ?_, ?_⟩
    · rw [scanFrom, if_pos hlt]
      dsimp only
      rw [if_neg hquote, if_pos hunit, if_neg (Nat.not_le.mpr hlt'), if_neg hu', if_neg hesc, hw]
      simp only [List.length_cons]
      congr 2
      · omega
      · congr 1
        omega
    · rw [hwide, List.forall_mem_cons, max_le_iff, and_assoc]
      exact and_congr_right fun _ => and_congr_left fun _ =>
        ⟨fun _ => hnarrow'.trans (by omega), fun _ => hnarrow.trans (by omega)⟩
  | @hex a b c d va vb vc vd s out ha hb hc hd _ ih =>
    obtain ⟨hlt, hunit, hrest⟩ := JsonSrc.lt_len_of_drop hdrop
    obtain ⟨hlt₁, hu, hrest₁⟩ := JsonSrc.lt_len_of_drop hrest
    obtain ⟨hlt₂, rfl, hrest₂⟩ := JsonSrc.lt_len_of_drop hrest₁
    obtain ⟨hlt₃, rfl, hrest₃⟩ := JsonSrc.lt_len_of_drop hrest₂
    obtain ⟨hlt₄, rfl, hrest₄⟩ := JsonSrc.lt_len_of_drop hrest₃
    obtain ⟨hlt₅, rfl, hrest₅⟩ := JsonSrc.lt_len_of_drop hrest₄
    obtain ⟨fuel, rfl⟩ : ∃ f, fuel = f + 1 := ⟨fuel - 1, by omega⟩
    have hfuel' : data.len - (scan + 6) ≤ fuel := by omega
    obtain ⟨w, hw, hwide⟩ := ih (outLen + 1) (max widest (uEscapeUnit data scan)) hfuel' hrest₅
    have hquote : ¬ data.unit scan = 0x22 := by omega
    have hu' : data.ascii (scan + 1) = 0x75 :=
      (JsonSrc.ascii_eq_iff (by omega) (by omega)).mpr hu
    have hgood : ¬ (data.len < scan + 6 ∨ (List.range 4).any
        (fun k => (hexDigit (data.ascii (scan + 2 + k))).isNone) = true) := by
      rw [not_or]
      refine ⟨by omega, fun hany => ?_⟩
      obtain ⟨k, hk, hnone⟩ := List.any_eq_true.mp hany
      rw [hexDigit_ascii, Option.isNone_iff_eq_none] at hnone
      have hk' := List.mem_range.mp hk
      obtain rfl | rfl | rfl | rfl : k = 0 ∨ k = 1 ∨ k = 2 ∨ k = 3 := by omega
      · exact nomatch ha.symm.trans hnone
      · exact nomatch hb.symm.trans hnone
      · exact nomatch hc.symm.trans hnone
      · exact nomatch hd.symm.trans hnone
    refine ⟨w, ?_, ?_⟩
    · rw [scanFrom, if_pos hlt]
      dsimp only
      rw [if_neg hquote, if_pos hunit, if_neg (Nat.not_le.mpr hlt₁), if_pos hu', if_neg hgood, hw]
      simp only [List.length_cons]
      congr 2
      · omega
      · congr 1
        omega
    · rw [hwide, List.forall_mem_cons, max_le_iff, and_assoc, uEscapeUnit_eq ha hb hc hd]

/-- **The second pass writes what the characters stand for.** -/
theorem writeFrom_of_chars {chars out rest : List ℕ} (hjson : JsonChars chars out) {fuel i : ℕ}
    (hfuel : chars.length ≤ fuel) (hdrop : data.units.drop i = chars ++ rest) :
    writeFrom data (i + chars.length) fuel i = out := by
  induction hjson generalizing fuel i with
  | nil =>
    cases fuel with
    | zero => rfl
    | succ fuel =>
      rw [writeFrom]
      exact if_neg (lt_irrefl i)
  | @unescaped c s out hc hquote hslash _ ih =>
    obtain ⟨hlt, rfl, hrest⟩ := JsonSrc.lt_len_of_drop hdrop
    rw [List.length_cons] at hfuel ⊢
    obtain ⟨fuel, rfl⟩ : ∃ f, fuel = f + 1 := ⟨fuel - 1, by omega⟩
    have hstop : i < i + (s.length + 1) := by omega
    rw [writeFrom, if_pos hstop, if_pos hslash, show i + (s.length + 1) = i + 1 + s.length by omega,
      ih (by omega) hrest]
  | @escape e v s out he _ ih =>
    obtain ⟨hlt, hunit, hrest⟩ := JsonSrc.lt_len_of_drop hdrop
    obtain ⟨hlt', rfl, hrest'⟩ := JsonSrc.lt_len_of_drop hrest
    rw [List.length_cons, List.length_cons] at hfuel ⊢
    obtain ⟨fuel, rfl⟩ : ∃ f, fuel = f + 1 := ⟨fuel - 1, by omega⟩
    have hstop : i < i + (s.length + 1 + 1) := by omega
    rw [writeFrom, if_pos hstop, if_neg (not_not.mpr hunit), escapeValue_ascii, he]
    dsimp only
    rw [show i + (s.length + 1 + 1) = i + 2 + s.length by omega, ih (by omega) hrest']
  | @hex a b c d va vb vc vd s out ha hb hc hd _ ih =>
    obtain ⟨hlt, hunit, hrest⟩ := JsonSrc.lt_len_of_drop hdrop
    obtain ⟨hlt₁, hu, hrest₁⟩ := JsonSrc.lt_len_of_drop hrest
    obtain ⟨hlt₂, rfl, hrest₂⟩ := JsonSrc.lt_len_of_drop hrest₁
    obtain ⟨hlt₃, rfl, hrest₃⟩ := JsonSrc.lt_len_of_drop hrest₂
    obtain ⟨hlt₄, rfl, hrest₄⟩ := JsonSrc.lt_len_of_drop hrest₃
    obtain ⟨hlt₅, rfl, hrest₅⟩ := JsonSrc.lt_len_of_drop hrest₄
    simp only [List.length_cons] at hfuel ⊢
    obtain ⟨fuel, rfl⟩ : ∃ f, fuel = f + 1 := ⟨fuel - 1, by omega⟩
    have hstop : i < i + (s.length + 1 + 1 + 1 + 1 + 1 + 1) := by omega
    have hu' : data.ascii (i + 1) = 0x75 := (JsonSrc.ascii_eq_iff (by omega) (by omega)).mpr hu
    rw [writeFrom, if_pos hstop, if_neg (not_not.mpr hunit), hu']
    change (if 0x75 = 0x75 then _ else _) = _
    rw [if_pos rfl, uEscapeUnit_eq ha hb hc hd,
      show i + (s.length + 1 + 1 + 1 + 1 + 1 + 1) = i + 6 + s.length by omega,
      ih (by omega) hrest₅]

end Reader

end Torajs.Json
