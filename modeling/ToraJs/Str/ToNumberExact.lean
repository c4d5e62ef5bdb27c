import ToraJs.Str.ToNumber
import ToraJs.Str.UriDecode

/-!
# The number a string stands for

Trimming leaves the text between the blanks, and what the reader makes of that text is compared
with the grammar of numeric literals, form by form.  They differ behind a radix prefix only, where
the library takes a plus sign and refuses what does not fit in 64 bits.
-/

namespace Torajs.ToNumber

open Ieee754 NumericText Unicode

/-! ### Trimming -/

section Trim

variable {p : ℕ → Bool} {pre s post : List ℕ}

lemma dropWhile_run (hpre : ∀ u ∈ pre, p u = true) (hs : ∀ c ∈ s.head?, p c = false) :
    (pre ++ s).dropWhile p = s := by
  rw [List.dropWhile_append_of_pos hpre]
  cases s with
  | nil => rfl
  | cons c s => rw [List.dropWhile_cons, hs c rfl]; rfl

/-- What stands between blanks is left when it neither begins nor ends with one. -/
lemma trim_append (hpre : ∀ u ∈ pre, p u = true) (hpost : ∀ u ∈ post, p u = true)
    (hhead : ∀ c ∈ s.head?, p c = false) (hlast : ∀ c ∈ s.getLast?, p c = false) :
    trim p (pre ++ s ++ post) = s := by
  rw [trim, List.append_assoc]
  cases s with
  | nil =>
    have hall : (pre ++ ([] ++ post)).dropWhile p = [] := by
      rw [List.dropWhile_eq_nil_iff]
      intro u hu
      rcases List.mem_append.mp hu with hu | hu
      · exact hpre u hu
      · exact hpost u hu
    rw [hall]
    rfl
  | cons c s =>
    have hfront : (pre ++ (c :: s ++ post)).dropWhile p = c :: s ++ post :=
      dropWhile_run hpre fun d hd => hhead d hd
    have hback : ((c :: s ++ post).reverse).dropWhile p = (c :: s).reverse := by
      rw [List.reverse_append]
      refine dropWhile_run (fun u hu => hpost u (List.mem_reverse.mp hu)) fun d hd => hlast d ?_
      rwa [List.head?_reverse] at hd
    rw [hfront, List.rdropWhile, hback, List.reverse_reverse]

lemma rdropWhile_last {c : ℕ} (h : c ∈ (s.rdropWhile p).getLast?) : p c = false := by
  rw [List.rdropWhile, List.getLast?_reverse] at h
  have hnot := List.head?_dropWhile_not p s.reverse
  rw [show (s.reverse.dropWhile p).head? = some c from h] at hnot
  exact hnot

/-- **Trimming takes blanks off both ends**, and leaves none there. -/
theorem trim_spec (p : ℕ → Bool) (s : List ℕ) : ∃ pre post, s = pre ++ trim p s ++ post ∧
    (∀ u ∈ pre, p u = true) ∧ (∀ u ∈ post, p u = true) ∧
    (∀ c ∈ (trim p s).head?, p c = false) ∧ ∀ c ∈ (trim p s).getLast?, p c = false := by
  have hfront := List.takeWhile_append_dropWhile (p := p) (l := s)
  have hback : (s.dropWhile p).rdropWhile p ++ (s.dropWhile p).rtakeWhile p = s.dropWhile p :=
    List.rdropWhile_append_rtakeWhile
  refine ⟨s.takeWhile p, (s.dropWhile p).rtakeWhile p, ?_, fun u hu => List.mem_takeWhile_imp hu,
    fun u hu => List.mem_rtakeWhile_imp hu, fun c hc => ?_, fun c hc => rdropWhile_last hc⟩
  · rw [trim, List.append_assoc, hback, hfront]
  · have hnot := List.head?_dropWhile_not p s
    have hhead : (s.dropWhile p).head? = some c := by
      rw [← hback, List.head?_append, show ((s.dropWhile p).rdropWhile p).head? = some c from hc]
      rfl
    rw [hhead] at hnot
    exact hnot

/-- A text is not trimmed again. -/
lemma trim_trim {q : ℕ → Bool} (s : List ℕ) (h : ∀ c ∈ trim p s, q c = true → p c = true) :
    trim q (trim p s) = trim p s := by
  obtain ⟨-, -, -, -, -, hhead, hlast⟩ := trim_spec p s
  have hq : ∀ c ∈ trim p s, p c = false → q c = false := by
    intro c hc hp
    by_contra hne
    rw [h c hc (Bool.not_eq_false _ ▸ hne)] at hp
    cases hp
  have hsame : trim q ([] ++ trim p s ++ []) = trim p s := trim_append
    (fun u hu => absurd hu List.not_mem_nil) (fun u hu => absurd hu List.not_mem_nil)
    (fun c hc => hq c (List.mem_of_mem_head? hc) (hhead c hc))
    (fun c hc => hq c (List.mem_of_mem_getLast? hc) (hlast c hc))
  rwa [List.nil_append, List.append_nil] at hsame

/-- Predicates that agree on a string trim it to the same text. -/
lemma trim_congr {q : ℕ → Bool} (h : ∀ c ∈ s, p c = q c) : trim p s = trim q s := by
  obtain ⟨pre, post, hs, hpre, hpost, hhead, hlast⟩ := trim_spec p s
  have hmem : ∀ c, c ∈ pre ∨ c ∈ trim p s ∨ c ∈ post → p c = q c := by
    intro c hc
    refine h c ?_
    rw [hs, List.mem_append, List.mem_append]
    tauto
  have htrim : trim q (pre ++ trim p s ++ post) = trim p s := trim_append
    (fun u hu => (hmem u (Or.inl hu)) ▸ hpre u hu)
    (fun u hu => (hmem u (Or.inr (Or.inr hu))) ▸ hpost u hu)
    (fun c hc => (hmem c (Or.inr (Or.inl (List.mem_of_mem_head? hc)))) ▸ hhead c hc)
    (fun c hc => (hmem c (Or.inr (Or.inl (List.mem_of_mem_getLast? hc)))) ▸ hlast c hc)
  rw [← hs] at htrim
  exact htrim.symm

end Trim

/-! ### Blanks -/

lemma isTrimWsU16_iff {u : ℕ} : isTrimWsU16 u = true ↔ IsBlank u := by
  simp only [isTrimWsU16, IsBlank, IsWhiteSpace, IsLineTerminator, Bool.or_eq_true, Bool.and_eq_true,
    decide_eq_true_eq]
  omega

/-- Both readers trim the same bytes. -/
lemma isTrimWs_eq {u : ℕ} (hu : u < 256) : isTrimWs u = isTrimWsU16 u := by
  rw [Bool.eq_iff_iff]
  simp only [isTrimWs, isTrimWsU16, Bool.or_eq_true, Bool.and_eq_true, decide_eq_true_eq]
  omega

/-- The text between the blanks is what is left of a string, unless it begins or ends with one. -/
lemma Between.eq_trim {units body : List ℕ} (h : Between units body)
    (hplain : ∀ u ∈ body, ¬ IsBlank u) : body = trim isTrimWsU16 units := by
  obtain ⟨pre, post, rfl, hpre, hpost⟩ := h
  have hbody : ∀ u ∈ body, isTrimWsU16 u = false := fun u hu =>
    Bool.eq_false_of_not_eq_true (isTrimWsU16_iff.not.mpr (hplain u hu))
  exact (trim_append (fun u hu => isTrimWsU16_iff.mpr (hpre u hu))
    (fun u hu => isTrimWsU16_iff.mpr (hpost u hu))
    (fun c hc => hbody c (List.mem_of_mem_head? hc))
    fun c hc => hbody c (List.mem_of_mem_getLast? hc)).symm

lemma between_trim (units : List ℕ) : Between units (trim isTrimWsU16 units) := by
  obtain ⟨pre, post, hs, hpre, hpost, -⟩ := trim_spec isTrimWsU16 units
  exact ⟨pre, post, hs, fun u hu => isTrimWsU16_iff.mp (hpre u hu),
    fun u hu => isTrimWsU16_iff.mp (hpost u hu)⟩

/-! ### The characters of literals -/

/-- The characters of decimal numbers. -/
def IsNumeric (c : ℕ) : Prop := isDigit c = true ∨ c = 0x2E ∨ IsMark c ∨ c = 0x2B ∨ c = 0x2D

lemma IsNumeric.ascii {c : ℕ} (h : IsNumeric c) : 0x20 < c ∧ c < 0x7F := by
  rcases h with h | rfl | (rfl | rfl) | rfl | rfl
  · have := isDigit_iff.mp h
    omega
  all_goals decide

lemma exponent_numeric {x : List ℕ} {e : ℤ} (h : Exponent x e) : ∀ c ∈ x, IsNumeric c := by
  have hdigits : ∀ {ds : List ℕ}, IsDigits 10 ds → ∀ c ∈ ds, IsNumeric c :=
    fun hds c hc => Or.inl (hds.2 c hc)
  have hplus : IsNumeric 0x2B := Or.inr (Or.inr (Or.inr (Or.inl rfl)))
  have hminus : IsNumeric 0x2D := Or.inr (Or.inr (Or.inr (Or.inr rfl)))
  cases h with
  | absent => exact fun c hc => absurd hc List.not_mem_nil
  | bare hm hds => exact List.forall_mem_cons.mpr ⟨Or.inr (Or.inr (Or.inl hm)), hdigits hds⟩
  | plus hm hds =>
    exact List.forall_mem_cons.mpr ⟨Or.inr (Or.inr (Or.inl hm)),
      List.forall_mem_cons.mpr ⟨hplus, hdigits hds⟩⟩
  | minus hm hds =>
    exact List.forall_mem_cons.mpr ⟨Or.inr (Or.inr (Or.inl hm)),
      List.forall_mem_cons.mpr ⟨hminus, hdigits hds⟩⟩

lemma number_numeric {t : List ℕ} {m : ℕ} {e : ℤ} (h : Number t m e) : ∀ c ∈ t, IsNumeric c := by
  cases h with
  | integer hi hx =>
    exact List.forall_mem_append.mpr ⟨fun c hc => Or.inl (hi.2 c hc), exponent_numeric hx⟩
  | point hds hx =>
    have hall := List.forall_mem_append.mp hds.2
    exact List.forall_mem_append.mpr ⟨fun c hc => Or.inl (hall.1 c hc),
      List.forall_mem_cons.mpr ⟨Or.inr (Or.inl rfl),
        List.forall_mem_append.mpr ⟨fun c hc => Or.inl (hall.2 c hc), exponent_numeric hx⟩⟩⟩

/-- A decimal number begins with a digit or a point. -/
lemma number_head {t : List ℕ} {m : ℕ} {e : ℤ} (h : Number t m e) :
    ∃ c r, t = c :: r ∧ (isDigit c = true ∨ c = 0x2E) := by
  cases h with
  | @integer i x _ hi hx =>
    obtain ⟨c, r, rfl⟩ := List.exists_cons_of_ne_nil hi.1
    exact ⟨c, r ++ x, rfl, Or.inl (hi.2 c List.mem_cons_self)⟩
  | @point i f x _ hds hx =>
    cases i with
    | nil => exact ⟨_, _, rfl, Or.inr rfl⟩
    | cons c r => exact ⟨c, _, rfl, Or.inl (hds.2 c List.mem_cons_self)⟩

lemma radixOf_eq {c r : ℕ} (h : radixOf c = some r) :
    (r = 16 ∧ (c = 0x78 ∨ c = 0x58)) ∨ (r = 2 ∧ (c = 0x62 ∨ c = 0x42)) ∨
      (r = 8 ∧ (c = 0x6F ∨ c = 0x4F)) := by
  rw [radixOf] at h
  split_ifs at h with h1 h2 h3
  · exact Or.inl ⟨(Option.some.inj h).symm, h1⟩
  · exact Or.inr (Or.inl ⟨(Option.some.inj h).symm, h2⟩)
  · exact Or.inr (Or.inr ⟨(Option.some.inj h).symm, h3⟩)

/-- The letter of a prefix stands in no decimal number. -/
lemma not_isNumeric_of_radixOf {c r : ℕ} (h : radixOf c = some r) : ¬ IsNumeric c := by
  have hletter : ∀ c ∈ [0x78, 0x58, 0x62, 0x42, 0x6F, 0x4F], ¬ IsNumeric c := by
    intro c hc hn
    rcases hn with hn | hn | hn | hn | hn
    · rw [isDigit_iff] at hn
      simp only [List.mem_cons, List.not_mem_nil, or_false] at hc
      omega
    all_goals
      simp only [List.mem_cons, List.not_mem_nil, or_false, IsMark] at hc hn
      omega
  refine hletter c ?_
  simp only [List.mem_cons, List.not_mem_nil, or_false]
  have := radixOf_eq h
  tauto

/-- The characters of literals are ASCII, and none is a blank. -/
lemma NumericLiteral.ascii {t : List ℕ} {v : F64} (h : NumericLiteral t v) :
    ∀ c ∈ t, 0x20 < c ∧ c < 0x7F := by
  have hinfinity : ∀ c ∈ infinityText, 0x20 < c ∧ c < 0x7F := by decide
  have hunsigned : ∀ {s t v}, UnsignedDecimal s t v → ∀ c ∈ t, 0x20 < c ∧ c < 0x7F := by
    intro s t v h
    cases h with
    | infinity => exact hinfinity
    | number hn => exact fun c hc => (number_numeric hn c hc).ascii
  cases h with
  | bare hu => exact hunsigned hu
  | plus hu => exact List.forall_mem_cons.mpr ⟨by decide, hunsigned hu⟩
  | minus hu => exact List.forall_mem_cons.mpr ⟨by decide, hunsigned hu⟩
  | radix hr hds =>
    refine List.forall_mem_cons.mpr ⟨by decide, List.forall_mem_cons.mpr ⟨?_, fun c hc => ?_⟩⟩
    · have := radixOf_eq hr
      omega
    · have := digitIn_ascii (hds.2 c hc)
      omega

lemma Overreaches.ascii {t : List ℕ} (h : Overreaches t) : ∀ c ∈ t, 0x20 < c ∧ c < 0x7F := by
  obtain ⟨c, r, ds, rfl, hr, hds⟩ := h
  refine List.forall_mem_cons.mpr ⟨by decide, List.forall_mem_cons.mpr ⟨?_, ?_⟩⟩
  · have := radixOf_eq hr
    omega
  · rcases hds with ⟨digits, rfl, hdigits, -⟩ | ⟨hdigits, -⟩
    · refine List.forall_mem_cons.mpr ⟨by decide, fun c hc => ?_⟩
      have := digitIn_ascii (hdigits.2 c hc)
      omega
    · intro c hc
      have := digitIn_ascii (hdigits.2 c hc)
      omega

lemma not_isBlank_of_ascii {c : ℕ} (h : 0x20 < c ∧ c < 0x7F) : ¬ IsBlank c := by
  rw [IsBlank, IsWhiteSpace, IsLineTerminator]
  omega

/-- **A string stands for the number of the text between its blanks.** -/
theorem stringNumeric_iff {units : List ℕ} {v : F64} : StringNumeric units v ↔
    (trim isTrimWsU16 units = [] ∧ v = F64.ofInt 0) ∨
      NumericLiteral (trim isTrimWsU16 units) v := by
  constructor
  · rintro ⟨body, hbetween, ⟨rfl, hv⟩ | hliteral⟩
    · exact Or.inl ⟨(hbetween.eq_trim fun u hu => absurd hu List.not_mem_nil).symm, hv⟩
    · rw [← hbetween.eq_trim fun u hu => not_isBlank_of_ascii (hliteral.ascii u hu)]
      exact Or.inr hliteral
  · exact fun h => ⟨_, between_trim units, h⟩

lemma misread_iff {units : List ℕ} : Misread units ↔ Overreaches (trim isTrimWsU16 units) := by
  constructor
  · rintro ⟨body, hbetween, hover⟩
    rwa [← hbetween.eq_trim fun u hu => not_isBlank_of_ascii (hover.ascii u hu)]
  · exact fun h => ⟨_, between_trim units, h⟩

/-! ### The parsers of the library -/

lemma isUtf8_of_ascii {s : List ℕ} (h : ∀ c ∈ s, c < 0x80) : isUtf8 s = true := by
  have henc : ∀ {s : List ℕ}, (∀ c ∈ s, c < 0x80) → s = s.flatMap enc := by
    intro s h
    induction s with
    | nil => rfl
    | cons c s ih =>
      obtain ⟨hc, hrest⟩ := List.forall_mem_cons.mp h
      rw [List.flatMap_cons, ← ih hrest, enc, if_pos hc]
      rfl
  have hscalar : ∀ c ∈ s, Uri.IsScalar c := by
    intro c hc
    have hlt := h c hc
    refine ⟨by omega, fun hhigh => ?_, fun hlow => ?_⟩
    · have := hhigh.1
      omega
    · have := hlow.1
      omega
  rw [isUtf8, (Uri.fromUtf8From_eq_some le_rfl).mpr ⟨henc h, hscalar⟩]
  rfl

lemma le_putDigit {r acc c : ℕ} (hr : 0 < r) : acc ≤ putDigit r acc c :=
  le_trans (Nat.le_mul_of_pos_right acc hr) (Nat.le_add_right _ _)

lemma le_foldl_putDigit {r acc : ℕ} (hr : 0 < r) (ds : List ℕ) :
    acc ≤ ds.foldl (putDigit r) acc := by
  induction ds generalizing acc with
  | nil => exact le_rfl
  | cons c ds ih => exact (le_putDigit hr).trans ih

/-- The digits of a radix that fit in 64 bits, and no others, are accumulated. -/
lemma foldlM_radixStep {r acc n : ℕ} (hr : 0 < r) (hacc : acc < 2 ^ 64) (ds : List ℕ) :
    ds.foldlM (radixStep r) acc = some n ↔ (∀ c ∈ ds, (digitIn r c).isSome = true) ∧
      n = ds.foldl (putDigit r) acc ∧ n < 2 ^ 64 := by
  induction ds generalizing acc with
  | nil =>
    rw [List.foldlM_nil, List.foldl_nil]
    constructor
    · intro h
      obtain rfl := Option.some.inj h
      exact ⟨fun c hc => absurd hc List.not_mem_nil, rfl, hacc⟩
    · rintro ⟨-, rfl, -⟩
      rfl
  | cons c ds ih =>
    rw [List.foldlM_cons, List.foldl_cons, List.forall_mem_cons]
    cases hd : digitIn r c with
    | none =>
      rw [radixStep, hd]
      exact ⟨(fun h => nomatch h), (fun h => nomatch h.1.1)⟩
    | some d =>
      have hput : putDigit r acc c = acc * r + d := by rw [putDigit, hd, Option.getD_some]
      rw [radixStep, hd, hput]
      by_cases hfit : acc * r + d < 2 ^ 64
      · rw [Option.bind_some, if_pos hfit]
        refine (ih hfit).trans (and_congr_left fun _ => ?_)
        exact ⟨fun h => ⟨rfl, h⟩, fun h => h.2⟩
      · rw [Option.bind_some, if_neg hfit]
        refine ⟨(fun h => nomatch h), ?_⟩
        rintro ⟨-, rfl, hlt⟩
        exact absurd ((le_foldl_putDigit hr ds).trans_lt hlt) hfit

/-- **A plus sign may be in front of the digits**, and they have to fit. -/
lemma fromStrRadix_eq_some {r n : ℕ} (hr : 0 < r) {src : List ℕ} : fromStrRadix r src = some n ↔
    ∃ digits, (src = digits ∨ src = 0x2B :: digits) ∧ IsDigits r digits ∧
      n = digitsValue r digits ∧ n < 2 ^ 64 := by
  have hnodigit : ∀ r, digitIn r 0x2B = none := fun r => rfl
  have hrun : ∀ {digits : List ℕ}, (if digits = [] then none
      else digits.foldlM (radixStep r) 0) = some n ↔
      IsDigits r digits ∧ n = digitsValue r digits ∧ n < 2 ^ 64 := by
    intro digits
    rw [Option.ite_none_left_eq_some, foldlM_radixStep hr (by decide), IsDigits, and_assoc]
    rfl
  rw [fromStrRadix, hrun]
  split_ifs with hplus
  · obtain ⟨rest, rfl⟩ : ∃ rest, src = 0x2B :: rest := by
      cases src with
      | nil => cases hplus
      | cons c rest => exact ⟨rest, by rw [Option.some.inj hplus]⟩
    refine ⟨fun h => ⟨rest, Or.inr rfl, h⟩, ?_⟩
    rintro ⟨digits, rfl | htail, h⟩
    · have hbad := h.1.2 0x2B List.mem_cons_self
      rw [hnodigit] at hbad
      cases hbad
    · rw [(List.cons.inj htail).2]
      exact h
  · refine ⟨fun h => ⟨src, Or.inl rfl, h⟩, ?_⟩
    rintro ⟨digits, rfl | rfl, h⟩
    · exact h
    · exact absurd rfl hplus

/-- A decimal number is read behind its sign, which no word is. -/
lemma fromStr_number {src t : List ℕ} {s : Bool} {m : ℕ} {e : ℤ} (hsign : readSign src = (s, t))
    (hn : Number t m e) : fromStr src = some (decimal s m e) := by
  obtain ⟨c, r, rfl, hc⟩ := number_head hn
  have hfirst : c = 0x2E ∨ 0x30 ≤ c ∧ c ≤ 0x39 := by
    rw [isDigit_iff] at hc
    exact hc.symm
  have hlower : toAsciiLowercase c = c := if_neg (by omega)
  have hword : ∀ d w, 0x61 ≤ d → (c :: r).map toAsciiLowercase ≠ d :: w := by
    intro d w hd heq
    have hhead : toAsciiLowercase c = d := (List.cons.inj heq).1
    omega
  have hnan : ¬ (c :: r).map toAsciiLowercase = nanText.map toAsciiLowercase :=
    hword _ _ (by decide)
  have hinf : ¬ ((c :: r).map toAsciiLowercase = [0x69, 0x6E, 0x66] ∨
      (c :: r).map toAsciiLowercase = infinityText.map toAsciiLowercase) :=
    not_or.mpr ⟨hword _ _ (by decide), hword _ _ (by decide)⟩
  rw [fromStr, hsign]
  dsimp only
  rw [if_neg hinf, if_neg hnan, readNumber_eq_some.mpr hn]
  rfl

/-! ### The text between the blanks -/

lemma radixPrefixed_eq_some {s ds : List ℕ} {r : ℕ} : radixPrefixed s = some (r, ds) ↔
    ∃ c, s = 0x30 :: c :: ds ∧ radixOf c = some r ∧ ds ≠ [] := by
  constructor
  · intro h
    match s, h with
    | a :: c :: d :: rest, h =>
      rw [radixPrefixed] at h
      obtain ⟨rfl, h⟩ := Option.ite_none_right_eq_some.mp h
      obtain ⟨r', hr', hpair⟩ := Option.map_eq_some_iff.mp h
      obtain ⟨rfl, rfl⟩ := Prod.mk.inj hpair
      exact ⟨c, rfl, hr', List.cons_ne_nil _ _⟩
  · rintro ⟨c, rfl, hr, hne⟩
    obtain ⟨d, rest, rfl⟩ := List.exists_cons_of_ne_nil hne
    rw [radixPrefixed, if_pos rfl, hr]
    rfl

lemma radixOf_pos {c r : ℕ} (h : radixOf c = some r) : 0 < r := by
  have := radixOf_eq h
  omega

/-- A text of decimal characters goes to the parser of the library. -/
lemma parseBody_numeric {t : List ℕ} (hall : ∀ c ∈ t, IsNumeric c) :
    parseBody t = (fromStr t).getD .nan := by
  have hletter : ∀ c, isAsciiAlphabetic c = true → c ≠ 0x65 → c ≠ 0x45 → ¬ IsNumeric c := by
    intro c hc he hE hn
    simp only [isAsciiAlphabetic, Bool.or_eq_true, Bool.and_eq_true, decide_eq_true_eq] at hc
    rcases hn with hn | rfl | (rfl | rfl) | rfl | rfl
    · rw [isDigit_iff] at hn
      omega
    all_goals omega
  have hno : ∀ w : List ℕ, 0x61 ∈ w ∨ 0x6E ∈ w → t ≠ w := by
    rintro w (hw | hw) rfl
    · exact hletter _ (by decide) (by decide) (by decide) (hall _ hw)
    · exact hletter _ (by decide) (by decide) (by decide) (hall _ hw)
  have hword : ¬ (t = infinityText ∨ t = 0x2B :: infinityText) :=
    not_or.mpr ⟨hno _ (by decide), hno _ (by decide)⟩
  have hradix : radixPrefixed t = none := by
    rw [Option.eq_none_iff_forall_ne_some]
    rintro ⟨r, ds⟩ h
    obtain ⟨c, rfl, hr, -⟩ := radixPrefixed_eq_some.mp h
    exact not_isNumeric_of_radixOf hr (hall c (List.mem_cons_of_mem _ List.mem_cons_self))
  have hany : ¬ t.any (fun c => isAsciiAlphabetic c && c ≠ 0x65 && c ≠ 0x45) = true := by
    intro h
    obtain ⟨c, hc, hbad⟩ := List.any_eq_true.mp h
    simp only [Bool.and_eq_true, decide_eq_true_eq] at hbad
    exact hletter c hbad.1.1 hbad.1.2 hbad.2 (hall c hc)
  have hutf : isUtf8 t = true := isUtf8_of_ascii fun c hc => (hall c hc).ascii.2.trans (by decide)
  rw [parseBody, if_neg hword, if_neg (hno _ (by decide)), if_neg (hno _ (by decide)), hradix]
  dsimp only
  rw [if_neg hany, if_pos hutf]

/-- A prefix behind which digits stand. -/
lemma parseBody_radix {c r : ℕ} {ds : List ℕ} (hr : radixOf c = some r) (hne : ds ≠ []) :
    parseBody (0x30 :: c :: ds) =
      if isUtf8 ds then ((fromStrRadix r ds).map asF64).getD .nan else .nan := by
  have hno : ∀ a w, a ≠ 0x30 → 0x30 :: c :: ds ≠ a :: w := fun a w ha h =>
    ha (List.cons.inj h).1.symm
  have hword : ¬ (0x30 :: c :: ds = infinityText ∨ 0x30 :: c :: ds = 0x2B :: infinityText) :=
    not_or.mpr ⟨hno _ _ (by decide), hno _ _ (by decide)⟩
  have hnan : 0x30 :: c :: ds ≠ nanText := hno _ _ (by decide)
  rw [parseBody, if_neg hword, if_neg (hno _ _ (by decide)), if_neg hnan,
    radixPrefixed_eq_some.mpr ⟨c, rfl, hr, hne⟩]

lemma isUtf8_digits {r : ℕ} {ds : List ℕ} (h : IsDigits r ds) : isUtf8 ds = true :=
  isUtf8_of_ascii fun c hc => (digitIn_ascii (h.2 c hc)).2.trans_lt (by decide)

lemma asF64_ne_nan (n : ℕ) : asF64 n ≠ .nan := by
  rw [asF64, F64.ofInt]
  exact F64.ofRatio_ne_nan _ _ _

/-- **A literal is read as its value**, unless its digits do not fit. -/
theorem parseBody_literal {t : List ℕ} {v : F64} (hover : ¬ Overreaches t)
    (h : NumericLiteral t v) : parseBody t = v := by
  have hplus : IsNumeric 0x2B := Or.inr (Or.inr (Or.inr (Or.inl rfl)))
  have hminus : IsNumeric 0x2D := Or.inr (Or.inr (Or.inr (Or.inr rfl)))
  cases h with
  | bare hu =>
    cases hu with
    | infinity => exact if_pos (Or.inl rfl)
    | number hn =>
      have hsign : readSign t = (false, t) := by
        obtain ⟨c, r, rfl, hc⟩ := number_head hn
        rw [isDigit_iff] at hc
        rw [readSign, if_neg (by omega), if_neg (by omega)]
      rw [parseBody_numeric (number_numeric hn), fromStr_number hsign hn, Option.getD_some]
  | @plus t _ hu =>
    cases hu with
    | infinity => exact if_pos (Or.inr rfl)
    | number hn =>
      have hsign : readSign (0x2B :: t) = (false, t) := rfl
      rw [parseBody_numeric (List.forall_mem_cons.mpr ⟨hplus, number_numeric hn⟩),
        fromStr_number hsign hn, Option.getD_some]
  | @minus t _ hu =>
    cases hu with
    | infinity => rfl
    | number hn =>
      have hsign : readSign (0x2D :: t) = (true, t) := rfl
      rw [parseBody_numeric (List.forall_mem_cons.mpr ⟨hminus, number_numeric hn⟩),
        fromStr_number hsign hn, Option.getD_some]
  | @radix c r ds hr hds =>
    have hfit : digitsValue r ds < 2 ^ 64 := by
      by_contra hlarge
      exact hover ⟨c, r, ds, rfl, hr, Or.inr ⟨hds, Nat.not_lt.mp hlarge⟩⟩
    rw [parseBody_radix hr hds.1, if_pos (isUtf8_digits hds),
      (fromStrRadix_eq_some (radixOf_pos hr)).mpr ⟨ds, Or.inl rfl, hds, rfl, hfit⟩,
      Option.map_some, Option.getD_some, asF64]

/-- A literal has a number as its value. -/
lemma NumericLiteral.ne_nan {t : List ℕ} {v : F64} (h : NumericLiteral t v) : v ≠ .nan := by
  have hunsigned : ∀ {s t v}, UnsignedDecimal s t v → v ≠ .nan := by
    intro s t v h
    cases h with
    | infinity => exact F64.noConfusion
    | number _ =>
      rw [decimal]
      exact F64.ofRatio_ne_nan _ _ _
  cases h with
  | bare hu => exact hunsigned hu
  | plus hu => exact hunsigned hu
  | minus hu => exact hunsigned hu
  | @radix c r ds _ _ => exact asF64_ne_nan _

lemma mem_of_readSign {t : List ℕ} {c : ℕ} (hc : c ∈ (readSign t).2) : c ∈ t := by
  rcases readSign_cases t with ⟨r, rfl, hr⟩ | ⟨r, rfl, hr⟩ | hr
  · rw [hr] at hc
    exact List.mem_cons_of_mem _ hc
  · rw [hr] at hc
    exact List.mem_cons_of_mem _ hc
  · rw [hr] at hc
    exact hc

/-- What `f64::from_str` makes of a text without the letters of its words is a decimal number. -/
lemma literal_of_fromStr {t : List ℕ} {v : F64}
    (hletter : ∀ c ∈ t, isAsciiAlphabetic c = true → c = 0x65 ∨ c = 0x45)
    (h : fromStr t = some v) : NumericLiteral t v := by
  -- the words have an `n`
  have hno : ∀ w, 0x6E ∈ w → (readSign t).2.map toAsciiLowercase ≠ w := by
    rintro w hw rfl
    obtain ⟨c, hc, hlower⟩ := List.mem_map.mp hw
    rw [toAsciiLowercase] at hlower
    have halpha : isAsciiAlphabetic c = true := by
      simp only [isAsciiAlphabetic, Bool.or_eq_true, Bool.and_eq_true, decide_eq_true_eq]
      split_ifs at hlower <;> omega
    rcases hletter c (mem_of_readSign hc) halpha with rfl | rfl
    · exact absurd hlower (by decide)
    · exact absurd hlower (by decide)
  have hinf : ¬ ((readSign t).2.map toAsciiLowercase = [0x69, 0x6E, 0x66] ∨
      (readSign t).2.map toAsciiLowercase = infinityText.map toAsciiLowercase) :=
    not_or.mpr ⟨hno _ (by decide), hno _ (by decide)⟩
  rw [fromStr, if_neg hinf, if_neg (hno _ (by decide))] at h
  obtain ⟨⟨m, e⟩, hread, rfl⟩ := Option.map_eq_some_iff.mp h
  have hnumber := readNumber_eq_some.mp hread
  rcases readSign_cases t with ⟨r, rfl, hr⟩ | ⟨r, rfl, hr⟩ | hr
  · rw [hr] at hnumber ⊢
    exact NumericLiteral.plus (UnsignedDecimal.number hnumber)
  · rw [hr] at hnumber ⊢
    exact NumericLiteral.minus (UnsignedDecimal.number hnumber)
  · rw [hr] at hnumber ⊢
    exact NumericLiteral.bare (UnsignedDecimal.number hnumber)

/-- **A number is read from literals only**, unless a plus sign stands behind a prefix. -/
theorem literal_of_parseBody {t : List ℕ} (hover : ¬ Overreaches t) (h : parseBody t ≠ .nan) :
    NumericLiteral t (parseBody t) := by
  by_cases hinf : t = infinityText ∨ t = 0x2B :: infinityText
  · rw [parseBody, if_pos hinf]
    rcases hinf with rfl | rfl
    · exact NumericLiteral.bare UnsignedDecimal.infinity
    · exact NumericLiteral.plus UnsignedDecimal.infinity
  by_cases hneg : t = 0x2D :: infinityText
  · rw [parseBody, if_neg hinf, if_pos hneg, hneg]
    exact NumericLiteral.minus UnsignedDecimal.infinity
  by_cases hnan : t = nanText
  · rw [parseBody, if_neg hinf, if_neg hneg, if_pos hnan] at h
    exact absurd rfl h
  rw [parseBody, if_neg hinf, if_neg hneg, if_neg hnan] at h ⊢
  cases hradix : radixPrefixed t with
  | some p =>
    obtain ⟨r, ds⟩ := p
    rw [hradix] at h
    dsimp only at h ⊢
    obtain ⟨c, rfl, hr, hne⟩ := radixPrefixed_eq_some.mp hradix
    by_cases hutf : isUtf8 ds = true
    · rw [if_pos hutf] at h ⊢
      cases hread : fromStrRadix r ds with
      | none =>
        rw [hread] at h
        exact absurd rfl h
      | some n =>
        obtain ⟨digits, hsrc, hdigits, rfl, hfit⟩ :=
          (fromStrRadix_eq_some (radixOf_pos hr)).mp hread
        rw [Option.map_some, Option.getD_some, asF64]
        rcases hsrc with rfl | rfl
        · exact NumericLiteral.radix hr hdigits
        · exact absurd ⟨c, r, _, rfl, hr, Or.inl ⟨digits, rfl, hdigits, hfit⟩⟩ hover
    · rw [if_neg hutf] at h
      exact absurd rfl h
  | none =>
    rw [hradix] at h
    dsimp only at h ⊢
    by_cases hany : t.any (fun c => isAsciiAlphabetic c && c ≠ 0x65 && c ≠ 0x45) = true
    · rw [if_pos hany] at h
      exact absurd rfl h
    rw [if_neg hany] at h ⊢
    by_cases hutf : isUtf8 t = true
    · rw [if_pos hutf] at h ⊢
      cases hread : fromStr t with
      | none =>
        rw [hread] at h
        exact absurd rfl h
      | some v =>
        rw [Option.getD_some]
        refine literal_of_fromStr (fun c hc halpha => ?_) hread
        by_contra hbad
        obtain ⟨he, hE⟩ := not_or.mp hbad
        refine hany (List.any_eq_true.mpr ⟨c, hc, ?_⟩)
        simp only [Bool.and_eq_true, decide_eq_true_eq]
        exact ⟨⟨halpha, he⟩, hE⟩
    · rw [if_neg hutf] at h
      exact absurd rfl h

/-! ### Short integers -/

lemma digitIn_ten (c : ℕ) : digitIn 10 c = if isDigit c = true then some (c - 0x30) else none := by
  split_ifs with h
  · have hc := isDigit_iff.mp h
    have hlt : c - 0x30 < 10 := by omega
    rw [digitIn, digitOf, if_pos hc]
    simp [Option.filter, hlt]
  · rwa [isDigit, Option.isSome_iff_ne_none, not_not] at h

lemma decimalDigits_eq_some {acc n : ℕ} {ds : List ℕ} (hbytes : ∀ c ∈ ds, c < 256)
    (h : decimalDigits acc ds = some n) :
    (∀ c ∈ ds, isDigit c = true) ∧ n = ds.foldl (putDigit 10) acc := by
  induction ds generalizing acc with
  | nil => exact ⟨fun c hc => absurd hc List.not_mem_nil, (Option.some.inj h).symm⟩
  | cons b ds ih =>
    rw [decimalDigits] at h
    obtain ⟨hd, h⟩ := Option.ite_none_left_eq_some.mp h
    obtain ⟨hbyte, hrest⟩ := List.forall_mem_cons.mp hbytes
    have hb : isDigit b = true := isDigit_iff.mpr (by omega)
    have hput : putDigit 10 acc b = acc * 10 + (b + 256 - 0x30) % 256 := by
      rw [isDigit_iff] at hb
      rw [putDigit, digitIn_ten, if_pos (isDigit_iff.mpr hb), Option.getD_some]
      omega
    obtain ⟨hall, hn⟩ := ih hrest h
    rw [List.foldl_cons, hput]
    exact ⟨List.forall_mem_cons.mpr ⟨hb, hall⟩, hn⟩

/-- An integer is a decimal number without an exponent. -/
lemma decimal_zero (s : Bool) (n : ℕ) :
    decimal s n 0 = if s = true then (asF64 n).neg else asF64 n := by
  have hpos : asF64 n = F64.ofRatio false (n * one) 1 := by
    rw [asF64, F64.ofInt, Int.natAbs_natCast, decide_eq_false (Int.not_lt.mpr (Int.natCast_nonneg n))]
  have hscale : n * 10 ^ (0 : ℤ).toNat * one = n * one := by
    rw [Int.toNat_zero, pow_zero, Nat.mul_one]
  rw [decimal, hscale, neg_zero, Int.toNat_zero, pow_zero, hpos]
  cases s with
  | false => rw [if_neg Bool.false_ne_true]
  | true => rw [if_pos rfl, F64.neg_ofRatio, Bool.not_false]

/-- **The first path** takes literals only. -/
lemma literal_of_decimalInteger {bytes : List ℕ} {v : F64} (hbytes : ∀ c ∈ bytes, c < 256)
    (h : decimalInteger bytes = some v) :
    NumericLiteral bytes v ∧ ∀ c ∈ bytes, IsNumeric c := by
  rw [decimalInteger] at h
  obtain ⟨hne, h⟩ := Option.ite_none_left_eq_some.mp h
  obtain ⟨n, hread, rfl⟩ := Option.map_eq_some_iff.mp h
  obtain ⟨hall, rfl⟩ := decimalDigits_eq_some (fun c hc => hbytes c (mem_of_readSign hc)) hread
  have hdigits : IsDigits 10 (readSign bytes).2 := ⟨(not_or.mp hne).1, hall⟩
  have hnumber := Number.integer hdigits Exponent.absent
  rw [List.append_nil] at hnumber
  have hnumeric : ∀ c ∈ (readSign bytes).2, IsNumeric c := fun c hc => Or.inl (hall c hc)
  have hvalue := decimal_zero (readSign bytes).1 (digitsValue 10 (readSign bytes).2)
  rw [digitsValue] at hvalue
  rw [← hvalue]
  rcases readSign_cases bytes with ⟨r, rfl, hr⟩ | ⟨r, rfl, hr⟩ | hr
  · rw [hr] at hnumber hnumeric ⊢
    exact ⟨NumericLiteral.plus (UnsignedDecimal.number hnumber),
      List.forall_mem_cons.mpr ⟨Or.inr (Or.inr (Or.inr (Or.inl rfl))), hnumeric⟩⟩
  · rw [hr] at hnumber hnumeric ⊢
    exact ⟨NumericLiteral.minus (UnsignedDecimal.number hnumber),
      List.forall_mem_cons.mpr ⟨Or.inr (Or.inr (Or.inr (Or.inr rfl))), hnumeric⟩⟩
  · rw [hr] at hnumber hnumeric ⊢
    exact ⟨NumericLiteral.bare (UnsignedDecimal.number hnumber), hnumeric⟩

lemma not_overreaches_of_numeric {t : List ℕ} (h : ∀ c ∈ t, IsNumeric c) : ¬ Overreaches t := by
  rintro ⟨c, r, ds, rfl, hr, -⟩
  exact not_isNumeric_of_radixOf hr (h c (List.mem_cons_of_mem _ List.mem_cons_self))

/-! ### Both readers -/

/-- What becomes of the text between the blanks. -/
def readTrimmed (t : List ℕ) : F64 := if t = [] then asF64 0 else parseBody t

lemma trim_literal {t : List ℕ} {v : F64} (h : NumericLiteral t v) : trim isTrimWsU16 t = t := by
  have hplain : ∀ c ∈ t, isTrimWsU16 c = false := fun c hc =>
    Bool.eq_false_of_not_eq_true (isTrimWsU16_iff.not.mpr (not_isBlank_of_ascii (h.ascii c hc)))
  have htrim : trim isTrimWsU16 ([] ++ t ++ []) = t := trim_append
    (fun u hu => absurd hu List.not_mem_nil) (fun u hu => absurd hu List.not_mem_nil)
    (fun c hc => hplain c (List.mem_of_mem_head? hc))
    (fun c hc => hplain c (List.mem_of_mem_getLast? hc))
  rwa [List.nil_append, List.append_nil] at htrim

lemma parseNumberOf_eq {bytes : List ℕ} (hbytes : ∀ u ∈ bytes, u < 256) :
    parseNumberOf bytes = readTrimmed (trim isTrimWsU16 bytes) := by
  rw [← trim_congr fun u hu => isTrimWs_eq (hbytes u hu), parseNumberOf]
  cases hfast : decimalInteger bytes with
  | none => rfl
  | some v =>
    obtain ⟨hliteral, hnumeric⟩ := literal_of_decimalInteger hbytes hfast
    have hne : bytes ≠ [] := by
      rintro rfl
      cases hfast
    rw [trim_congr fun u hu => isTrimWs_eq (hbytes u hu), trim_literal hliteral, readTrimmed,
      if_neg hne, parseBody_literal (not_overreaches_of_numeric hnumeric) hliteral]

/-- **The one-byte reader** reads the text between the blanks. -/
theorem parseNumber_eq (bytes : List UInt8) :
    parseNumber bytes = readTrimmed (trim isTrimWsU16 (bytes.map UInt8.toNat)) := by
  refine parseNumberOf_eq fun u hu => ?_
  obtain ⟨b, -, rfl⟩ := List.mem_map.mp hu
  exact UInt8.toNat_lt b

/-- **The two-byte reader** reads the text between the blanks. -/
theorem parseNumberUtf16_eq (payload : List UInt8) :
    parseNumberUtf16 payload = readTrimmed (trim isTrimWsU16 (unitsOf payload)) := by
  rw [parseNumberUtf16]
  generalize hbody : trim isTrimWsU16 (unitsOf payload) = body
  by_cases hwide : body.any (fun u => 0x7F < u) = true
  · obtain ⟨c, hc, hlt⟩ := List.any_eq_true.mp hwide
    have hlt' := of_decide_eq_true hlt
    have hne : body ≠ [] := List.ne_nil_of_mem hc
    rw [if_pos hwide, readTrimmed, if_neg hne]
    by_contra hnan
    have hover : ¬ Overreaches body := by
      intro hover
      have := hover.ascii c hc
      omega
    have := (literal_of_parseBody hover (Ne.symm hnan)).ascii c hc
    omega
  · have hall : ∀ c ∈ body, c ≤ 0x7F := by
      intro c hc
      by_contra hlarge
      exact hwide (List.any_eq_true.mpr ⟨c, hc, decide_eq_true (Nat.not_le.mp hlarge)⟩)
    have hsame : (body.map UInt8.ofNat).map UInt8.toNat = body := by
      rw [List.map_map]
      refine (List.map_congr_left fun c hc => ?_).trans (List.map_id body)
      have hlt : c < 2 ^ 8 := (hall c hc).trans_lt (by decide)
      exact UInt8.toNat_ofNat_of_lt hlt
    have htrim : trim isTrimWsU16 body = body := by
      rw [← hbody]
      exact trim_trim _ fun c _ h => h
    rw [if_neg hwide, parseNumber_eq, hsame, htrim]

/-- No literal has a plus sign behind a prefix. -/
lemma not_literal_plus {c r : ℕ} {digits : List ℕ} {v : F64} (hr : radixOf c = some r) :
    ¬ NumericLiteral (0x30 :: c :: 0x2B :: digits) v := by
  intro h
  cases h with
  | bare hu =>
    cases hu with
    | number hn =>
      exact not_isNumeric_of_radixOf hr
        (number_numeric hn c (List.mem_cons_of_mem _ List.mem_cons_self))
  | radix _ hds => exact nomatch hds.2 0x2B List.mem_cons_self

/-- **What is read is what the string stands for**, unless the library judges otherwise behind a
radix prefix. -/
lemma readTrimmed_exact_iff (units : List ℕ) :
    (∀ v, StringToNumber units v ↔ v = readTrimmed (trim isTrimWsU16 units)) ↔
      ¬ Misread units := by
  rw [misread_iff]
  have hspec : ∀ v, StringToNumber units v ↔
      ((trim isTrimWsU16 units = [] ∧ v = asF64 0) ∨ NumericLiteral (trim isTrimWsU16 units) v) ∨
      (∀ w, ¬ ((trim isTrimWsU16 units = [] ∧ w = asF64 0) ∨
        NumericLiteral (trim isTrimWsU16 units) w)) ∧ v = .nan := by
    intro v
    rw [StringToNumber]
    simp only [stringNumeric_iff, asF64, Nat.cast_zero]
  simp only [hspec]
  generalize trim isTrimWsU16 units = t
  have hempty : ∀ v, ¬ NumericLiteral [] v := by
    intro v h
    cases h with
    | bare hu =>
      cases hu with
      | number hn =>
        obtain ⟨c, r, hnil, -⟩ := number_head hn
        cases hnil
  by_cases hnil : t = []
  · subst hnil
    have hfine : ¬ Overreaches [] := by
      rintro ⟨c, r, ds, hnil, -⟩
      cases hnil
    refine iff_of_true (fun v => ?_) hfine
    rw [readTrimmed, if_pos rfl]
    constructor
    · rintro ((⟨-, hv⟩ | hliteral) | ⟨hnone, -⟩)
      · exact hv
      · exact absurd hliteral (hempty v)
      · exact absurd (Or.inl ⟨rfl, rfl⟩) (hnone (asF64 0))
    · exact fun hv => Or.inl (Or.inl ⟨rfl, hv⟩)
  · simp only [hnil, false_and, false_or, readTrimmed, if_false]
    constructor
    · intro hall hover
      have hread := (hall (parseBody t)).mpr rfl
      obtain ⟨c, r, ds, rfl, hr, ⟨digits, rfl, hdigits, hfit⟩ | ⟨hdigits, hlarge⟩⟩ := hover
      · have hvalue : parseBody (0x30 :: c :: 0x2B :: digits) = asF64 (digitsValue r digits) := by
          have hutf : isUtf8 (0x2B :: digits) = true :=
            isUtf8_of_ascii (List.forall_mem_cons.mpr ⟨by decide, fun c hc =>
              (digitIn_ascii (hdigits.2 c hc)).2.trans_lt (by decide)⟩)
          rw [parseBody_radix hr (List.cons_ne_nil _ _), if_pos hutf,
            (fromStrRadix_eq_some (radixOf_pos hr)).mpr
              ⟨digits, Or.inr rfl, hdigits, rfl, hfit⟩, Option.map_some, Option.getD_some]
        rw [hvalue] at hread
        rcases hread with hliteral | ⟨-, hnan⟩
        · exact not_literal_plus hr hliteral
        · exact asF64_ne_nan _ hnan
      · have hvalue : parseBody (0x30 :: c :: ds) = .nan := by
          have hnone : fromStrRadix r ds = none := by
            rw [Option.eq_none_iff_forall_ne_some]
            intro n hn
            obtain ⟨digits, rfl | rfl, -, rfl, hfit⟩ :=
              (fromStrRadix_eq_some (radixOf_pos hr)).mp hn
            · exact absurd hfit (Nat.not_lt.mpr hlarge)
            · exact nomatch hdigits.2 0x2B List.mem_cons_self
          rw [parseBody_radix hr hdigits.1, if_pos (isUtf8_digits hdigits), hnone]
          rfl
        have hliteral := (hall _).mp (Or.inl (NumericLiteral.radix hr hdigits))
        rw [hvalue] at hliteral
        exact asF64_ne_nan _ hliteral
    · intro hover v
      constructor
      · rintro (hliteral | ⟨hnone, rfl⟩)
        · exact (parseBody_literal hover hliteral).symm
        · by_contra hnan
          exact hnone _ (literal_of_parseBody hover (Ne.symm hnan))
      · rintro rfl
        by_cases hnan : parseBody t = .nan
        · refine Or.inr ⟨fun w hw => hw.ne_nan ?_, hnan⟩
          rw [← parseBody_literal hover hw, hnan]
        · exact Or.inl (literal_of_parseBody hover hnan)

/-! ### The result -/

/-- The two-byte payload of a one-byte string. -/
def widen (bytes : List UInt8) : List UInt8 := bytes.flatMap fun b => [b, 0]

lemma unitsOf_widen (bytes : List UInt8) : unitsOf (widen bytes) = bytes.map UInt8.toNat := by
  induction bytes with
  | nil => rfl
  | cons b bytes ih =>
    change (b.toNat + 256 * 0) :: unitsOf (widen bytes) = b.toNat :: bytes.map UInt8.toNat
    rw [ih, Nat.mul_zero, Nat.add_zero]

/-- **Strings as numbers.**  Each reader gives the number a string stands for exactly when the text
of the string is no prefixed integer of more than 64 bits and no sign stands behind a prefix; and
the two readers agree on every string of both encodings. -/
theorem toNumber_exact_iff (bytes payload : List UInt8) :
    ((∀ v, StringToNumber (bytes.map UInt8.toNat) v ↔ v = parseNumber bytes) ↔
      ¬ Misread (bytes.map UInt8.toNat)) ∧
    ((∀ v, StringToNumber (unitsOf payload) v ↔ v = parseNumberUtf16 payload) ↔
      ¬ Misread (unitsOf payload)) ∧
    parseNumberUtf16 (widen bytes) = parseNumber bytes := by
  refine ⟨?_, ?_, ?_⟩
  · rw [parseNumber_eq]
    exact readTrimmed_exact_iff _
  · rw [parseNumberUtf16_eq]
    exact readTrimmed_exact_iff _
  · rw [parseNumberUtf16_eq, parseNumber_eq, unitsOf_widen]

/-- `0x+5` is no literal, and is read as a number. -/
theorem toNumber_plus :
    ¬ ∀ v, StringToNumber (([0x30, 0x78, 0x2B, 0x35] : List UInt8).map UInt8.toNat) v ↔
      v = parseNumber [0x30, 0x78, 0x2B, 0x35] := by
  rw [parseNumber_eq, readTrimmed_exact_iff, not_not]
  refine ⟨[0x30, 0x78, 0x2B, 0x35], ⟨[], [], rfl, fun u hu => absurd hu List.not_mem_nil,
    fun u hu => absurd hu List.not_mem_nil⟩, 0x78, 16, [0x2B, 0x35], rfl, rfl,
    Or.inl ⟨[0x35], rfl, ⟨List.cons_ne_nil _ _, by decide⟩, by decide⟩⟩

end Torajs.ToNumber
