import ToraJs.Str.TemplateReading

/-!
# Replacement is exact where the template reads true

The loops over bytes are carried over to the code units, where the expansion appends the pieces of
the reading by first bytes.  With the comparison of the two readings this gives the exact condition
under which a template is expanded as by `GetSubstitution` for every subject.
-/

namespace Torajs.Str

/-! ### Payloads -/

section Encode

variable {stride : ℕ}

lemma length_unitBytes (hs : stride = 1 ∨ stride = 2) (u : ℕ) :
    (unitBytes stride u).length = stride := by
  rcases hs with rfl | rfl <;> rfl

lemma encodeUnits_cons (stride u : ℕ) (us : List ℕ) :
    encodeUnits stride (u :: us) = unitBytes stride u ++ encodeUnits stride us :=
  List.flatMap_cons

lemma encodeUnits_append (stride : ℕ) (us vs : List ℕ) :
    encodeUnits stride (us ++ vs) = encodeUnits stride us ++ encodeUnits stride vs :=
  List.flatMap_append

lemma length_encodeUnits (hs : stride = 1 ∨ stride = 2) (us : List ℕ) :
    (encodeUnits stride us).length = stride * us.length := by
  induction us with
  | nil => rfl
  | cons u us ih =>
    rw [encodeUnits_cons, List.length_append, length_unitBytes hs, ih, List.length_cons,
      Nat.mul_succ, Nat.add_comm]

lemma drop_encodeUnits (hs : stride = 1 ∨ stride = 2) (us : List ℕ) (k : ℕ) :
    (encodeUnits stride us).drop (stride * k) = encodeUnits stride (us.drop k) := by
  induction k generalizing us with
  | zero => rfl
  | succ k ih =>
    cases us with
    | nil => exact List.drop_nil
    | cons u us =>
      rw [encodeUnits_cons, Nat.mul_succ, Nat.add_comm, ← List.drop_drop,
        List.drop_left' (length_unitBytes hs u), ih]
      rfl

lemma take_encodeUnits (hs : stride = 1 ∨ stride = 2) (us : List ℕ) (k : ℕ) :
    (encodeUnits stride us).take (stride * k) = encodeUnits stride (us.take k) := by
  induction k generalizing us with
  | zero => rfl
  | succ k ih =>
    cases us with
    | nil => exact List.take_nil
    | cons u us =>
      rw [encodeUnits_cons, Nat.mul_succ, Nat.add_comm, List.take_succ_cons, encodeUnits_cons,
        ← ih us]
      have hlen := length_unitBytes hs u
      rw [List.take_append, List.take_of_length_le (by omega), hlen, Nat.add_sub_cancel_left]

lemma unitBytes_inj (hs : stride = 1 ∨ stride = 2) {u v : ℕ}
    (h : unitBytes stride u = unitBytes stride v) : u = v := by
  rcases hs with rfl | rfl
  · exact (List.cons.inj h).1
  · have hlow : u % 256 = v % 256 := (List.cons.inj h).1
    have hhigh : u / 256 = v / 256 := (List.cons.inj (List.cons.inj h).2).1
    omega

lemma encodeUnits_inj (hs : stride = 1 ∨ stride = 2) {us vs : List ℕ}
    (h : encodeUnits stride us = encodeUnits stride vs) : us = vs := by
  have hpos : 0 < stride := by omega
  induction us generalizing vs with
  | nil =>
    have hlen := congrArg List.length h
    rw [length_encodeUnits hs, length_encodeUnits hs, List.length_nil, Nat.mul_zero] at hlen
    rcases Nat.mul_eq_zero.mp hlen.symm with hzero | hzero
    · omega
    · exact (List.length_eq_zero_iff.mp hzero).symm
  | cons u us ih =>
    cases vs with
    | nil =>
      have hlen := congrArg List.length h
      rw [length_encodeUnits hs, length_encodeUnits hs, List.length_nil, Nat.mul_zero] at hlen
      rcases Nat.mul_eq_zero.mp hlen with hzero | hzero
      · omega
      · cases hzero
    | cons v vs =>
      rw [encodeUnits_cons, encodeUnits_cons] at h
      obtain ⟨hu, hus⟩ := List.append_inj h
        ((length_unitBytes hs u).trans (length_unitBytes hs v).symm)
      rw [unitBytes_inj hs hu, ih hus]

/-- The byte at a unit boundary is the first byte of the unit there. -/
lemma getD_encodeUnits (hs : stride = 1 ∨ stride = 2) {us : List ℕ}
    (hfits : ∀ u ∈ us, u < 256 ^ stride) {k u : ℕ} {r : List ℕ} (hdrop : us.drop k = u :: r) :
    (encodeUnits stride us).getD (stride * k) 0 = u % 256 := by
  have hmem : u ∈ us := List.mem_of_mem_drop (by rw [hdrop]; exact List.mem_cons_self)
  rw [List.getD_eq_getElem?_getD, ← Nat.add_zero (stride * k), ← List.getElem?_drop,
    drop_encodeUnits hs, hdrop, encodeUnits_cons]
  rcases hs with rfl | rfl
  · have hlt : u < 256 := by simpa using hfits u hmem
    exact (Nat.mod_eq_of_lt hlt).symm
  · rfl

lemma IsStr.take {us : List ℕ} (h : IsStr stride us) (k : ℕ) : IsStr stride (us.take k) where
  stride_eq := h.stride_eq
  fits := fun u hu => h.fits u (List.mem_of_mem_take hu)
  length_le := le_trans (by rw [List.length_take]; exact min_le_right _ _) h.length_le

lemma IsStr.drop {us : List ℕ} (h : IsStr stride us) (k : ℕ) : IsStr stride (us.drop k) where
  stride_eq := h.stride_eq
  fits := fun u hu => h.fits u (List.mem_of_mem_drop hu)
  length_le := le_trans (by rw [List.length_drop]; exact Nat.sub_le _ _) h.length_le

end Encode

/-! ### The dollar scan -/

section Bytes

variable {stride : ℕ} {t : List ℕ}

lemma cons_of_lt_length {k : ℕ} (h : k < t.length) : ∃ u r, t.drop k = u :: r :=
  ⟨_, _, List.drop_eq_getElem_cons h⟩

lemma hasDollarFrom_encode (hs : stride = 1 ∨ stride = 2) (hfits : ∀ u ∈ t, u < 256 ^ stride)
    {fuel k : ℕ} (hfuel : t.length - k < fuel) :
    hasDollarFrom (encodeUnits stride t) stride fuel (stride * k) = true ↔
      ∃ u ∈ t.drop k, u % 256 = 0x24 := by
  induction fuel generalizing k with
  | zero => omega
  | succ fuel ih =>
    have hpos : 0 < stride := by omega
    rw [hasDollarFrom, length_encodeUnits hs, ← Nat.mul_succ]
    by_cases hk : k < t.length
    · obtain ⟨u, r, hdrop⟩ := cons_of_lt_length hk
      have hnext : t.drop (k + 1) = r := by
        rw [← List.drop_drop, hdrop]
        rfl
      rw [if_pos (Nat.mul_le_mul_left _ hk), getD_encodeUnits hs hfits hdrop, hdrop]
      by_cases hu : u % 256 = 0x24
      · rw [if_pos hu]
        exact ⟨fun _ => ⟨u, List.mem_cons_self, hu⟩, fun _ => rfl⟩
      · rw [if_neg hu, ih (by omega), hnext]
        constructor
        · rintro ⟨v, hv, hlow⟩
          exact ⟨v, List.mem_cons_of_mem _ hv, hlow⟩
        · rintro ⟨v, hv, hlow⟩
          rcases List.mem_cons.mp hv with rfl | hv
          · exact absurd hlow hu
          · exact ⟨v, hv, hlow⟩
    · rw [if_neg fun hle => hk (Nat.le_of_mul_le_mul_left hle hpos),
        List.drop_eq_nil_of_le (Nat.not_lt.mp hk)]
      constructor
      · intro h
        exact absurd h Bool.false_ne_true
      · rintro ⟨u, hu, -⟩
        exact absurd hu List.not_mem_nil

/-- The scan finds the units whose first byte is that of `$`. -/
lemma templateHasDollar_encode (h : IsStr stride t) :
    templateHasDollar (encodeUnits stride t) stride = true ↔ ∃ u ∈ t, u % 256 = 0x24 := by
  have hs := h.stride_eq
  have hpos : 0 < stride := by omega
  have hle : t.length ≤ stride * t.length := Nat.le_mul_of_pos_left _ hpos
  rw [templateHasDollar, length_encodeUnits hs]
  exact hasDollarFrom_encode (k := 0) hs h.fits (by omega)

/-! ### The expansion -/

/-- The pieces appended one by one, each only while the output is no longer than a string. -/
def appendPieces : List ℕ → List (List ℕ) → Bool × List ℕ
  | out, [] => (true, out)
  | out, p :: ps =>
    if strMaxLen < out.length + p.length then (false, out) else appendPieces (out ++ p) ps

lemma appendPieces_true {out : List ℕ} {ps : List (List ℕ)} (h : (appendPieces out ps).1 = true) :
    (appendPieces out ps).2 = out ++ ps.flatten := by
  induction ps generalizing out with
  | nil => rw [appendPieces, List.flatten_nil, List.append_nil]
  | cons p ps ih =>
    rw [appendPieces] at h ⊢
    split_ifs at h ⊢
    rw [ih h, List.flatten_cons, List.append_assoc]

lemma appendPieces_false {out : List ℕ} {ps : List (List ℕ)}
    (h : (appendPieces out ps).1 = false) : strMaxLen < (out ++ ps.flatten).length := by
  induction ps generalizing out with
  | nil => cases h
  | cons p ps ih =>
    rw [appendPieces] at h
    rw [List.flatten_cons, ← List.append_assoc]
    split_ifs at h with hlong
    · rw [List.length_append, List.length_append]
      omega
    · exact ih h

/-- The expansion on code units. -/
def expandUnits (t matched pre post out : List ℕ) : Bool × List ℕ :=
  appendPieces out ((lowReading t).map (Piece.expand matched pre post))

lemma namedPiece_map {α β : Type} (f : α → β) (c : ℕ) (unit matched pre post : α) :
    namedPiece c (f unit) (f matched) (f pre) (f post) =
      (namedPiece c unit matched pre post).map f := by
  rw [namedPiece, namedPiece]
  split_ifs <;> rfl

lemma encodeUnits_singleton (stride u : ℕ) : encodeUnits stride [u] = unitBytes stride u := by
  rw [encodeUnits_cons]
  exact List.append_nil _

/-- The limit in bytes is the limit in units. -/
lemma strMaxBytes_lt_iff (hs : stride = 1 ∨ stride = 2) (out piece : List ℕ) :
    strMaxBytes stride < (encodeUnits stride out).length + (encodeUnits stride piece).length ↔
      strMaxLen < out.length + piece.length := by
  rw [length_encodeUnits hs, length_encodeUnits hs, ← Nat.mul_add, strMaxBytes]
  exact Nat.mul_lt_mul_left (by omega)

lemma expandFrom_encode (hs : stride = 1 ∨ stride = 2) (hfits : ∀ u ∈ t, u < 256 ^ stride)
    (matched pre post : List ℕ) {fuel k : ℕ} (hfuel : t.length - k < fuel) (out : List ℕ) :
    expandFrom (encodeUnits stride t) (encodeUnits stride matched) (encodeUnits stride pre)
        (encodeUnits stride post) stride fuel (stride * k) (encodeUnits stride out) =
      (expandUnits (t.drop k) matched pre post out).map id (encodeUnits stride) := by
  induction fuel generalizing k out with
  | zero => omega
  | succ fuel ih =>
    have hpos : 0 < stride := by omega
    rw [expandFrom, length_encodeUnits hs, ← Nat.mul_succ]
    by_cases hk : k < t.length
    · obtain ⟨u, r, hdrop⟩ := cons_of_lt_length hk
      have hnext : t.drop (k + 1) = r := by
        rw [← List.drop_drop, hdrop]
        rfl
      have hlen : r.length = t.length - (k + 1) := by rw [← hnext, List.length_drop]
      have hunit : ((encodeUnits stride t).drop (stride * k)).take stride =
          encodeUnits stride [u] := by
        have := take_encodeUnits hs (t.drop k) 1
        rw [Nat.mul_one] at this
        rw [drop_encodeUnits hs, this, hdrop]
        rfl
      have htwo : stride * k + 2 * stride = stride * (k + 2) := by
        rw [Nat.mul_add, Nat.mul_comm 2]
      rw [if_pos (Nat.mul_le_mul_left _ hk), getD_encodeUnits hs hfits hdrop, hunit, hdrop,
        htwo]
      dsimp only
      -- one round of the loop on a piece of the reading
      have hround : ∀ (p : Piece) (rest : List ℕ) (named : Option (List ℕ)) (k' : ℕ),
          lowReading (u :: r) = p :: lowReading rest → t.drop k' = rest → k < k' →
          named.getD (encodeUnits stride [u]) =
            encodeUnits stride (p.expand matched pre post) →
          stride * k + (if named.isSome = true then 2 * stride else stride) = stride * k' →
          (if strMaxBytes stride < (encodeUnits stride out).length +
              (named.getD (encodeUnits stride [u])).length then (false, encodeUnits stride out)
            else expandFrom (encodeUnits stride t) (encodeUnits stride matched)
              (encodeUnits stride pre) (encodeUnits stride post) stride fuel
              (stride * k + if named.isSome = true then 2 * stride else stride)
              (encodeUnits stride out ++ named.getD (encodeUnits stride [u]))) =
            (expandUnits (u :: r) matched pre post out).map id (encodeUnits stride) := by
        intro p rest named k' hreading hrest hlt hpiece hstep
        rw [hpiece, hstep, expandUnits, hreading, List.map_cons, appendPieces,
          ← encodeUnits_append, ih (by omega), hrest]
        by_cases hlong : strMaxLen < out.length + (p.expand matched pre post).length
        · rw [if_pos ((strMaxBytes_lt_iff hs _ _).mpr hlong), if_pos hlong]
          rfl
        · rw [if_neg fun h => hlong ((strMaxBytes_lt_iff hs _ _).mp h), if_neg hlong]
          rfl
      have hone : stride * k + (if (none : Option (List ℕ)).isSome = true then 2 * stride
          else stride) = stride * (k + 1) := rfl
      by_cases hu : u % 256 = 0x24
      · cases r with
        | nil =>
          rw [List.length_nil] at hlen
          have hlast : ¬ (u % 256 = 0x24 ∧ stride * (k + 2) ≤ stride * t.length) := by
            rintro ⟨-, hle⟩
            have := Nat.le_of_mul_le_mul_left hle hpos
            omega
          rw [if_neg hlast]
          exact hround (.unit u) [] none (k + 1) rfl hnext (Nat.lt_succ_self k) rfl hone
        | cons c r =>
          have hdropc : t.drop (k + 1) = c :: r := hnext
          rw [List.length_cons] at hlen
          have hinside : stride * (k + 2) ≤ stride * t.length :=
            Nat.mul_le_mul_left _ (by omega)
          have hpair : u % 256 = 0x24 ∧ stride * (k + 2) ≤ stride * t.length := ⟨hu, hinside⟩
          rw [if_pos hpair, getD_encodeUnits hs hfits hdropc]
          have hmap := namedPiece_map
            (fun p : Piece => encodeUnits stride (p.expand matched pre post)) (c % 256)
            (.unit u) .matched .before .after
          change namedPiece (c % 256) (encodeUnits stride [u]) (encodeUnits stride matched)
            (encodeUnits stride pre) (encodeUnits stride post) = _ at hmap
          cases hp : namedPiece (c % 256) (Piece.unit u) .matched .before .after with
          | none =>
            rw [hp, Option.map_none] at hmap
            rw [hmap]
            exact hround (.unit u) (c :: r) none (k + 1) (lowReading_of_none hu hp r) hdropc
              (Nat.lt_succ_self k) rfl hone
          | some p =>
            rw [hp, Option.map_some] at hmap
            rw [hmap]
            refine hround p r (some _) (k + 2) (lowReading_of_some hu hp r) ?_ (by omega) rfl ?_
            · rw [show k + 2 = k + 1 + 1 from rfl, ← List.drop_drop, hdropc]
              rfl
            · rw [Option.isSome_some, if_pos rfl, htwo]
      · have hno : ¬ (u % 256 = 0x24 ∧ stride * (k + 2) ≤ stride * t.length) := fun h => hu h.1
        rw [if_neg hno]
        exact hround (.unit u) r none (k + 1) (lowReading_of_ne hu r) hnext (Nat.lt_succ_self k)
          rfl hone
    · rw [if_neg fun hle => hk (Nat.le_of_mul_le_mul_left hle hpos),
        List.drop_eq_nil_of_le (Nat.not_lt.mp hk)]
      rfl

lemma expandStrReplacement_encode (h : IsStr stride t) (matched pre post out : List ℕ) :
    expandStrReplacement (encodeUnits stride t) (encodeUnits stride matched)
        (encodeUnits stride pre) (encodeUnits stride post) stride (encodeUnits stride out) =
      (expandUnits t matched pre post out).map id (encodeUnits stride) := by
  have hs := h.stride_eq
  have hle : t.length ≤ stride * t.length := Nat.le_mul_of_pos_left _ (by omega)
  rw [expandStrReplacement, length_encodeUnits hs]
  exact expandFrom_encode (k := 0) hs h.fits matched pre post (by omega) out

end Bytes

/-! ### All matches -/

section ReplaceAll

variable {stride : ℕ} {s needle t : List ℕ}

/-- The loop in any encoding is the loop on code units. -/
lemma replaceAllLoop_encode (hs : stride = 1 ∨ stride = 2) (hne : needle ≠ [])
    (expand expand' : List ℕ → List ℕ → List ℕ → Bool × List ℕ)
    (hexpand : ∀ pre post out, expand (encodeUnits stride pre) (encodeUnits stride post)
      (encodeUnits stride out) = (expand' pre post out).map id (encodeUnits stride))
    {f f' k : ℕ} (hfuel : s.length + 1 - k ≤ f) (hfuel' : s.length + 1 - k ≤ f')
    (hle : needle.length ≤ s.length) (hk : k ≤ s.length) (out : List ℕ) :
    replaceAllLoop (encodeUnits stride s) (encodeUnits stride needle) stride expand f
        (stride * k) (encodeUnits stride out) =
      (replaceAllLoop s needle 1 expand' f' k out).map
        (Prod.map (stride * ·) (encodeUnits stride)) := by
  have hpos : 0 < stride := by omega
  have hneedle := List.length_pos_of_ne_nil hne
  induction f generalizing f' k out with
  | zero => omega
  | succ fuel ih =>
    obtain ⟨fuel', rfl⟩ : ∃ n, f' = n + 1 := ⟨f' - 1, by omega⟩
    have hinside : stride * k ≤ stride * s.length - stride * needle.length ↔
        k ≤ s.length - needle.length := by
      rw [← Nat.mul_sub]
      exact Nat.mul_le_mul_left_iff hpos
    have htaken : ∀ n, ((encodeUnits stride s).drop (stride * k)).take (stride * n) =
        encodeUnits stride ((s.drop k).take n) := by
      intro n
      rw [drop_encodeUnits hs, take_encodeUnits hs]
    have hmatch : ((encodeUnits stride s).drop (stride * k)).take (stride * needle.length) =
        encodeUnits stride needle ↔ (s.drop k).take needle.length = needle := by
      rw [htaken]
      exact ⟨encodeUnits_inj hs, congrArg _⟩
    have hunit := htaken 1
    rw [Nat.mul_one] at hunit
    rw [replaceAllLoop, replaceAllLoop, length_encodeUnits hs, length_encodeUnits hs]
    by_cases hk' : k ≤ s.length - needle.length
    · rw [if_pos (hinside.mpr hk'), if_pos hk']
      by_cases hfound : (s.drop k).take needle.length = needle
      · rw [if_pos (hmatch.mpr hfound), if_pos hfound, ← Nat.mul_add, take_encodeUnits hs,
          drop_encodeUnits hs, hexpand]
        dsimp only [Prod.map, id]
        by_cases hfits : (expand' (s.take k) (s.drop (k + needle.length)) out).1 = true
        · rw [if_pos hfits, if_pos hfits]
          exact ih (by omega) (by omega) (by omega) _
        · rw [if_neg hfits, if_neg hfits]
          rfl
      · rw [if_neg fun h => hfound (hmatch.mp h), if_neg hfound, hunit, ← encodeUnits_append,
          ← Nat.mul_succ]
        exact ih (by omega) (by omega) (by omega) _
    · rw [if_neg fun h => hk' (hinside.mp h), if_neg hk']
      rfl

/-- The rest behind the loop is always appended. -/
lemma finishReplace_eq (s : List ℕ) (r : ℕ × List ℕ) : finishReplace s r = r.2 ++ s.drop r.1 := by
  rw [finishReplace]
  split_ifs with h
  · rfl
  · rw [List.drop_eq_nil_of_le (Nat.not_lt.mp h), List.append_nil]

/-- `replace_all_with_substitution` on code units. -/
def replaceAllUnits (s needle t : List ℕ) : Option (List ℕ) :=
  replaceAllBy s needle 1 fun pre post out => expandUnits t needle pre post out

/-- `replace_all_with_substitution` does in each encoding what it does on code units. -/
lemma replaceAllWithSubstitution_encode (ht : IsStr stride t) (hne : needle ≠ []) :
    replaceAllWithSubstitution (encodeUnits stride s) (encodeUnits stride needle)
        (encodeUnits stride t) stride =
      (replaceAllUnits s needle t).map (encodeUnits stride) := by
  have hs := ht.stride_eq
  have hpos : 0 < stride := by omega
  have hlen : s.length ≤ stride * s.length := Nat.le_mul_of_pos_left _ hpos
  have hcond : (0 < stride * needle.length ∧ stride * needle.length ≤ stride * s.length) ↔
      (0 < needle.length ∧ needle.length ≤ s.length) := by
    rw [Nat.mul_le_mul_left_iff hpos, Nat.mul_pos_iff_of_pos_left hpos]
  rw [replaceAllWithSubstitution, replaceAllUnits, replaceAllBy, replaceAllBy,
    length_encodeUnits hs, length_encodeUnits hs]
  by_cases hle : 0 < needle.length ∧ needle.length ≤ s.length
  · have hloop := replaceAllLoop_encode (k := 0) hs hne
      (fun pre post out => expandStrReplacement (encodeUnits stride t)
        (encodeUnits stride needle) pre post stride out)
      (fun pre post out => expandUnits t needle pre post out)
      (expandStrReplacement_encode ht needle)
      (show s.length + 1 - 0 ≤ stride * s.length + 1 by omega)
      (le_refl (s.length + 1)) hle.2 (Nat.zero_le _) []
    rw [if_pos (hcond.mpr hle), if_pos hle]
    change (replaceAllLoop _ _ _ _ (stride * s.length + 1) 0 []).map _ = _
    change replaceAllLoop _ _ _ _ (stride * s.length + 1) 0 [] = _ at hloop
    rw [hloop, Option.map_map, Option.map_map]
    congr 1
    funext r
    rw [Function.comp_apply, Function.comp_apply, finishReplace_eq, finishReplace_eq,
      encodeUnits_append, ← drop_encodeUnits hs]
    rfl
  · rw [if_neg fun h => hle (hcond.mp h), if_neg hle, Option.map_some, finishReplace_eq,
      finishReplace_eq]
    rfl

/-! ### Comparison with `GetSubstitution` -/

/-- Where the readings agree an expansion that fits is that of `GetSubstitution`. -/
lemma expandUnits_true (hreading : lowReading t = exactReading t) {matched pre post out : List ℕ}
    (h : (expandUnits t matched pre post out).1 = true) :
    (expandUnits t matched pre post out).2 = out ++ getSubstitution matched pre post t := by
  rw [expandUnits, appendPieces_true h, getSubstitution_eq, hreading, List.flatMap]

lemma expandUnits_false (hreading : lowReading t = exactReading t) {matched pre post out : List ℕ}
    (h : (expandUnits t matched pre post out).1 = false) :
    strMaxLen < (out ++ getSubstitution matched pre post t).length := by
  rw [getSubstitution_eq, ← hreading, List.flatMap]
  exact appendPieces_false h

/-- No match fits into a rest that is too short. -/
lemma replaceAllFrom_of_short {fuel k : ℕ} (hfuel : s.length - k ≤ fuel)
    (hshort : s.length < k + needle.length) : replaceAllFrom s needle t fuel k = s.drop k := by
  induction fuel generalizing k with
  | zero => rfl
  | succ fuel ih =>
    rw [replaceAllFrom]
    by_cases hk : k < s.length
    · have hfound : (s.drop k).take needle.length ≠ needle := by
        intro h
        have hlen := congrArg List.length h
        rw [List.length_take, List.length_drop] at hlen
        omega
      rw [if_pos hk, if_neg hfound, ih (by omega) (by omega), ← List.drop_drop,
        List.take_append_drop]
    · rw [if_neg hk, List.drop_eq_nil_of_le (Nat.not_lt.mp hk)]

/-- The loop on code units follows `replaceAll`. -/
lemma replaceAllLoop_spec (hreading : lowReading t = exactReading t) (hne : needle ≠ [])
    (hle : needle.length ≤ s.length) {f f' k : ℕ} (hfuel : s.length + 1 - k ≤ f)
    (hfuel' : s.length - k ≤ f') (hk : k ≤ s.length) (out : List ℕ) :
    match replaceAllLoop s needle 1 (fun pre post out => expandUnits t needle pre post out) f k
      out with
    | some r => r.2 ++ s.drop r.1 = out ++ replaceAllFrom s needle t f' k
    | none => strMaxLen < (out ++ replaceAllFrom s needle t f' k).length := by
  have hneedle := List.length_pos_of_ne_nil hne
  induction f generalizing f' k out with
  | zero => omega
  | succ fuel ih =>
    rw [replaceAllLoop]
    by_cases hk' : k ≤ s.length - needle.length
    · obtain ⟨fuel', rfl⟩ : ∃ n, f' = n + 1 := ⟨f' - 1, by omega⟩
      rw [if_pos hk', replaceAllFrom, if_pos (by omega : k < s.length)]
      by_cases hfound : (s.drop k).take needle.length = needle
      · rw [if_pos hfound, if_pos hfound]
        dsimp only
        by_cases hfits :
            (expandUnits t needle (s.take k) (s.drop (k + needle.length)) out).1 = true
        · rw [if_pos hfits, expandUnits_true hreading hfits, ← List.append_assoc]
          exact ih (by omega) (by omega) (by omega) _
        · have hlong := expandUnits_false hreading (Bool.eq_false_of_not_eq_true hfits)
          rw [if_neg hfits, ← List.append_assoc, List.length_append]
          exact lt_of_lt_of_le hlong (Nat.le_add_right _ _)
      · rw [if_neg hfound, if_neg hfound, ← List.append_assoc]
        exact ih (by omega) (by omega) (by omega) _
    · rw [if_neg hk', replaceAllFrom_of_short hfuel' (by omega)]

/-- Where the readings agree all matches are replaced as by `replaceAll`. -/
lemma replaceAllUnits_spec (hreading : lowReading t = exactReading t) (hne : needle ≠ []) :
    match replaceAllUnits s needle t with
    | some result => result = replaceAll s needle t
    | none => strMaxLen < (replaceAll s needle t).length := by
  rw [replaceAllUnits, replaceAllBy, replaceAll]
  by_cases hle : 0 < needle.length ∧ needle.length ≤ s.length
  · have hloop := replaceAllLoop_spec (k := 0) hreading hne hle.2
      (le_refl (s.length + 1)) (le_refl s.length) (Nat.zero_le _) []
    rw [if_pos hle]
    cases hrun : replaceAllLoop s needle 1
      (fun pre post out => expandUnits t needle pre post out) (s.length + 1) 0 [] with
    | none =>
      rw [hrun] at hloop
      exact hloop
    | some r =>
      rw [hrun] at hloop
      exact (finishReplace_eq s r).trans hloop
  · have hneedle := List.length_pos_of_ne_nil hne
    rw [if_neg hle, replaceAllFrom_of_short (by omega) (by omega)]
    exact finishReplace_eq s (0, [])

end ReplaceAll

/-! ### The exact condition -/

/-- **A template is expanded as by `GetSubstitution`, for every subject and needle, exactly where
it reads true**: where no unit from outside Latin-1 is taken for a character of a reference. -/
theorem expandsExactly_iff {stride : ℕ} {template : List ℕ} (h : IsStr stride template) :
    ExpandsExactly stride template ↔ TemplateReadsTrue template := by
  have hs := h.stride_eq
  have hpos : 0 < stride := by omega
  constructor
  · intro hexact
    constructor
    · have hdollar := hexact.has_dollar
      rw [templateHasDollar_encode h] at hdollar
      by_cases hmem : 0x24 ∈ template
      · exact Or.inl hmem
      · exact Or.inr fun u hu hlow => hmem (hdollar.mp ⟨u, hu, hlow⟩)
    · rw [← lowReading_eq_iff]
      have hsingle : ∀ a b c, a < 256 → b < 256 → c < 256 →
          (lowReading template).map (Piece.single a b c) =
            (exactReading template).map (Piece.single a b c) := by
        intro a b c ha hb hc
        have hstr : ∀ x, x < 256 → IsStr stride [x] := by
          refine fun x hx => ⟨hs, fun u hu => ?_, show 1 ≤ strMaxLen by decide⟩
          rw [List.mem_singleton.mp hu]
          exact lt_of_lt_of_le hx (Nat.le_self_pow (by omega) 256)
        have hexpand := hexact.expand [a] [b] [c] [] (hstr a ha) (hstr b hb) (hstr c hc)
        rw [expandStrReplacement_encode h] at hexpand
        have hfits : (expandUnits template [a] [b] [c] []).1 = true := by
          by_contra hfalse
          have hlong := appendPieces_false (Bool.eq_false_of_not_eq_true hfalse)
          rw [List.nil_append, ← List.flatMap, flatMap_expand_single, List.length_map] at hlong
          have := length_readTemplate_le (· % 256) template
          have := h.length_le
          rw [lowReading] at hlong
          omega
        dsimp only [Prod.map, id] at hexpand
        rw [if_pos hfits] at hexpand
        have hunits := encodeUnits_inj hs hexpand
        rw [expandUnits, appendPieces_true hfits, List.nil_append, List.nil_append,
          getSubstitution_eq, ← List.flatMap, flatMap_expand_single, flatMap_expand_single]
          at hunits
        exact hunits
      exact eq_of_map_single (hsingle 1 2 3 (by norm_num) (by norm_num) (by norm_num))
        (hsingle 4 5 6 (by norm_num) (by norm_num) (by norm_num))
  · rintro ⟨hdollar, htrue⟩
    have hreading := (lowReading_eq_iff template).mpr htrue
    refine ⟨?_, ?_, ?_, ?_⟩
    · rw [templateHasDollar_encode h]
      constructor
      · rintro ⟨u, hu, hlow⟩
        rcases hdollar with hmem | hnone
        · exact hmem
        · exact absurd hlow (hnone u hu)
      · exact fun hmem => ⟨0x24, hmem, rfl⟩
    · intro matched pre post out _ _ _
      rw [expandStrReplacement_encode h]
      dsimp only [Prod.map, id]
      split_ifs with hfits
      · rw [expandUnits_true hreading hfits]
      · exact expandUnits_false hreading (Bool.eq_false_of_not_eq_true hfits)
    · intro s needle _ _ hne
      rw [replaceAllWithSubstitution_encode h hne]
      have hspec := replaceAllUnits_spec (s := s) hreading hne
      cases hrun : replaceAllUnits s needle template with
      | none =>
        rw [hrun] at hspec
        exact hspec
      | some result =>
        rw [hrun] at hspec
        exact congrArg _ hspec
    · intro hlatin1 s needle _ _ hne
      have hwide : IsStr 2 template :=
        ⟨Or.inr rfl, fun u hu => lt_trans (hlatin1.fits u hu) (by norm_num), h.length_le⟩
      exact ⟨_, replaceAllWithSubstitution_encode hlatin1 hne,
        replaceAllWithSubstitution_encode hwide hne⟩

/-- The template `$&`. -/
theorem expandsExactly_iff_match :
    IsStr 1 [0x24, 0x26] ∧
      (ExpandsExactly 1 [0x24, 0x26] ↔ TemplateReadsTrue [0x24, 0x26]) := by
  have hstr : IsStr 1 [0x24, 0x26] := by
    refine ⟨Or.inl rfl, fun u hu => ?_, by decide⟩
    simp only [List.mem_cons, List.not_mem_nil, or_false] at hu
    rcases hu with rfl | rfl <;> norm_num
  exact ⟨hstr, expandsExactly_iff hstr⟩

/-- `Ĥ` is taken for a `$`: `"abc".replace("b", "Ĥ&")` gives `abc` and not `aĤ&c`. -/
theorem expandStrReplacement_hCircumflex :
    expandStrReplacement (encodeUnits 2 [0x124, 0x26]) (encodeUnits 2 [0x62])
        (encodeUnits 2 [0x61]) (encodeUnits 2 [0x63]) 2 [] = (true, encodeUnits 2 [0x62]) ∧
      getSubstitution [0x62] [0x61] [0x63] [0x124, 0x26] = [0x124, 0x26] ∧
      ¬ ExpandsExactly 2 [0x124, 0x26] := by
  refine ⟨by decide, rfl, fun hexact => ?_⟩
  have hmem := hexact.has_dollar.mp (by decide)
  exact absurd hmem (by decide)

end Torajs.Str
