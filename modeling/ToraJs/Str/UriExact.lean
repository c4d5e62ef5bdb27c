import ToraJs.Str.UriDecode

/-!
# Encoding and decoding are inverse

The decoder's loop reads a string from the left as units and escaped characters and fails where
neither begins; the encoder fails exactly on lone surrogates, and what it writes is read back as the
string.
-/

namespace Torajs.Uri

open Unicode

variable {component : Bool}

/-! ### The loop of the decoder -/

lemma EscapedChar.ne_nil {w : List UInt16} {cp : ℕ} (h : EscapedChar w cp) : 0 < w.length := by
  rw [h.2.length]
  have := List.length_pos_of_ne_nil (enc_ne_nil cp)
  omega

/-- A run of escapes starts with a percent sign. -/
lemma EscapedChar.head {w : List UInt16} {cp : ℕ} (h : EscapedChar w cp) :
    ∃ p w', w = p :: w' ∧ p.toNat = 0x25 := by
  have hpos := h.ne_nil
  obtain ⟨-, h⟩ := h
  generalize enc cp = bs at h
  cases h with
  | nil => exact absurd hpos (lt_irrefl _)
  | cons hp _ _ _ => exact ⟨_, _, rfl, hp⟩

/-- More fuel than units changes nothing. -/
lemma decodeFrom_eq {n : ℕ} {t : List UInt16} (hn : t.length ≤ n) :
    decodeFrom component n t = decodeUnits component t := by
  have hrun : ∀ (k : ℕ) (t : List UInt16), t.length ≤ k → ∀ n m, t.length ≤ n → t.length ≤ m →
      decodeFrom component n t = decodeFrom component m t := by
    intro k
    induction k with
    | zero =>
      intro t ht n m _ _
      obtain rfl := List.length_eq_zero_iff.mp (Nat.le_zero.mp ht)
      rw [decodeFrom, decodeFrom]
    | succ k ih =>
      intro t ht n m hn hm
      cases t with
      | nil => rw [decodeFrom, decodeFrom]
      | cons u t =>
        rw [List.length_cons] at ht hn hm
        obtain ⟨n, rfl⟩ : ∃ n', n = n' + 1 := ⟨n - 1, by omega⟩
        obtain ⟨m, rfl⟩ : ∃ m', m = m' + 1 := ⟨m - 1, by omega⟩
        rw [decodeFrom, decodeFrom]
        split_ifs with hunit
        · rw [ih t (by omega) n m (by omega) (by omega)]
        · cases hesc : decodeEscape component (u :: t) with
          | none => rfl
          | some r =>
            obtain ⟨o, rest⟩ := r
            obtain ⟨w, cp, hsplit, hchar, -⟩ := decodeEscape_eq_some.mp hesc
            have hlen := congrArg List.length hsplit
            have hpos := hchar.ne_nil
            rw [List.length_append, List.length_cons] at hlen
            rw [Option.bind_some, Option.bind_some,
              ih rest (by omega) n m (by omega) (by omega)]
  exact hrun n t hn n t.length hn le_rfl

lemma decodeUnits_unit {u : UInt16} (t : List UInt16) (hu : u.toNat ≠ 0x25) :
    decodeUnits component (u :: t) = (decodeUnits component t).map (u :: ·) := by
  rw [decodeUnits, List.length_cons, decodeFrom, if_pos hu]
  rfl

lemma decodeUnits_escape {u : UInt16} {t : List UInt16} (hu : u.toNat = 0x25) :
    decodeUnits component (u :: t) = (decodeEscape component (u :: t)).bind fun r =>
      (decodeUnits component r.2).map (r.1 ++ ·) := by
  rw [decodeUnits, List.length_cons, decodeFrom, if_neg (not_not.mpr hu)]
  cases hesc : decodeEscape component (u :: t) with
  | none => rfl
  | some r =>
    obtain ⟨o, rest⟩ := r
    obtain ⟨w, cp, hsplit, hchar, -⟩ := decodeEscape_eq_some.mp hesc
    have hlen := congrArg List.length hsplit
    have hpos := hchar.ne_nil
    rw [List.length_append, List.length_cons] at hlen
    have hshort : rest.length ≤ t.length := by omega
    rw [Option.bind_some, Option.bind_some, decodeFrom_eq hshort]

/-- What was read already does not matter for what follows. -/
theorem Decodes.append {p out : List UInt16} (h : Decodes component p out) (rest : List UInt16) :
    decodeUnits component (p ++ rest) = (decodeUnits component rest).map (out ++ ·) := by
  have hescape : ∀ {w t : List UInt16} {cp : ℕ} {o : List UInt16}, EscapedChar w cp →
      o = written component w cp → decodeUnits component (w ++ t) =
        (decodeUnits component t).map (o ++ ·) := by
    intro w t cp o hchar ho
    obtain ⟨u, w', rfl, hu⟩ := hchar.head
    have hread : decodeEscape component (u :: w' ++ t) = some (o, t) :=
      decodeEscape_eq_some.mpr ⟨u :: w', cp, rfl, hchar, ho⟩
    change decodeUnits component (u :: (w' ++ t)) = _
    rw [decodeUnits_escape hu]
    change (decodeEscape component (u :: w' ++ t)).bind _ = _
    rw [hread, Option.bind_some]
  induction h with
  | nil => exact (congrFun Option.map_id _).symm
  | unit hu _ ih =>
    rw [List.cons_append, decodeUnits_unit _ hu, ih, Option.map_map]
    rfl
  | @escaped w t out cp hchar hkept _ ih =>
    rw [List.append_assoc, hescape hchar ((written_eq component w cp).2 hkept).symm, ih,
      Option.map_map]
    exact congrFun (congrArg _ (funext fun x => (List.append_assoc _ _ x).symm)) _
  | @kept w t out cp hchar hkept _ ih =>
    rw [List.append_assoc, hescape hchar ((written_eq component w cp).1 hkept).symm, ih,
      Option.map_map]
    exact congrFun (congrArg _ (funext fun x => (List.append_assoc _ _ x).symm)) _

/-- **What the decoder accepts**, and what it makes of it. -/
theorem decodeUnits_eq_some {t out : List UInt16} :
    decodeUnits component t = some out ↔ Decodes component t out := by
  constructor
  · have hrun : ∀ (k : ℕ) (t out : List UInt16), t.length ≤ k →
        decodeUnits component t = some out → Decodes component t out := by
      intro k
      induction k with
      | zero =>
        intro t out ht h
        obtain rfl := List.length_eq_zero_iff.mp (Nat.le_zero.mp ht)
        obtain rfl := Option.some.inj h
        exact Decodes.nil
      | succ k ih =>
        intro t out ht h
        cases t with
        | nil =>
          obtain rfl := Option.some.inj h
          exact Decodes.nil
        | cons u t =>
          rw [List.length_cons] at ht
          by_cases hu : u.toNat = 0x25
          · rw [decodeUnits_escape hu] at h
            obtain ⟨⟨o, rest⟩, hesc, h⟩ := Option.bind_eq_some_iff.mp h
            obtain ⟨out', hrest, rfl⟩ := Option.map_eq_some_iff.mp h
            obtain ⟨w, cp, hsplit, hchar, rfl⟩ := decodeEscape_eq_some.mp hesc
            have hlen := congrArg List.length hsplit
            have hpos := hchar.ne_nil
            rw [List.length_append, List.length_cons] at hlen
            have hdecodes := ih rest out' (by omega) hrest
            rw [hsplit]
            by_cases hkept : Kept component cp
            · rw [(written_eq component w cp).1 hkept]
              exact Decodes.kept hchar hkept hdecodes
            · rw [(written_eq component w cp).2 hkept]
              exact Decodes.escaped hchar hkept hdecodes
          · rw [decodeUnits_unit t hu] at h
            obtain ⟨out', hrest, rfl⟩ := Option.map_eq_some_iff.mp h
            exact Decodes.unit hu (ih t out' (by omega) hrest)
    exact hrun t.length t out le_rfl
  · intro h
    have happend := h.append []
    rw [List.append_nil] at happend
    rw [happend]
    exact congrArg some (List.append_nil out)

/-- An escaped character is spelled with two hex digits behind the percent sign. -/
lemma EscapedChar.two_hex {w r : List UInt16} {cp : ℕ} (h : EscapedChar w cp) :
    ∃ p a b r', w ++ r = p :: a :: b :: r' ∧ (hexVal a).isSome ∧ (hexVal b).isSome := by
  have hpos := h.ne_nil
  obtain ⟨-, h⟩ := h
  generalize enc cp = bs at h
  cases h with
  | nil => exact absurd hpos (lt_irrefl _)
  | cons hp ha hb hw =>
    exact ⟨_, _, _, _, rfl, Option.isSome_iff_exists.mpr ⟨_, ha⟩,
      Option.isSome_iff_exists.mpr ⟨_, hb⟩⟩

/-- **Where the decoder fails**: at a percent sign that it comes to, and that no two hex digits
follow or no escaped character begins with. -/
theorem decodeUnits_eq_none {t : List UInt16} : decodeUnits component t = none ↔
    ∃ p out u rest, t = p ++ u :: rest ∧ Decodes component p out ∧ u.toNat = 0x25 ∧
      ((¬ ∃ a b r, rest = a :: b :: r ∧ (hexVal a).isSome ∧ (hexVal b).isSome) ∨
        ¬ ∃ w cp r, u :: rest = w ++ r ∧ EscapedChar w cp) := by
  constructor
  · have hrun : ∀ (k : ℕ) (t : List UInt16), t.length ≤ k → decodeUnits component t = none →
        ∃ p out u rest, t = p ++ u :: rest ∧ Decodes component p out ∧ u.toNat = 0x25 ∧
          ¬ ∃ w cp r, u :: rest = w ++ r ∧ EscapedChar w cp := by
      intro k
      induction k with
      | zero =>
        intro t ht h
        obtain rfl := List.length_eq_zero_iff.mp (Nat.le_zero.mp ht)
        cases h
      | succ k ih =>
        intro t ht h
        cases t with
        | nil => cases h
        | cons u t =>
          rw [List.length_cons] at ht
          by_cases hu : u.toNat = 0x25
          · rw [decodeUnits_escape hu] at h
            cases hesc : decodeEscape component (u :: t) with
            | none =>
              refine ⟨[], [], u, t, rfl, Decodes.nil, hu, ?_⟩
              rintro ⟨w, cp, r, hsplit, hchar⟩
              rw [decodeEscape_eq_some.mpr ⟨w, cp, hsplit, hchar, rfl⟩] at hesc
              cases hesc
            | some r =>
              obtain ⟨o, rest⟩ := r
              rw [hesc, Option.bind_some, Option.map_eq_none_iff] at h
              obtain ⟨w, cp, hsplit, hchar, -⟩ := decodeEscape_eq_some.mp hesc
              have hlen := congrArg List.length hsplit
              have hpos := hchar.ne_nil
              rw [List.length_append, List.length_cons] at hlen
              have hshort : rest.length ≤ k := by omega
              obtain ⟨p, out, v, rest', hrest, hp, hv, hbad⟩ := ih rest hshort h
              have hsplit' : u :: t = w ++ p ++ v :: rest' := by
                rw [hsplit, List.append_assoc, ← hrest]
              by_cases hkept : Kept component cp
              · exact ⟨w ++ p, _, v, rest', hsplit', Decodes.kept hchar hkept hp, hv, hbad⟩
              · exact ⟨w ++ p, _, v, rest', hsplit', Decodes.escaped hchar hkept hp, hv, hbad⟩
          · rw [decodeUnits_unit t hu, Option.map_eq_none_iff] at h
            obtain ⟨p, out, v, rest', rfl, hp, hv, hbad⟩ := ih t (by omega) h
            exact ⟨u :: p, u :: out, v, rest', rfl, Decodes.unit hu hp, hv, hbad⟩
    intro h
    obtain ⟨p, out, u, rest, hsplit, hp, hu, hbad⟩ := hrun t.length t le_rfl h
    exact ⟨p, out, u, rest, hsplit, hp, hu, Or.inr hbad⟩
  · rintro ⟨p, out, u, rest, rfl, hp, hu, hbad⟩
    rw [hp.append, Option.map_eq_none_iff, decodeUnits_escape hu]
    cases hesc : decodeEscape component (u :: rest) with
    | none => rfl
    | some r =>
      obtain ⟨o, r⟩ := r
      obtain ⟨w, cp, hsplit, hchar, -⟩ := decodeEscape_eq_some.mp hesc
      rcases hbad with hbad | hbad
      · obtain ⟨q, a, b, r', heq, ha, hb⟩ := hchar.two_hex (r := r)
        rw [← hsplit] at heq
        exact absurd ⟨a, b, r', (List.cons.inj heq).2, ha, hb⟩ hbad
      · exact absurd ⟨w, cp, r, hsplit, hchar⟩ hbad

/-! ### The encoder -/

/-- The digits the encoder writes are read back. -/
lemma hexVal_hexUpper {n : ℕ} (hn : n < 16) : hexVal (hexUpper n).toUInt16 = some n := by
  have hall : ∀ n < 16, hexVal (hexUpper n).toUInt16 = some n := by decide
  exact hall n hn

/-- The escapes of some bytes spell them. -/
lemma escaped_bytes (bs : List UInt8) :
    Escaped (latin1Units (bs.flatMap fun b =>
      [0x25, hexUpper (b.toNat >>> 4), hexUpper (b.toNat &&& 0xF)])) (bs.map UInt8.toNat) := by
  induction bs with
  | nil => exact Escaped.nil
  | cons b bs ih =>
    have hb := UInt8.toNat_lt b
    have hhigh : b.toNat >>> 4 = b.toNat / 16 := Nat.shiftRight_eq_div_pow _ 4
    have hlow : b.toNat &&& 0xF = b.toNat % 16 := Nat.and_two_pow_sub_one_eq_mod _ 4
    have hvalue : b.toNat >>> 4 * 16 + (b.toNat &&& 0xF) = b.toNat := by omega
    have hdigit : hexVal (hexUpper (b.toNat >>> 4)).toUInt16 = some (b.toNat >>> 4) :=
      hexVal_hexUpper (by omega)
    have hdigit' : hexVal (hexUpper (b.toNat &&& 0xF)).toUInt16 = some (b.toNat &&& 0xF) :=
      hexVal_hexUpper (by omega)
    have hspelled := Escaped.cons (p := 0x25) rfl hdigit hdigit' ih
    rw [hvalue] at hspelled
    exact hspelled

/-- **A character is escaped as its bytes**; a surrogate is not escaped. -/
lemma escape_eq_some {cp : ℕ} (h : IsScalar cp) :
    ∃ out, escape cp = some out ∧ EscapedChar (latin1Units out) cp := by
  have hbytes : ((enc cp).map UInt8.ofNat).map UInt8.toNat = enc cp := by
    have henc := Wtf8.encodeCp_toNat h.1
    rw [← henc, List.map_map, List.map_map]
    refine List.map_congr_left fun b _ => ?_
    change (UInt8.ofNat b.toNat).toNat = b.toNat
    rw [UInt8.ofNat_toNat]
  refine ⟨_, by rw [escape, encodeUtf8, if_pos h, Option.map_some], h, ?_⟩
  have hspelled := escaped_bytes ((enc cp).map UInt8.ofNat)
  rwa [hbytes] at hspelled

/-- The units the encoder copies are neither the percent sign nor kept as escapes. -/
lemma isCopied_spec {unit : ℕ} :
    (isCopied component unit = true → unit < 0x80 ∧ unit ≠ 0x25) ∧
      (isCopied component unit = false → ¬ Kept component unit) := by
  constructor
  · intro h
    rw [isCopied, Bool.and_eq_true, decide_eq_true_iff] at h
    refine ⟨h.1, ?_⟩
    rintro rfl
    have hpercent : (isUnescapedComponent (UInt8.ofNat 0x25) ||
        (!component && isReservedOrHash (UInt8.ofNat 0x25))) = false := by
      cases component <;> decide
    rw [hpercent] at h
    exact absurd h.2 Bool.false_ne_true
  · rintro h ⟨rfl, hsmall, hreserved⟩
    rw [isCopied, decide_eq_true hsmall, hreserved, Bool.not_false, Bool.true_and, Bool.true_and,
      Bool.or_true] at h
    cases h

lemma not_isHigh_of_ne {u : ℕ} (h : ¬ (0xD800 ≤ u ∧ u ≤ 0xDBFF)) : ¬ IsHigh u :=
  fun hu => h ⟨hu.1, Nat.le_of_lt_succ hu.2⟩

lemma writeUnits_small {u : UInt16} : writeUnits u.toNat = [u] := by
  have hu := UInt16.toNat_lt u
  have hsmall : u.toNat ≤ 0xFFFF := Nat.le_of_lt_succ hu
  rw [writeUnits, if_pos hsmall, UInt16.ofNat_toNat]

/-- The code point the encoder makes of a pair. -/
lemma pairCp_eq (hi lo : ℕ) :
    0x10000 + (hi - 0xD800) <<< 10 + (lo - 0xDC00) = joinPair hi lo := by
  rw [Nat.shiftLeft_eq]
  rfl

lemma writeUnits_pair {hi lo : UInt16} (hhi : IsHigh hi.toNat) (hlo : IsLow lo.toNat) :
    writeUnits (joinPair hi.toNat lo.toNat) = [hi, lo] := by
  have hunits := units_joinPair hhi hlo
  have hlarge := (joinPair_bounds hhi hlo).1
  generalize joinPair hi.toNat lo.toNat = cp at hunits hlarge
  rw [units, if_neg (Nat.not_lt.mpr hlarge)] at hunits
  obtain ⟨hhigh, htail⟩ := List.cons.inj hunits
  obtain ⟨hlow, -⟩ := List.cons.inj htail
  have hno : ¬ cp ≤ 0xFFFF := by omega
  have hdiv : (cp - 0x10000) >>> 10 = (cp - 0x10000) / 1024 := Nat.shiftRight_eq_div_pow _ 10
  have hmod : (cp - 0x10000) &&& 0x3FF = (cp - 0x10000) % 1024 :=
    Nat.and_two_pow_sub_one_eq_mod _ 10
  rw [writeUnits, if_neg hno]
  dsimp only
  rw [hdiv, hmod, hhigh, hlow, UInt16.ofNat_toNat, UInt16.ofNat_toNat]

/-- The encoder on a string: it fails where a surrogate is lone, and else what it writes decodes
to the string. -/
def Encodes (component : Bool) (s : List UInt16) (r : Option (List UInt8)) : Prop :=
  (LoneSurrogate (s.map UInt16.toNat) ∧ r = none) ∨
    (¬ LoneSurrogate (s.map UInt16.toNat) ∧
      ∃ out, r = some out ∧ Decodes component (latin1Units out) s)

/-- What is put before the rest of a string without making a surrogate lone. -/
lemma Encodes.map {s rest : List UInt16} {r : Option (List UInt8)} (h : Encodes component rest r)
    (hlone : LoneSurrogate (s.map UInt16.toNat) ↔ LoneSurrogate (rest.map UInt16.toNat))
    (f : List UInt8 → List UInt8)
    (hf : ∀ out, Decodes component (latin1Units out) rest →
      Decodes component (latin1Units (f out)) s) : Encodes component s (r.map f) := by
  rcases h with ⟨hbad, rfl⟩ | ⟨hgood, out, rfl, hdecodes⟩
  · exact Or.inl ⟨hlone.mpr hbad, rfl⟩
  · exact Or.inr ⟨hlone.not.mpr hgood, f out, rfl, hf out hdecodes⟩

/-- An escaped code point before the rest. -/
lemma Encodes.escape {s rest w : List UInt16} {r : Option (List UInt8)} {cp : ℕ}
    (h : Encodes component rest r)
    (hlone : LoneSurrogate (s.map UInt16.toNat) ↔ LoneSurrogate (rest.map UInt16.toNat))
    (hs : s = w ++ rest) (hcp : IsScalar cp) (hkept : ¬ Kept component cp)
    (hw : writeUnits cp = w) :
    Encodes component s ((escape cp).bind fun out => r.map (out ++ ·)) := by
  obtain ⟨out, hout, hchar⟩ := escape_eq_some hcp
  rw [hout, Option.bind_some]
  refine h.map hlone _ fun rest' hdecodes => ?_
  rw [latin1Units, List.map_append, hs, ← hw]
  exact Decodes.escaped hchar hkept hdecodes

/-- **What the encoder does.** -/
theorem encodes_encodeUnits (s : List UInt16) :
    Encodes component s (encodeUnits component s) := by
  fun_induction encodeUnits component s with
  | case1 =>
    refine Or.inr ⟨?_, [], rfl, Decodes.nil⟩
    rintro ⟨p, u, r, hsplit, -⟩
    exact absurd hsplit.symm (List.append_ne_nil_of_right_ne_nil _ (List.cons_ne_nil _ _))
  | case2 u rest hcopied ih =>
    obtain ⟨hsmall, hpercent⟩ := isCopied_spec.1 hcopied
    have hhigh : ¬ IsHigh u.toNat := fun h => by
      have := h.1
      omega
    have hlow : ¬ IsLow u.toNat := fun h => by
      have := h.1
      omega
    have hunit : (UInt8.ofNat u.toNat).toUInt16 = u := UInt16.toNat_inj.mp (by
      rw [UInt8.toNat_toUInt16, UInt8.toNat_ofNat', Nat.mod_eq_of_lt (by omega)])
    have hlone : LoneSurrogate ((u :: rest).map UInt16.toNat) ↔
        LoneSurrogate (rest.map UInt16.toNat) :=
      (loneSurrogate_cons hhigh).trans (or_iff_right hlow)
    refine ih.map hlone _ fun out hdecodes => ?_
    rw [latin1Units, List.map_cons, hunit]
    exact Decodes.unit hpercent hdecodes
  | case3 u _ hhigh =>
    exact Or.inl ⟨⟨[], u.toNat, [], rfl, Or.inl ⟨⟨hhigh.1, Nat.lt_succ_of_le hhigh.2⟩,
      (fun l hl => by cases hl)⟩⟩, rfl⟩
  | case4 u _ hhigh lo rest hlo =>
    refine Or.inl ⟨⟨[], u.toNat, (lo :: rest).map UInt16.toNat, rfl,
      Or.inl ⟨⟨hhigh.1, Nat.lt_succ_of_le hhigh.2⟩, fun l hl hlow => ?_⟩⟩, rfl⟩
    obtain rfl := Option.some.inj hl
    exact hlo ⟨hlow.1, Nat.le_of_lt_succ hlow.2⟩
  | case5 u _ hhigh lo rest hlo ih =>
    have hhi : IsHigh u.toNat := ⟨hhigh.1, Nat.lt_succ_of_le hhigh.2⟩
    obtain ⟨hlo, hlo'⟩ := not_not.mp hlo
    have hlow : IsLow lo.toNat := ⟨hlo, Nat.lt_succ_of_le hlo'⟩
    obtain ⟨hlarge, hbound⟩ := joinPair_bounds hhi hlow
    rw [pairCp_eq]
    refine ih.escape (loneSurrogate_pair hhi hlow) (w := [u, lo]) rfl
      ⟨hbound, not_isHigh_joinPair hhi hlow, not_isLow_joinPair hhi hlow⟩ (fun hkept => ?_)
      (writeUnits_pair hhi hlow)
    have := hkept.2.1
    omega
  | case6 u rest _ hhigh hlow =>
    exact Or.inl ⟨(loneSurrogate_cons (not_isHigh_of_ne hhigh)).mpr
      (Or.inl ⟨hlow.1, Nat.lt_succ_of_le hlow.2⟩), rfl⟩
  | case7 u rest hcopied hhigh hlow ih =>
    have hhigh' := not_isHigh_of_ne hhigh
    have hlow' : ¬ IsLow u.toNat := fun h => hlow ⟨h.1, Nat.le_of_lt_succ h.2⟩
    have hu := UInt16.toNat_lt u
    refine ih.escape ((loneSurrogate_cons hhigh').trans (or_iff_right hlow')) (w := [u]) rfl
      ⟨by omega, hhigh', hlow'⟩ (isCopied_spec.2 (Bool.eq_false_iff.mpr hcopied)) writeUnits_small

end Torajs.Uri
