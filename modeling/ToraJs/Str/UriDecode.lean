import ToraJs.Str.Uri
import ToraJs.Wtf8.Sequence

/-!
# What the decoder reads

At a percent sign the decoder takes exactly the runs of escapes that spell the UTF-8 bytes of a
character, so that it decodes exactly the strings made of such runs and of other units, and fails
exactly where a run of another kind begins.
-/

namespace Torajs.Uri

open Unicode

/-! ### Octets -/

lemma hexVal_lt {u : UInt16} {h : ℕ} (hu : hexVal u = some h) : h < 16 := by
  rw [hexVal] at hu
  split_ifs at hu with h1 h2 h3
  · obtain rfl := Option.some.inj hu
    omega
  · obtain rfl := Option.some.inj hu
    omega
  · obtain rfl := Option.some.inj hu
    omega

lemma Escaped.append {w w' : List UInt16} {bs bs' : List ℕ} (h : Escaped w bs)
    (h' : Escaped w' bs') : Escaped (w ++ w') (bs ++ bs') := by
  induction h with
  | nil => exact h'
  | cons hp ha hb _ ih => exact Escaped.cons hp ha hb ih

lemma Escaped.length {w : List UInt16} {bs : List ℕ} (h : Escaped w bs) :
    w.length = 3 * bs.length := by
  induction h with
  | nil => rfl
  | cons hp ha hb _ ih =>
    rw [List.length_cons, List.length_cons, List.length_cons, List.length_cons, ih]
    omega

/-- The two halves of an octet. -/
lemma octet_toNat {h1 h2 : ℕ} (h1lt : h1 < 16) (h2lt : h2 < 16) :
    (UInt8.ofNat (h1 <<< 4 ||| h2)).toNat = h1 * 16 + h2 := by
  have hbits : h2 < 2 ^ 4 := h2lt
  rw [UInt8.toNat_ofNat', Wtf8.shiftLeft_or hbits]
  omega

/-- An octet is read exactly where one is spelled. -/
lemma octetAt_eq_some {t r : List UInt16} {o : UInt8} :
    octetAt t = some (o, r) ↔ ∃ w, t = w ++ r ∧ Escaped w [o.toNat] := by
  constructor
  · intro h
    rw [octetAt.eq_def] at h
    split at h
    · rename_i p a b rest
      obtain ⟨hp, h⟩ := Option.ite_none_right_eq_some.mp h
      obtain ⟨h1, hh1, h⟩ := Option.bind_eq_some_iff.mp h
      obtain ⟨h2, hh2, h⟩ := Option.map_eq_some_iff.mp h
      obtain ⟨rfl, rfl⟩ := Prod.mk.inj h
      refine ⟨[p, a, b], rfl, ?_⟩
      rw [octet_toNat (hexVal_lt hh1) (hexVal_lt hh2)]
      exact Escaped.cons hp hh1 hh2 Escaped.nil
    · cases h
  · rintro ⟨w, rfl, h⟩
    generalize hbs : [o.toNat] = bs at h
    cases h with
    | nil => cases hbs
    | @cons p a b h1 h2 w bs hp hh1 hh2 hw =>
      obtain ⟨hvalue, rfl⟩ := List.cons.inj hbs
      cases hw
      have hoctet : UInt8.ofNat (h1 <<< 4 ||| h2) = o := UInt8.toNat_inj.mp (by
        rw [octet_toNat (hexVal_lt hh1) (hexVal_lt hh2), hvalue])
      change (if p.toNat = 0x25 then _ else none) = _
      rw [if_pos hp, hh1, Option.bind_some, hh2, Option.map_some, hoctet]
      rfl

/-- The continuation octets are read exactly where they are spelled. -/
lemma continuations_eq_some {k : ℕ} {t r : List UInt16} {os : List UInt8} :
    continuations k t = some (os, r) ↔ ∃ w, t = w ++ r ∧ Escaped w (os.map UInt8.toNat) ∧
      os.length = k ∧ ∀ o ∈ os, IsTail o.toNat := by
  have hmask : ∀ o : UInt8, (o &&& 0xC0 != 0x80) = true ↔ ¬ IsTail o.toNat := by
    intro o
    rw [Wtf8.tail_mask, Bool.not_eq_true', decide_eq_false_iff_not]
  induction k generalizing t os with
  | zero =>
    rw [continuations]
    constructor
    · intro h
      obtain ⟨rfl, rfl⟩ := Prod.mk.inj (Option.some.inj h)
      exact ⟨[], rfl, Escaped.nil, rfl, (fun o ho => by cases ho)⟩
    · rintro ⟨w, rfl, hw, hlen, -⟩
      obtain rfl := List.length_eq_zero_iff.mp hlen
      cases hw
      rfl
  | succ k ih =>
    rw [continuations, Option.bind_eq_some_iff]
    constructor
    · rintro ⟨⟨o, rest⟩, ho, h⟩
      obtain ⟨w, rfl, hw⟩ := octetAt_eq_some.mp ho
      obtain ⟨htail, h⟩ := Option.ite_none_left_eq_some.mp h
      obtain ⟨⟨os', r'⟩, hrest, h⟩ := Option.map_eq_some_iff.mp h
      obtain ⟨rfl, rfl⟩ := Prod.mk.inj h
      obtain ⟨w', hw', hesc, hlen, htails⟩ := ih.mp hrest
      dsimp only at hw'
      refine ⟨w ++ w', by rw [hw', List.append_assoc], hw.append hesc, by
        rw [List.length_cons, hlen], fun x hx => ?_⟩
      rcases List.mem_cons.mp hx with rfl | hx
      · exact not_not.mp ((hmask _).not.mp htail)
      · exact htails x hx
    · rintro ⟨w, rfl, hw, hlen, htails⟩
      cases os with
      | nil => cases hlen
      | cons o os =>
        have htail := htails o List.mem_cons_self
        generalize hbs : (o :: os).map UInt8.toNat = bs at hw
        cases hw with
        | nil => cases hbs
        | @cons p a b h1 h2 w bs hp hh1 hh2 hw =>
          obtain ⟨hvalue, rfl⟩ := List.cons.inj hbs
          have hread : octetAt ([p, a, b] ++ (w ++ r)) = some (o, w ++ r) :=
            octetAt_eq_some.mpr ⟨[p, a, b], rfl, by
              rw [hvalue]
              exact Escaped.cons hp hh1 hh2 Escaped.nil⟩
          have hcont : continuations k (w ++ r) = some (os, r) :=
            ih.mpr ⟨w, rfl, hw, Nat.succ.inj hlen,
              fun x hx => htails x (List.mem_cons_of_mem _ hx)⟩
          refine ⟨(o, w ++ r), hread, ?_⟩
          dsimp only
          rw [if_neg ((hmask o).not.mpr (not_not.mpr htail)), hcont]
          rfl

/-! ### The check of the library -/

lemma fromUtf8From_eq_some {n : ℕ} {bytes cps : List ℕ} (hn : bytes.length ≤ n) :
    fromUtf8From n bytes = some cps ↔ bytes = cps.flatMap enc ∧ ∀ c ∈ cps, IsScalar c := by
  have hnil : ∀ {cps : List ℕ}, some [] = some cps ↔
      [] = cps.flatMap enc ∧ ∀ c ∈ cps, IsScalar c := by
    intro cps
    constructor
    · intro h
      obtain rfl := Option.some.inj h
      exact ⟨rfl, (fun c hc => by cases hc)⟩
    · rintro ⟨h, -⟩
      cases cps with
      | nil => rfl
      | cons c cps => exact absurd (List.append_eq_nil_iff.mp h.symm).1 (enc_ne_nil c)
  induction n generalizing bytes cps with
  | zero =>
    obtain rfl := List.length_eq_zero_iff.mp (Nat.le_zero.mp hn)
    rw [fromUtf8From]
    exact hnil
  | succ n ih =>
    cases bytes with
    | nil =>
      rw [fromUtf8From]
      exact hnil
    | cons b bytes =>
      rw [fromUtf8From, Option.bind_eq_some_iff]
      have hshort : ∀ {c : ℕ} {r : List ℕ}, b :: bytes = enc c ++ r → r.length ≤ n := by
        intro c r h
        have hlen := congrArg List.length h
        have hpos := List.length_pos_of_ne_nil (enc_ne_nil c)
        rw [List.length_append] at hlen
        omega
      constructor
      · rintro ⟨⟨c, r⟩, hread, h⟩
        obtain ⟨hc, hsplit⟩ := readPoint_eq_some.mp hread
        obtain ⟨hscalar, h⟩ := Option.ite_none_right_eq_some.mp h
        obtain ⟨cps', hrest, rfl⟩ := Option.map_eq_some_iff.mp h
        obtain ⟨hr, hall⟩ := (ih (hshort hsplit)).mp hrest
        refine ⟨by rw [hsplit, List.flatMap_cons, ← hr], fun x hx => ?_⟩
        rcases List.mem_cons.mp hx with rfl | hx
        · exact hscalar
        · exact hall x hx
      · rintro ⟨h, hall⟩
        cases cps with
        | nil => cases h
        | cons c cps =>
          have hscalar := hall c List.mem_cons_self
          rw [List.flatMap_cons] at h
          refine ⟨(c, cps.flatMap enc), readPoint_eq_some.mpr ⟨hscalar.1, h⟩, ?_⟩
          rw [if_pos hscalar, (ih (hshort h)).mpr ⟨rfl, fun x hx => hall x
            (List.mem_cons_of_mem _ hx)⟩]
          rfl

/-- **The library accepts exactly the UTF-8 bytes of characters.** -/
theorem fromUtf8_eq_some {bytes : List UInt8} {cps : List ℕ} : fromUtf8 bytes = some cps ↔
    bytes.map UInt8.toNat = cps.flatMap enc ∧ ∀ c ∈ cps, IsScalar c :=
  fromUtf8From_eq_some (List.length_map _).le

/-! ### One run of escapes -/

/-- The leading ones of an octet that leads a sequence are its length. -/
lemma leadingOnes_eq {b : UInt8} (hlow : 0xC0 ≤ b.toNat) (hhigh : b.toNat < 0xF8) :
    leadingOnes b = leadLength b.toNat := by
  have hall : ∀ x < 256, 0xC0 ≤ x → x < 0xF8 → leadingOnes (UInt8.ofNat x) = leadLength x := by
    decide +kernel
  have hb := hall b.toNat (UInt8.toNat_lt b) hlow hhigh
  rwa [UInt8.ofNat_toNat] at hb

/-- The bytes of a character above ASCII. -/
lemma exists_lead {cp : ℕ} (hcp : cp ≤ 0x10FFFF) (hlarge : 0x80 ≤ cp) :
    ∃ a tail, enc cp = a :: tail ∧ 0xC0 ≤ a ∧ a < 0xF8 ∧ tail.length + 1 = leadLength a ∧
      2 ≤ leadLength a ∧ leadLength a ≤ 4 ∧ (∀ x ∈ tail, IsTail x) := by
  have hform := form_enc hcp
  obtain ⟨a, tail, heq, hlen⟩ := hform.length
  have htails : ∀ x ∈ tail, IsTail x := fun x hx =>
    isTail_of_mem_tail (by rw [heq]; exact hx)
  rw [heq] at hlen
  refine ⟨a, tail, heq, ?_⟩
  have hbounds : 0xC0 ≤ a ∧ a < 0xF8 := by
    rw [enc, if_neg (Nat.not_lt.mpr hlarge)] at heq
    split_ifs at heq
    · obtain ⟨rfl, -⟩ := List.cons.inj heq
      constructor <;> omega
    · obtain ⟨rfl, -⟩ := List.cons.inj heq
      constructor <;> omega
    · obtain ⟨rfl, -⟩ := List.cons.inj heq
      constructor <;> omega
  refine ⟨hbounds.1, hbounds.2, hlen, ?_, ?_, htails⟩
  · rw [leadLength]
    split_ifs <;> omega
  · rw [leadLength]
    split_ifs <;> omega

/-- What the decoder writes for a run of escapes. -/
def written (component : Bool) (w : List UInt16) (cp : ℕ) : List UInt16 :=
  if !component && (decide (cp < 0x80) && isReservedOrHash (UInt8.ofNat cp)) then w
  else writeUnits cp

lemma written_eq (component : Bool) (w : List UInt16) (cp : ℕ) :
    (Kept component cp → written component w cp = w) ∧
      (¬ Kept component cp → written component w cp = writeUnits cp) := by
  have hiff : (!component && (decide (cp < 0x80) && isReservedOrHash (UInt8.ofNat cp))) = true ↔
      Kept component cp := by
    rw [Kept, Bool.and_eq_true, Bool.and_eq_true, Bool.not_eq_true', decide_eq_true_iff]
  exact ⟨fun h => if_pos (hiff.mpr h), fun h => if_neg (hiff.not.mpr h)⟩

/-- **At a percent sign exactly the escaped characters are read.** -/
theorem decodeEscape_eq_some {component : Bool} {t o r : List UInt16} :
    decodeEscape component t = some (o, r) ↔
      ∃ w cp, t = w ++ r ∧ EscapedChar w cp ∧ o = written component w cp := by
  have hbyte : ∀ b : UInt8, b < 0x80 ↔ b.toNat < 0x80 := fun b => UInt8.lt_iff_toNat_lt
  have hwrite : ∀ b : UInt8, b.toNat < 0x80 → writeUnits b.toNat = [b.toUInt16] := by
    intro b hb
    have hsmall : b.toNat ≤ 0xFFFF := by omega
    have hunit : UInt16.ofNat b.toNat = b.toUInt16 := UInt16.toNat_inj.mp (by
      rw [UInt16.toNat_ofNat', UInt8.toNat_toUInt16, Nat.mod_eq_of_lt (by omega)])
    rw [writeUnits, if_pos hsmall, hunit]
  have hkept : ∀ (b : UInt8) (w : List UInt16), b.toNat < 0x80 →
      written component w b.toNat =
        if !component && isReservedOrHash b then w else [b.toUInt16] := by
    intro b w hb
    rw [written, decide_eq_true hb, Bool.true_and, UInt8.ofNat_toNat, hwrite b hb]
  rw [decodeEscape, Option.bind_eq_some_iff]
  constructor
  · rintro ⟨⟨b, rest⟩, hb, h⟩
    obtain ⟨w, rfl, hw⟩ := octetAt_eq_some.mp hb
    dsimp only at h
    by_cases hascii : b < 0x80
    · have hsmall := (hbyte b).mp hascii
      have hlen : w.length = 3 := hw.length
      have htake : (w ++ rest).take 3 = w := by rw [← hlen, List.take_left]
      have hchar : EscapedChar w b.toNat := by
        refine ⟨⟨by omega, fun hh => ?_, fun hl => ?_⟩, ?_⟩
        · have := hh.1
          omega
        · have := hl.1
          omega
        · rwa [enc, if_pos hsmall]
      rw [if_pos hascii, htake] at h
      refine ⟨w, b.toNat, ?_, hchar, ?_⟩
      · split_ifs at h
        · rw [(Prod.mk.inj (Option.some.inj h)).2]
        · rw [(Prod.mk.inj (Option.some.inj h)).2]
      · rw [hkept b w hsmall]
        split_ifs at h ⊢
        · exact (Prod.mk.inj (Option.some.inj h)).1.symm
        · exact (Prod.mk.inj (Option.some.inj h)).1.symm
    · rw [if_neg hascii] at h
      obtain ⟨hn, h⟩ := Option.ite_none_left_eq_some.mp h
      obtain ⟨⟨os, r'⟩, hos, h⟩ := Option.bind_eq_some_iff.mp h
      obtain ⟨w', hw', hesc, hlen, htails⟩ := continuations_eq_some.mp hos
      dsimp only at h
      split at h
      · rename_i c hutf8
        obtain ⟨rfl, rfl⟩ := Prod.mk.inj (Option.some.inj h)
        obtain ⟨hbytes, hscalar⟩ := fromUtf8_eq_some.mp hutf8
        have hlarge : ¬ c < 0x80 := by
          intro hsmall
          rw [List.flatMap_singleton, enc, if_pos hsmall, List.map_cons] at hbytes
          obtain ⟨rfl, -⟩ := List.cons.inj hbytes
          exact hascii ((hbyte b).mpr hsmall)
        rw [List.flatMap_singleton] at hbytes
        refine ⟨w ++ w', c, by rw [hw', List.append_assoc],
          ⟨hscalar c (List.mem_singleton.mpr rfl), ?_⟩, ?_⟩
        · rw [← hbytes]
          exact hw.append hesc
        · exact ((written_eq component _ c).2 fun hk => hlarge hk.2.1).symm
      · cases h
  · rintro ⟨w, cp, rfl, ⟨hscalar, hw⟩, rfl⟩
    by_cases hsmall : cp < 0x80
    · rw [enc, if_pos hsmall] at hw
      have hcp : (UInt8.ofNat cp).toNat = cp := by
        rw [UInt8.toNat_ofNat', Nat.mod_eq_of_lt (by omega)]
      have hlen : w.length = 3 := hw.length
      have htake : (w ++ r).take 3 = w := by rw [← hlen, List.take_left]
      refine ⟨(UInt8.ofNat cp, r), octetAt_eq_some.mpr ⟨w, rfl, by rwa [hcp]⟩, ?_⟩
      have hwritten := hkept (UInt8.ofNat cp) w (by rwa [hcp])
      rw [hcp] at hwritten
      dsimp only
      rw [if_pos ((hbyte _).mpr (by rwa [hcp])), htake, hwritten]
      split_ifs <;> rfl
    · have hlarge := Nat.not_lt.mp hsmall
      obtain ⟨a, tail, henc, hlow, hhigh, hlen, htwo, hfour, htails⟩ := exists_lead hscalar.1 hlarge
      rw [henc] at hw
      have ha : (UInt8.ofNat a).toNat = a := by
        rw [UInt8.toNat_ofNat', Nat.mod_eq_of_lt (by omega)]
      have hback : (tail.map UInt8.ofNat).map UInt8.toNat = tail := by
        rw [List.map_map]
        refine (List.map_congr_left fun x hx => ?_).trans (List.map_id _)
        have hx' := (htails x hx).2
        change (UInt8.ofNat x).toNat = x
        rw [UInt8.toNat_ofNat', Nat.mod_eq_of_lt (by omega)]
      generalize hbs : a :: tail = bs at hw
      cases hw with
      | nil => cases hbs
      | @cons p x y h1 h2 w bs hp hh1 hh2 hw =>
        obtain ⟨hvalue, rfl⟩ := List.cons.inj hbs
        have hread : octetAt ([p, x, y] ++ (w ++ r)) = some (UInt8.ofNat a, w ++ r) :=
          octetAt_eq_some.mpr ⟨[p, x, y], rfl, by
            rw [ha, hvalue]
            exact Escaped.cons hp hh1 hh2 Escaped.nil⟩
        have hones : leadingOnes (UInt8.ofNat a) = leadLength a := by
          rw [leadingOnes_eq (by omega) (by omega), ha]
        have hcont : continuations (leadLength a - 1) (w ++ r) =
            some (tail.map UInt8.ofNat, r) := by
          refine continuations_eq_some.mpr ⟨w, rfl, by rwa [hback], ?_, fun z hz => ?_⟩
          · rw [List.length_map]
            omega
          · refine htails _ ?_
            rw [← hback]
            exact List.mem_map_of_mem hz
        have hutf8 : fromUtf8 (UInt8.ofNat a :: tail.map UInt8.ofNat) = some [cp] := by
          refine fromUtf8_eq_some.mpr ⟨?_, fun c hc => ?_⟩
          · rw [List.map_cons, hback, ha, List.flatMap_singleton, henc]
          · rw [List.mem_singleton.mp hc]
            exact hscalar
        refine ⟨(UInt8.ofNat a, w ++ r), hread, ?_⟩
        have hascii : ¬ UInt8.ofNat a < 0x80 := fun h => by
          have := (hbyte _).mp h
          omega
        dsimp only
        rw [if_neg hascii, hones, if_neg (not_not.mpr ⟨htwo, hfour⟩), hcont, Option.bind_some]
        dsimp only
        rw [hutf8, (written_eq component _ cp).2 fun hk => hsmall hk.2.1]

end Torajs.Uri
