import ToraJs.Wtf8.Buf

/-!
# One sequence of bytes

The encoder writes the bytes of a code point, the decoder reads them back, and the validator takes
exactly the well-formed sequences and knows the surrogates among them.
-/

namespace Torajs.Wtf8

open Unicode

/-! ### The encoder -/

lemma encodeCp_toNat {cp : ℕ} (hcp : cp ≤ 0x10FFFF) :
    (encodeCp cp).map UInt8.toNat = enc cp := by
  have hsame : encodeCp cp = Regex.utf8EncodeCp cp := by
    rw [Regex.utf8EncodeCp, if_neg (Nat.not_lt.mpr hcp)]
    rfl
  rw [hsame, Regex.utf8EncodeCp_toNat hcp, enc]

lemma toNat_injective : Function.Injective (List.map UInt8.toNat) :=
  List.map_injective_iff.mpr fun _ _ h => UInt8.toNat_inj.mp h

/-- The bytes of a string of code points. -/
lemma flatMap_encodeCp_toNat {cps : List ℕ} (hcps : ∀ c ∈ cps, c ≤ 0x10FFFF) :
    (cps.flatMap encodeCp).map UInt8.toNat = cps.flatMap enc := by
  induction cps with
  | nil => rfl
  | cons c cps ih =>
    rw [List.flatMap_cons, List.flatMap_cons, List.map_append,
      encodeCp_toNat (hcps c List.mem_cons_self),
      ih fun d hd => hcps d (List.mem_cons_of_mem _ hd)]

/-- A sequence whose numbers are the bytes of a code point is what the encoder writes. -/
lemma eq_encodeCp_of_form {w : List UInt8} {cp : ℕ} (h : Form (w.map UInt8.toNat) cp) :
    cp ≤ 0x10FFFF ∧ w = encodeCp cp := by
  obtain ⟨hcp, henc⟩ := h.eq_enc
  exact ⟨hcp, toNat_injective (henc.trans (encodeCp_toNat hcp).symm)⟩

lemma form_encodeCp {cp : ℕ} (hcp : cp ≤ 0x10FFFF) : Form ((encodeCp cp).map UInt8.toNat) cp := by
  rw [encodeCp_toNat hcp]
  exact form_enc hcp

/-! ### The decoder -/

/-- Bits set above a payload. -/
lemma shiftLeft_or {x y k : ℕ} (hy : y < 2 ^ k) : x <<< k ||| y = x * 2 ^ k + y := by
  rw [← Nat.shiftLeft_add_eq_or_of_lt hy, Nat.shiftLeft_eq]

/-- The masks of the decoder are remainders. -/
lemma masks (b : UInt8) :
    (b &&& 0x1F).toNat = b.toNat % 32 ∧ (b &&& 0x0F).toNat = b.toNat % 16 ∧
      (b &&& 0x07).toNat = b.toNat % 8 ∧ (b &&& 0x3F).toNat = b.toNat % 64 := by
  obtain ⟨-, -, -, -, h1, h2, h3, h4⟩ := Regex.decode_masks b
  exact ⟨h1, h2, h3, h4⟩

/-- The decoder reads a well-formed sequence as its code point. -/
theorem next_of_form {w tail rest : List UInt8} {lead : UInt8} {cp : ℕ}
    (h : Form (w.map UInt8.toNat) cp) (hw : lead :: rest = w ++ tail) :
    next lead rest = some (cp, tail) := by
  have h80 : lead < 0x80 ↔ lead.toNat < 0x80 := UInt8.lt_iff_toNat_lt
  have hE0 : lead < 0xE0 ↔ lead.toNat < 0xE0 := UInt8.lt_iff_toNat_lt
  have hF0 : lead < 0xF0 ↔ lead.toNat < 0xF0 := UInt8.lt_iff_toNat_lt
  generalize hbs : w.map UInt8.toNat = bs at h
  cases h with
  | @one a ha =>
    obtain ⟨x, rfl, rfl⟩ := List.map_eq_singleton_iff.mp hbs
    obtain ⟨rfl, rfl⟩ := List.cons.inj hw
    rw [next.eq_def, if_pos (h80.mpr ha)]
  | @two a b ha ha' hb =>
    obtain ⟨x, w₁, rfl, rfl, hbs₁⟩ := List.map_eq_cons_iff.mp hbs
    obtain ⟨y, rfl, rfl⟩ := List.map_eq_singleton_iff.mp hbs₁
    obtain ⟨rfl, hrest⟩ := List.cons.inj hw
    obtain ⟨hb, hb'⟩ := hb
    rw [show rest = y :: tail from hrest, next.eq_def, if_neg (h80.not.mpr (by omega)),
      if_pos (hE0.mpr ha')]
    dsimp only
    have hlow : y.toNat % 64 < 2 ^ 6 := Nat.mod_lt _ (by omega)
    rw [(masks lead).1, (masks y).2.2.2, shiftLeft_or hlow]
    exact congrArg (fun n => some (n, tail)) (by omega)
  | @three a b c ha ha' hb hc hlong =>
    obtain ⟨x, w₁, rfl, rfl, hbs₁⟩ := List.map_eq_cons_iff.mp hbs
    obtain ⟨y, w₂, rfl, rfl, hbs₂⟩ := List.map_eq_cons_iff.mp hbs₁
    obtain ⟨z, rfl, rfl⟩ := List.map_eq_singleton_iff.mp hbs₂
    obtain ⟨rfl, hrest⟩ := List.cons.inj hw
    obtain ⟨hb, hb'⟩ := hb
    obtain ⟨hc, hc'⟩ := hc
    rw [show rest = y :: z :: tail from hrest, next.eq_def, if_neg (h80.not.mpr (by omega)),
      if_neg (hE0.not.mpr (by omega)), if_pos (hF0.mpr ha')]
    dsimp only
    have hlow : (z.toNat % 64) < 2 ^ 6 := Nat.mod_lt _ (by omega)
    have hmid : (y.toNat % 64) * 2 ^ 6 + z.toNat % 64 < 2 ^ 12 := by omega
    rw [(masks lead).2.1, (masks y).2.2.2, (masks z).2.2.2, Nat.or_assoc, shiftLeft_or hlow,
      shiftLeft_or hmid]
    exact congrArg (fun n => some (n, tail)) (by omega)
  | @four a b c d ha ha' hb hc hd hlong hhigh =>
    obtain ⟨x, w₁, rfl, rfl, hbs₁⟩ := List.map_eq_cons_iff.mp hbs
    obtain ⟨y, w₂, rfl, rfl, hbs₂⟩ := List.map_eq_cons_iff.mp hbs₁
    obtain ⟨z, w₃, rfl, rfl, hbs₃⟩ := List.map_eq_cons_iff.mp hbs₂
    obtain ⟨t, rfl, rfl⟩ := List.map_eq_singleton_iff.mp hbs₃
    obtain ⟨rfl, hrest⟩ := List.cons.inj hw
    obtain ⟨hb, hb'⟩ := hb
    obtain ⟨hc, hc'⟩ := hc
    obtain ⟨hd, hd'⟩ := hd
    rw [show rest = y :: z :: t :: tail from hrest, next.eq_def, if_neg (h80.not.mpr (by omega)),
      if_neg (hE0.not.mpr (by omega)), if_neg (hF0.not.mpr (by omega))]
    dsimp only
    have hlow : (t.toNat % 64) < 2 ^ 6 := Nat.mod_lt _ (by omega)
    have hmid : (z.toNat % 64) * 2 ^ 6 + t.toNat % 64 < 2 ^ 12 := by omega
    have htop : (y.toNat % 64) * 2 ^ 12 + ((z.toNat % 64) * 2 ^ 6 + t.toNat % 64) < 2 ^ 18 := by
      omega
    rw [(masks lead).2.2.1, (masks y).2.2.2, (masks z).2.2.2, (masks t).2.2.2, Nat.or_assoc,
      Nat.or_assoc, shiftLeft_or hlow, shiftLeft_or hmid, shiftLeft_or htop]
    exact congrArg (fun n => some (n, tail)) (by omega)

/-- The iterator gives the code points of their bytes. -/
theorem codePoints_flatMap {cps : List ℕ} (hcps : ∀ c ∈ cps, c ≤ 0x10FFFF) :
    codePoints (cps.flatMap encodeCp) = some cps := by
  have hrun : ∀ (cps : List ℕ), (∀ c ∈ cps, c ≤ 0x10FFFF) → ∀ n,
      (cps.flatMap encodeCp).length ≤ n → codePointsFrom n (cps.flatMap encodeCp) = some cps := by
    intro cps
    induction cps with
    | nil =>
      intro _ n _
      rw [List.flatMap_nil, codePointsFrom]
    | cons c cps ih =>
      intro hcps n hn
      have hform := form_encodeCp (hcps c List.mem_cons_self)
      rw [List.flatMap_cons] at hn ⊢
      cases hbytes : encodeCp c ++ cps.flatMap encodeCp with
      | nil =>
        rw [(List.append_eq_nil_iff.mp hbytes).1] at hform
        cases hform
      | cons lead rest =>
        have hnext := next_of_form hform hbytes.symm
        have hlen : (cps.flatMap encodeCp).length + (encodeCp c).length = rest.length + 1 := by
          rw [← List.length_cons, ← hbytes, List.length_append, Nat.add_comm]
        have hpos : 0 < (encodeCp c).length := by
          refine List.length_pos_of_ne_nil fun hnil => ?_
          rw [hnil] at hform
          cases hform
        rw [hbytes, List.length_cons] at hn
        cases n with
        | zero => omega
        | succ n =>
          rw [codePointsFrom, hnext, Option.bind_some,
            ih (fun d hd => hcps d (List.mem_cons_of_mem _ hd)) n (by omega)]
          rfl
  exact hrun cps hcps _ le_rfl

/-! ### The validator -/

/-- The mask of a continuation byte. -/
lemma tail_mask (c : UInt8) : (c &&& 0xC0 != 0x80) = !decide (IsTail c.toNat) := by
  have hall : ∀ n < 256, (UInt8.ofNat n &&& 0xC0 != 0x80) = !decide (IsTail n) := by
    decide +kernel
  have hc := hall c.toNat (UInt8.toNat_lt c)
  rwa [UInt8.ofNat_toNat] at hc

/-- The bytes that lead a sequence. -/
lemma width_eq_some {lead : UInt8} {w : ℕ} : width lead = some w ↔
    (lead.toNat < 0x80 ∧ w = 1) ∨ (0xC2 ≤ lead.toNat ∧ lead.toNat < 0xE0 ∧ w = 2) ∨
      (0xE0 ≤ lead.toNat ∧ lead.toNat < 0xF0 ∧ w = 3) ∨
      (0xF0 ≤ lead.toNat ∧ lead.toNat < 0xF5 ∧ w = 4) := by
  have h7F : lead ≤ 0x7F ↔ lead.toNat ≤ 0x7F := UInt8.le_iff_toNat_le
  have hC2 : 0xC2 ≤ lead ∧ lead ≤ 0xDF ↔ 0xC2 ≤ lead.toNat ∧ lead.toNat ≤ 0xDF :=
    and_congr UInt8.le_iff_toNat_le UInt8.le_iff_toNat_le
  have hE0 : 0xE0 ≤ lead ∧ lead ≤ 0xEF ↔ 0xE0 ≤ lead.toNat ∧ lead.toNat ≤ 0xEF :=
    and_congr UInt8.le_iff_toNat_le UInt8.le_iff_toNat_le
  have hF0 : 0xF0 ≤ lead ∧ lead ≤ 0xF4 ↔ 0xF0 ≤ lead.toNat ∧ lead.toNat ≤ 0xF4 :=
    and_congr UInt8.le_iff_toNat_le UInt8.le_iff_toNat_le
  rw [width]
  simp only [h7F, hC2, hE0, hF0]
  split_ifs <;> simp only [Option.some.injEq, false_iff] <;> omega

/-- The continuation bytes behind a lead. -/
lemma any_not_tail {ws : List UInt8} :
    ws.any (fun c => c &&& 0xC0 != 0x80) = false ↔ ∀ c ∈ ws, IsTail c.toNat := by
  rw [List.any_eq_false]
  refine forall₂_congr fun c _ => ?_
  rw [tail_mask, Bool.not_eq_true', decide_eq_false_iff_not, not_not]

/-- What the validator asks of the byte behind a lead. -/
def SecondFits (w lead b1 : ℕ) : Prop :=
  (w = 3 → lead = 0xE0 → 0xA0 ≤ b1) ∧ (w = 4 → lead = 0xF0 → 0x90 ≤ b1) ∧
    (w = 4 → lead = 0xF4 → b1 < 0x90)

/-- A three byte sequence that spells a surrogate of one kind. -/
def spells (w lead b1 low high : ℕ) : Bool :=
  decide (w = 3 ∧ lead = 0xED ∧ low ≤ b1 ∧ b1 < high)

/-- The overlong forms and those out of range. -/
lemma overlongOrRange_iff {w : ℕ} {lead b1 : UInt8} :
    (if w = 3 ∧ lead = 0xE0 then decide (b1 < 0xA0)
      else if w = 4 ∧ lead = 0xF0 then decide (b1 < 0x90)
      else if w = 4 ∧ lead = 0xF4 then decide (0x8F < b1)
      else false) = true ↔ ¬ SecondFits w lead.toNat b1.toNat := by
  have hA0 : b1 < 0xA0 ↔ b1.toNat < 0xA0 := UInt8.lt_iff_toNat_lt
  have h90 : b1 < 0x90 ↔ b1.toNat < 0x90 := UInt8.lt_iff_toNat_lt
  have h8F : 0x8F < b1 ↔ 0x8F < b1.toNat := UInt8.lt_iff_toNat_lt
  have hE0 : lead = 0xE0 ↔ lead.toNat = 0xE0 := UInt8.toNat_inj.symm
  have hF0 : lead = 0xF0 ↔ lead.toNat = 0xF0 := UInt8.toNat_inj.symm
  have hF4 : lead = 0xF4 ↔ lead.toNat = 0xF4 := UInt8.toNat_inj.symm
  rw [SecondFits]
  simp only [hA0, h90, h8F, hE0, hF0, hF4]
  split_ifs with h1 h2 h3
  · rw [decide_eq_true_iff]
    omega
  · rw [decide_eq_true_iff]
    omega
  · rw [decide_eq_true_iff]
    omega
  · exact ⟨nofun, fun h => absurd ⟨fun h' h'' => absurd ⟨h', h''⟩ h1,
      fun h' h'' => absurd ⟨h', h''⟩ h2, fun h' h'' => absurd ⟨h', h''⟩ h3⟩ h⟩

/-- The three byte sequences of one kind of surrogate. -/
lemma spells_eq {w : ℕ} {lead b1 low high : UInt8} :
    decide (w = 3 ∧ lead = 0xED ∧ low ≤ b1 ∧ b1 ≤ high) =
      spells w lead.toNat b1.toNat low.toNat (high.toNat + 1) := by
  have hED : lead = 0xED ↔ lead.toNat = 0xED := UInt8.toNat_inj.symm
  rw [spells, decide_eq_decide, hED, UInt8.le_iff_toNat_le, UInt8.le_iff_toNat_le,
    Nat.lt_succ_iff]

/-- The sequence at the front, with the conditions on its bytes as numbers. -/
lemma sequenceAt_eq_some {lead : UInt8} {rest : List UInt8} {w : ℕ} {hi lo : Bool} :
    sequenceAt (lead :: rest) = some (w, hi, lo) ↔ width lead = some w ∧ w ≤ rest.length + 1 ∧
      (∀ c ∈ rest.take (w - 1), IsTail c.toNat) ∧
      SecondFits w lead.toNat (rest.headD 0).toNat ∧
        hi = spells w lead.toNat (rest.headD 0).toNat 0xA0 0xB0 ∧
        lo = spells w lead.toNat (rest.headD 0).toNat 0xB0 0xC0 := by
  rw [sequenceAt]
  cases hwidth : width lead with
  | none => exact ⟨nofun, fun h => nomatch h.1⟩
  | some n =>
    dsimp only
    by_cases hshape : rest.length + 1 < n ∨
        (rest.take (n - 1)).any (fun c => c &&& 0xC0 != 0x80) = true
    · rw [if_pos hshape]
      refine ⟨nofun, ?_⟩
      rintro ⟨hn, hlen, htail, -⟩
      obtain rfl := Option.some.inj hn
      rw [any_not_tail.mpr htail] at hshape
      rcases hshape with h | h
      · omega
      · cases h
    · obtain ⟨hlen, htail⟩ := not_or.mp hshape
      have htails := any_not_tail.mp (Bool.eq_false_iff.mpr htail)
      have hfits : n ≤ rest.length + 1 := Nat.not_lt.mp hlen
      -- the byte behind the lead is looked at in the wide sequences alone
      have hsecond : SecondFits n lead.toNat (if 1 < n then rest.headD 0 else 0).toNat ↔
          SecondFits n lead.toNat (rest.headD 0).toNat := by
        split_ifs with hwide
        · exact Iff.rfl
        · exact iff_of_true ⟨by omega, by omega, by omega⟩ ⟨by omega, by omega, by omega⟩
      have hspells : ∀ low high, spells n lead.toNat (if 1 < n then rest.headD 0 else 0).toNat
          low high = spells n lead.toNat (rest.headD 0).toNat low high := by
        intro low high
        split_ifs with hwide
        · rfl
        · rw [spells, spells, decide_eq_decide]
          exact iff_of_false (by omega) (by omega)
      rw [if_neg hshape, spells_eq, spells_eq, hspells, hspells]
      by_cases hsecondFits : SecondFits n lead.toNat (rest.headD 0).toNat
      · rw [if_neg (by rw [overlongOrRange_iff, not_not, hsecond]; exact hsecondFits)]
        constructor
        · intro h
          obtain ⟨rfl, hflags⟩ := Prod.mk.inj (Option.some.inj h)
          obtain ⟨rfl, rfl⟩ := Prod.mk.inj hflags
          exact ⟨rfl, hfits, htails, hsecondFits, rfl, rfl⟩
        · rintro ⟨hn, -, -, -, rfl, rfl⟩
          obtain rfl := Option.some.inj hn
          rfl
      · rw [if_pos (by rw [overlongOrRange_iff, hsecond]; exact hsecondFits)]
        refine ⟨nofun, ?_⟩
        rintro ⟨hn, -, -, h, -⟩
        obtain rfl := Option.some.inj hn
        exact absurd h hsecondFits

/-- **The validator takes a well-formed sequence**, and knows the surrogates. -/
theorem sequenceAt_of_form {w tail : List UInt8} {cp : ℕ} (h : Form (w.map UInt8.toNat) cp) :
    sequenceAt (w ++ tail) = some (w.length, decide (IsHigh cp), decide (IsLow cp)) := by
  generalize hbs : w.map UInt8.toNat = bs at h
  cases h with
  | @one a ha =>
    obtain ⟨x, rfl, rfl⟩ := List.map_eq_singleton_iff.mp hbs
    refine sequenceAt_eq_some.mpr ⟨width_eq_some.mpr (Or.inl ⟨ha, rfl⟩), ?_, nofun,
      ⟨nofun, nofun, nofun⟩, ?_, ?_⟩
    · exact Nat.le_add_left _ _
    · rw [spells, decide_eq_decide, IsHigh]
      exact iff_of_false (by omega) (fun h => nomatch h.1)
    · rw [spells, decide_eq_decide, IsLow]
      exact iff_of_false (by omega) (fun h => nomatch h.1)
  | @two a b ha ha' hb =>
    obtain ⟨x, w₁, rfl, rfl, hbs₁⟩ := List.map_eq_cons_iff.mp hbs
    obtain ⟨y, rfl, rfl⟩ := List.map_eq_singleton_iff.mp hbs₁
    refine sequenceAt_eq_some.mpr ⟨width_eq_some.mpr (Or.inr (Or.inl ⟨ha, ha', rfl⟩)), ?_, ?_,
      ⟨nofun, nofun, nofun⟩, ?_, ?_⟩
    · exact Nat.le_add_left _ _
    · intro c hc
      rw [List.mem_singleton.mp hc]
      exact hb
    · obtain ⟨hb, hb'⟩ := hb
      rw [spells, decide_eq_decide, IsHigh]
      exact iff_of_false (by omega) (fun h => nomatch h.1)
    · obtain ⟨hb, hb'⟩ := hb
      rw [spells, decide_eq_decide, IsLow]
      exact iff_of_false (by omega) (fun h => nomatch h.1)
  | @three a b c ha ha' hb hc hlong =>
    obtain ⟨x, w₁, rfl, rfl, hbs₁⟩ := List.map_eq_cons_iff.mp hbs
    obtain ⟨y, w₂, rfl, rfl, hbs₂⟩ := List.map_eq_cons_iff.mp hbs₁
    obtain ⟨z, rfl, rfl⟩ := List.map_eq_singleton_iff.mp hbs₂
    refine sequenceAt_eq_some.mpr ⟨width_eq_some.mpr (Or.inr (Or.inr (Or.inl ⟨ha, ha', rfl⟩))),
      ?_, ?_, ⟨fun _ => hlong, nofun, nofun⟩, ?_, ?_⟩
    · exact Nat.le_add_left _ _
    · intro d hd
      rcases List.mem_cons.mp hd with rfl | hd
      · exact hb
      · rw [List.mem_singleton.mp hd]
        exact hc
    · obtain ⟨hb, hb'⟩ := hb
      obtain ⟨hc, hc'⟩ := hc
      change _ = spells 3 x.toNat y.toNat 0xA0 0xB0
      rw [spells, decide_eq_decide, IsHigh]
      omega
    · obtain ⟨hb, hb'⟩ := hb
      obtain ⟨hc, hc'⟩ := hc
      change _ = spells 3 x.toNat y.toNat 0xB0 0xC0
      rw [spells, decide_eq_decide, IsLow]
      omega
  | @four a b c d ha ha' hb hc hd hlong hhigh =>
    obtain ⟨x, w₁, rfl, rfl, hbs₁⟩ := List.map_eq_cons_iff.mp hbs
    obtain ⟨y, w₂, rfl, rfl, hbs₂⟩ := List.map_eq_cons_iff.mp hbs₁
    obtain ⟨z, w₃, rfl, rfl, hbs₃⟩ := List.map_eq_cons_iff.mp hbs₂
    obtain ⟨t, rfl, rfl⟩ := List.map_eq_singleton_iff.mp hbs₃
    refine sequenceAt_eq_some.mpr ⟨width_eq_some.mpr (Or.inr (Or.inr (Or.inr ⟨ha, ha', rfl⟩))),
      ?_, ?_, ⟨nofun, fun _ => hlong, fun _ => hhigh⟩, ?_, ?_⟩
    · exact Nat.le_add_left _ _
    · intro e he
      rcases List.mem_cons.mp he with rfl | he
      · exact hb
      · rcases List.mem_cons.mp he with rfl | he
        · exact hc
        · rw [List.mem_singleton.mp he]
          exact hd
    · obtain ⟨hb, hb'⟩ := hb
      rw [spells, decide_eq_decide, IsHigh]
      exact iff_of_false (by omega) (fun h => nomatch h.1)
    · obtain ⟨hb, hb'⟩ := hb
      rw [spells, decide_eq_decide, IsLow]
      exact iff_of_false (by omega) (fun h => nomatch h.1)

/-- **The validator takes well-formed sequences only.** -/
theorem form_of_sequenceAt {b : List UInt8} {n : ℕ} {hi lo : Bool}
    (h : sequenceAt b = some (n, hi, lo)) :
    ∃ w tail cp, b = w ++ tail ∧ w.length = n ∧ Form (w.map UInt8.toNat) cp := by
  cases b with
  | nil => cases h
  | cons lead rest =>
    obtain ⟨hwidth, hlen, htail, ⟨h3, h4, h4'⟩, -, -⟩ := sequenceAt_eq_some.mp h
    rcases width_eq_some.mp hwidth with ⟨hl, rfl⟩ | ⟨hl, hl', rfl⟩ | ⟨hl, hl', rfl⟩ | ⟨hl, hl', rfl⟩
    · exact ⟨[lead], rest, _, rfl, rfl, Form.one hl⟩
    · match rest, hlen, htail with
      | b1 :: rest, _, htail =>
        exact ⟨[lead, b1], rest, _, rfl, rfl, Form.two hl hl' (htail b1 List.mem_cons_self)⟩
    · match rest, hlen, htail, h3 with
      | b1 :: b2 :: rest, _, htail, h3 =>
        exact ⟨[lead, b1, b2], rest, _, rfl, rfl, Form.three hl hl'
          (htail b1 List.mem_cons_self) (htail b2 (List.mem_cons_of_mem _ List.mem_cons_self))
          (h3 rfl)⟩
    · match rest, hlen, htail, h4, h4' with
      | b1 :: b2 :: b3 :: rest, _, htail, h4, h4' =>
        exact ⟨[lead, b1, b2, b3], rest, _, rfl, rfl, Form.four hl hl'
          (htail b1 List.mem_cons_self) (htail b2 (List.mem_cons_of_mem _ List.mem_cons_self))
          (htail b3 (List.mem_cons_of_mem _ (List.mem_cons_of_mem _ List.mem_cons_self)))
          (h4 rfl) (h4' rfl)⟩

end Torajs.Wtf8
