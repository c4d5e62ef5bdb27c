import ToraJs.Wtf8.Sequence

/-!
# The buffer stays canonical

A buffer spells joined code points: its bytes are those of code points in which no high surrogate
stands right before a low one.  The validator accepts exactly such bytes, every push keeps them, and
joined code points with the same code units are the same.
-/

namespace Torajs.Wtf8

open Unicode

/-- Bytes that are those of joined code points. -/
structure Spells (b : List UInt8) (cps : List ℕ) : Prop where
  bytes : b = cps.flatMap encodeCp
  bound : ∀ c ∈ cps, c ≤ 0x10FFFF
  joined : Joined cps

/-! ### The validator -/

lemma encodeCp_ne_nil {cp : ℕ} (hcp : cp ≤ 0x10FFFF) : encodeCp cp ≠ [] := by
  intro hnil
  have hform := form_encodeCp hcp
  rw [hnil] at hform
  cases hform

/-- The loop accepts the bytes of joined code points that may follow what was read. -/
lemma isWellFormedFrom_iff (n : ℕ) (prevHi : Bool) (b : List UInt8) (hn : b.length ≤ n) :
    isWellFormedFrom n prevHi b = true ↔
      ∃ cps, Spells b cps ∧ (prevHi = true → ∀ c ∈ cps.head?, ¬ IsLow c) := by
  induction n generalizing prevHi b with
  | zero =>
    obtain rfl := List.length_eq_zero_iff.mp (Nat.le_zero.mp hn)
    rw [isWellFormedFrom]
    exact iff_of_true rfl ⟨[], ⟨rfl, (fun c hc => by cases hc), List.IsChain.nil⟩,
      fun _ c hc => by cases hc⟩
  | succ n ih =>
    cases b with
    | nil =>
      rw [isWellFormedFrom]
      exact iff_of_true rfl ⟨[], ⟨rfl, (fun c hc => by cases hc), List.IsChain.nil⟩,
        fun _ c hc => by cases hc⟩
    | cons x bytes =>
      rw [isWellFormedFrom]
      constructor
      · intro h
        cases hseq : sequenceAt (x :: bytes) with
        | none =>
          rw [hseq] at h
          cases h
        | some r =>
          obtain ⟨w, hi, lo⟩ := r
          obtain ⟨ws, tail, cp, hsplit, rfl, hform⟩ := form_of_sequenceAt hseq
          have hflags : sequenceAt (ws ++ tail) = _ := sequenceAt_of_form hform
          rw [← hsplit, hseq] at hflags
          obtain ⟨-, hflags⟩ := Prod.mk.inj (Option.some.inj hflags)
          obtain ⟨rfl, rfl⟩ := Prod.mk.inj hflags
          obtain ⟨hcp, rfl⟩ := eq_encodeCp_of_form hform
          rw [hseq] at h
          dsimp only at h
          rw [hsplit, List.drop_left] at h
          split_ifs at h with hpair
          have hpos := List.length_pos_of_ne_nil (encodeCp_ne_nil hcp)
          have hlen : tail.length ≤ n := by
            rw [hsplit, List.length_append] at hn
            omega
          obtain ⟨cps, hspells, hhead⟩ := (ih _ tail hlen).mp h
          refine ⟨cp :: cps, ⟨?_, ?_, ?_⟩, ?_⟩
          · rw [hsplit, List.flatMap_cons, ← hspells.bytes]
          · intro c hc
            rcases List.mem_cons.mp hc with rfl | hc
            · exact hcp
            · exact hspells.bound c hc
          · refine List.isChain_cons.mpr ⟨fun c hc hbad => ?_, hspells.joined⟩
            exact hhead (decide_eq_true hbad.1) c hc hbad.2
          · intro hprev c hc hlow
            obtain rfl := Option.some.inj hc
            rw [hprev, decide_eq_true hlow] at hpair
            exact hpair rfl
      · rintro ⟨cps, ⟨hbytes, hbound, hjoined⟩, hhead⟩
        cases cps with
        | nil => cases hbytes
        | cons c cps =>
          have hc := hbound c List.mem_cons_self
          have hpos := List.length_pos_of_ne_nil (encodeCp_ne_nil hc)
          rw [List.flatMap_cons] at hbytes
          have hlen : (cps.flatMap encodeCp).length ≤ n := by
            rw [hbytes, List.length_append] at hn
            omega
          have hpair : ¬ (prevHi && decide (IsLow c)) = true := by
            intro h
            rw [Bool.and_eq_true, decide_eq_true_iff] at h
            exact hhead h.1 c rfl h.2
          rw [hbytes, sequenceAt_of_form (form_encodeCp hc)]
          dsimp only
          rw [if_neg hpair, List.drop_left, ih _ _ hlen]
          obtain ⟨hnext, hrest⟩ := List.isChain_cons.mp hjoined
          refine ⟨cps, ⟨rfl, fun d hd => hbound d (List.mem_cons_of_mem _ hd), hrest⟩, ?_⟩
          intro hhigh d hd hlow
          exact hnext d hd ⟨of_decide_eq_true hhigh, hlow⟩

/-- **The validator accepts exactly the bytes of joined code points.** -/
theorem isWellFormed_iff (b : List UInt8) : isWellFormed b = true ↔ ∃ cps, Spells b cps := by
  rw [isWellFormed, isWellFormedFrom_iff _ _ _ le_rfl]
  exact exists_congr fun cps => and_iff_left nofun

/-! ### Decoding -/

/-- A code point in code units. -/
lemma cpToUnits_eq {cp : ℕ} (hcp : cp ≤ 0x10FFFF) : cpToUnits cp = units cp := by
  rw [cpToUnits, units]
  rcases Nat.lt_or_ge cp 0x10000 with hsmall | hlarge
  · rw [if_pos hsmall, if_pos (Nat.le_of_lt_succ hsmall)]
  · have hno : ¬ cp ≤ 0xFFFF := by omega
    rw [if_neg hno, if_neg (Nat.not_lt.mpr hlarge)]
    dsimp only
    have hoff : (cp - 0x10000) / 1024 < 2 ^ 10 := by omega
    have hhigh : 0xD800 ||| (cp - 0x10000) >>> 10 % 2 ^ 16 = 0xD800 + (cp - 0x10000) / 1024 := by
      rw [Nat.shiftRight_eq_div_pow, Nat.mod_eq_of_lt (by omega),
        show (0xD800 : ℕ) = 54 <<< 10 by rfl, Nat.shiftLeft_add_eq_or_of_lt hoff]
    have hlow : 0xDC00 ||| (cp - 0x10000) &&& 0x3FF = 0xDC00 + (cp - 0x10000) % 1024 := by
      rw [Nat.and_two_pow_sub_one_eq_mod _ 10, show (0xDC00 : ℕ) = 55 <<< 10 by rfl,
        Nat.shiftLeft_add_eq_or_of_lt (Nat.mod_lt _ (by omega))]
    rw [hhigh, hlow]

lemma flatMap_cpToUnits {cps : List ℕ} (hcps : ∀ c ∈ cps, c ≤ 0x10FFFF) :
    cps.flatMap cpToUnits = cps.flatMap units := by
  induction cps with
  | nil => rw [List.flatMap_nil, List.flatMap_nil]
  | cons c cps ih =>
    rw [List.flatMap_cons, List.flatMap_cons, cpToUnits_eq (hcps c List.mem_cons_self),
      ih fun d hd => hcps d (List.mem_cons_of_mem _ hd)]

section Spelled

variable {b : List UInt8} {cps : List ℕ}

lemma Spells.codePoints_eq (h : Spells b cps) : codePoints b = some cps := by
  rw [h.bytes]
  exact codePoints_flatMap h.bound

lemma Spells.codeUnits_eq (h : Spells b cps) : codeUnits b = some (cps.flatMap units) := by
  rw [codeUnits, h.codePoints_eq, Option.map_some, flatMap_cpToUnits h.bound]

lemma Spells.toNat (h : Spells b cps) : b.map UInt8.toNat = cps.flatMap enc := by
  rw [h.bytes]
  exact flatMap_encodeCp_toNat h.bound

/-- **Buffers with the same code units have the same bytes.** -/
theorem Spells.eq_of_units {b' : List UInt8} {cps' : List ℕ} (h : Spells b cps)
    (h' : Spells b' cps') (hunits : cps.flatMap units = cps'.flatMap units) : b = b' := by
  rw [h.bytes, h'.bytes, h.joined.units_inj h'.joined h.bound h'.bound hunits]

end Spelled

/-! ### The ends of a buffer -/

section Ends

variable {b : List UInt8} {cps : List ℕ}

/-- A byte in an interval, as a number. -/
lemma byte_bounds {x low high : UInt8} :
    low ≤ x ∧ x ≤ high ↔ low.toNat ≤ x.toNat ∧ x.toNat ≤ high.toNat :=
  and_congr UInt8.le_iff_toNat_le UInt8.le_iff_toNat_le

/-- The three bytes of a surrogate. -/
lemma encodeCp_surrogate {cp : ℕ} (hlow : 0xD800 ≤ cp) (hhigh : cp < 0xE000) :
    ∃ b1 b2, encodeCp cp = [0xED, b1, b2] ∧ b1.toNat = 0x80 + cp / 64 % 64 ∧
      b2.toNat = 0x80 + cp % 64 := by
  have henc : (encodeCp cp).map UInt8.toNat = [0xED, 0x80 + cp / 64 % 64, 0x80 + cp % 64] := by
    rw [encodeCp_toNat (by omega), enc_surrogate hlow hhigh]
  obtain ⟨lead, w₁, hw, hlead, hw₁⟩ := List.map_eq_cons_iff.mp henc
  obtain ⟨b1, w₂, rfl, hb1, hw₂⟩ := List.map_eq_cons_iff.mp hw₁
  obtain ⟨b2, rfl, hb2⟩ := List.map_eq_singleton_iff.mp hw₂
  obtain rfl : lead = 0xED := UInt8.toNat_inj.mp hlead
  exact ⟨b1, b2, hw, hb1, hb2⟩

/-- The end of a buffer whose last code point is a high surrogate. -/
lemma Spells.reverse_high {init : List ℕ} {hi : ℕ} (h : Spells b (init ++ [hi]))
    (hhi : IsHigh hi) : ∃ b1 b2, b.reverse = b2 :: b1 :: 0xED :: (init.flatMap encodeCp).reverse ∧
      b1.toNat = 0x80 + hi / 64 % 64 ∧ b2.toNat = 0x80 + hi % 64 := by
  obtain ⟨hlow, hhigh⟩ := hhi
  obtain ⟨b1, b2, hw, hb1, hb2⟩ := encodeCp_surrogate hlow (by omega)
  refine ⟨b1, b2, ?_, hb1, hb2⟩
  rw [h.bytes, List.flatMap_append, List.flatMap_singleton, hw, List.reverse_append]
  rfl

/-- **A buffer that ends with a high surrogate** ends with its three bytes, and only then. -/
theorem Spells.ends_with_high (h : Spells b cps) : endsWithHighSurrogate b = true ↔
    ∃ init hi, cps = init ++ [hi] ∧ IsHigh hi := by
  constructor
  · intro hends
    rw [endsWithHighSurrogate.eq_def] at hends
    split at hends
    · rename_i b2 b1 lead initRev hrev
      obtain ⟨rfl, hb1⟩ := of_decide_eq_true hends
      rw [byte_bounds] at hb1
      have hnat : cps.flatMap enc =
          initRev.reverse.map UInt8.toNat ++ 0xED :: [b1.toNat, b2.toNat] := by
        rw [← h.toNat, ← List.reverse_reverse b, hrev, List.reverse_cons, List.reverse_cons,
          List.reverse_cons, List.append_assoc, List.append_assoc, List.map_append]
        rfl
      obtain ⟨init, last, rfl, -, hlast⟩ := exists_split_of_lead (by decide) hnat
      have hbound : ∀ c ∈ last, c ≤ 0x10FFFF := fun c hc => h.bound c (List.mem_append_right _ hc)
      obtain ⟨b', rest, rfl, hrest, ⟨htail, -⟩, ⟨htail', htail''⟩⟩ :=
        exists_surrogate hbound hlast
      obtain ⟨rfl, hnil⟩ := List.cons.inj hrest
      cases rest with
      | nil => exact ⟨init, _, rfl, by
          have hle : b1.toNat ≤ 0xAF := hb1.2
          have hge : 0xA0 ≤ b1.toNat := hb1.1
          constructor <;> omega⟩
      | cons c rest =>
        rw [List.flatMap_cons] at hnil
        exact absurd (List.append_eq_nil_iff.mp hnil.symm).1 (enc_ne_nil c)
    · cases hends
  · rintro ⟨init, hi, rfl, hhi⟩
    obtain ⟨b1, b2, hrev, hb1, -⟩ := h.reverse_high hhi
    obtain ⟨hhi, hhi'⟩ := hhi
    rw [endsWithHighSurrogate, hrev]
    refine decide_eq_true ⟨rfl, byte_bounds.mpr ⟨?_, ?_⟩⟩
    · change 0xA0 ≤ b1.toNat
      omega
    · change b1.toNat ≤ 0xAF
      omega

/-- **A buffer that starts with a low surrogate** starts with its three bytes, and only then. -/
theorem Spells.starts_with_low (h : Spells b cps) : startsWithLowSurrogate b = true ↔
    ∃ lo rest, cps = lo :: rest ∧ IsLow lo := by
  constructor
  · intro hstarts
    rw [startsWithLowSurrogate.eq_def] at hstarts
    split at hstarts
    · rename_i lead b1 b2 tail
      obtain ⟨rfl, hb1⟩ := of_decide_eq_true hstarts
      rw [byte_bounds] at hb1
      have hnat : cps.flatMap enc = 0xED :: b1.toNat :: b2.toNat :: tail.map UInt8.toNat := by
        rw [← h.toNat]
        rfl
      obtain ⟨b', rest, rfl, hrest, -, ⟨htail, htail'⟩⟩ := exists_surrogate h.bound hnat
      refine ⟨_, rest, rfl, ?_⟩
      have hle : b1.toNat ≤ 0xBF := hb1.2
      have hge : 0xB0 ≤ b1.toNat := hb1.1
      constructor <;> omega
    · cases hstarts
  · rintro ⟨lo, rest, rfl, hlo, hlo'⟩
    obtain ⟨b1, b2, hw, hb1, -⟩ := encodeCp_surrogate (by omega) hlo'
    rw [h.bytes, List.flatMap_cons, hw]
    refine decide_eq_true ⟨rfl, byte_bounds.mpr ⟨?_, ?_⟩⟩
    · change 0xB0 ≤ b1.toNat
      omega
    · change b1.toNat ≤ 0xBF
      omega

end Ends

end Torajs.Wtf8
