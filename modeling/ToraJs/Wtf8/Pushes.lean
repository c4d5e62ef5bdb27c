import ToraJs.Wtf8.Canonical

/-!
# Pushes

Every push appends its code units and leaves a buffer that spells joined code points; and every
string of joined code points is what pushing them one by one builds.
-/

namespace Torajs.Wtf8

open Unicode

section Pushes

variable {b : List UInt8} {cps : List ℕ}

/-- Joined code points next to each other spell their bytes. -/
lemma Spells.append {b' : List UInt8} {cps' : List ℕ} (h : Spells b cps) (h' : Spells b' cps')
    (hseam : ∀ x ∈ cps.getLast?, ∀ y ∈ cps'.head?, ¬ (IsHigh x ∧ IsLow y)) :
    Spells (b ++ b') (cps ++ cps') where
  bytes := by rw [h.bytes, h'.bytes, List.flatMap_append]
  bound := fun c hc => (List.mem_append.mp hc).elim (h.bound c) (h'.bound c)
  joined := joined_append.mpr ⟨h.joined, h'.joined, hseam⟩

lemma Spells.singleton {cp : ℕ} (hcp : cp ≤ 0x10FFFF) : Spells (encodeCp cp) [cp] where
  bytes := (List.flatMap_singleton _ _).symm
  bound := fun c hc => by
    rw [List.mem_singleton.mp hc]
    exact hcp
  joined := List.isChain_singleton _

/-- A seam is a pair exactly when the tests at the two ends say so. -/
lemma Spells.seam {b' : List UInt8} {cps' : List ℕ} (h : Spells b cps) (h' : Spells b' cps')
    (hno : ¬ (endsWithHighSurrogate b = true ∧ startsWithLowSurrogate b' = true)) :
    ∀ x ∈ cps.getLast?, ∀ y ∈ cps'.head?, ¬ (IsHigh x ∧ IsLow y) := by
  rintro x hx y hy ⟨hhigh, hlow⟩
  obtain ⟨init, rfl⟩ := List.getLast?_eq_some_iff.mp hx
  obtain ⟨rest, rfl⟩ := List.head?_eq_some_iff.mp hy
  exact hno ⟨h.ends_with_high.mpr ⟨init, x, rfl, hhigh⟩,
    h'.starts_with_low.mpr ⟨y, rest, rfl, hlow⟩⟩

/-- A low surrogate pushed behind a high one. -/
lemma Spells.push_pair {init : List ℕ} {hi lo : ℕ} (h : Spells b (init ++ [hi])) (hhi : IsHigh hi)
    (hlo : IsLow lo) : pushCodePoint b lo = init.flatMap encodeCp ++ encodeCp (joinPair hi lo) := by
  obtain ⟨b1, b2, hrev, hb1, hb2⟩ := h.reverse_high hhi
  have hends : endsWithHighSurrogate b = true := h.ends_with_high.mpr ⟨init, hi, rfl, hhi⟩
  have hjoined : joinedCp b1 b2 lo = joinPair hi lo := by
    have hlow : b2.toNat % 64 < 2 ^ 6 := Nat.mod_lt _ (by omega)
    have hbits : ((b1 &&& 0x0F).toNat <<< 6 ||| (b2 &&& 0x3F).toNat) <<< 10 =
        (hi - 0xD800) * 1024 := by
      obtain ⟨h1, h2⟩ := hhi
      rw [(masks b1).2.1, (masks b2).2.2.2, shiftLeft_or hlow, Nat.shiftLeft_eq, hb1, hb2]
      omega
    exact congrArg (fun n => 0x10000 + n + (lo - 0xDC00)) hbits
  rw [pushCodePoint, if_pos ⟨⟨hlo.1, Nat.le_of_lt_succ hlo.2⟩, hends⟩, hrev]
  dsimp only
  rw [List.reverse_reverse, hjoined]

/-- **A code point pushed**: its code units are appended, and where it joins nothing it is
appended itself. -/
theorem Spells.pushCodePoint {cp : ℕ} (h : Spells b cps) (hcp : cp ≤ 0x10FFFF) :
    ∃ cps', Spells (pushCodePoint b cp) cps' ∧
      cps'.flatMap units = cps.flatMap units ++ units cp ∧
      (Joined (cps ++ [cp]) → cps' = cps ++ [cp]) := by
  by_cases hpair : (0xDC00 ≤ cp ∧ cp ≤ 0xDFFF) ∧ endsWithHighSurrogate b = true
  · obtain ⟨⟨hlow, hlow'⟩, hends⟩ := hpair
    have hlo : IsLow cp := ⟨hlow, Nat.lt_succ_of_le hlow'⟩
    obtain ⟨init, hi, rfl, hhi⟩ := h.ends_with_high.mp hends
    obtain ⟨hjoined, hunits⟩ := h.joined.join (List.isChain_singleton cp) hhi hlo
    refine ⟨init ++ [joinPair hi cp], ⟨?_, fun c hc => ?_, hjoined⟩, ?_, fun hbad => ?_⟩
    · rw [h.push_pair hhi hlo, List.flatMap_append, List.flatMap_singleton]
    · rcases List.mem_append.mp hc with hc | hc
      · exact h.bound c (List.mem_append_left _ hc)
      · rw [List.mem_singleton.mp hc]
        exact (joinPair_bounds hhi hlo).2
    · rw [hunits, List.flatMap_singleton]
    · exact absurd ⟨hhi, hlo⟩
        ((joined_append.mp hbad).2.2 hi List.getLast?_concat cp rfl)
  · have hsingle := Spells.singleton hcp
    have hseam := h.seam hsingle fun hends => hpair ⟨?_, hends.1⟩
    · refine ⟨cps ++ [cp], ?_, ?_, fun _ => rfl⟩
      · rw [Wtf8.pushCodePoint, if_neg hpair]
        exact h.append hsingle hseam
      · rw [List.flatMap_append, List.flatMap_singleton]
    · obtain ⟨lo, rest, heq, hlo⟩ := hsingle.starts_with_low.mp hends.2
      obtain ⟨rfl, -⟩ := List.cons.inj heq
      exact ⟨hlo.1, Nat.le_of_lt_succ hlo.2⟩

/-- A character is no surrogate. -/
lemma char_bounds (c : Char) : c.toNat ≤ 0x10FFFF ∧ ¬ IsHigh c.toNat ∧ ¬ IsLow c.toNat := by
  have hvalid := c.valid
  change c.toNat < 0xD800 ∨ 0xDFFF < c.toNat ∧ c.toNat < 0x110000 at hvalid
  refine ⟨by omega, fun h => ?_, fun h => ?_⟩
  · have := h.1
    have := h.2
    omega
  · have := h.1
    have := h.2
    omega

/-- **A string pushed.** -/
theorem Spells.pushStr (h : Spells b cps) (s : List Char) :
    ∃ cps', Spells (pushStr b s) cps' ∧
      cps'.flatMap units = cps.flatMap units ++ s.flatMap fun c => cpToUnits c.toNat := by
  have hstr : Spells (s.flatMap fun c => encodeCp c.toNat) (s.map Char.toNat) := by
    refine ⟨by rw [List.flatMap_map], fun n hn => ?_, ?_⟩
    · obtain ⟨c, -, rfl⟩ := List.mem_map.mp hn
      exact (char_bounds c).1
    · refine List.Pairwise.isChain (List.pairwise_map.mpr ?_)
      exact List.pairwise_of_forall fun c _ hbad => (char_bounds c).2.1 hbad.1
  refine ⟨cps ++ s.map Char.toNat, h.append hstr fun x _ y hy hbad => ?_, ?_⟩
  · obtain ⟨c, -, rfl⟩ := List.mem_map.mp (List.mem_of_mem_head? hy)
    exact (char_bounds c).2.2 hbad.2
  · rw [List.flatMap_append, ← flatMap_cpToUnits hstr.bound, List.flatMap_map]

/-- **A buffer pushed**, across the seam or not. -/
theorem Spells.pushWtf8 {other : List UInt8} {cps' : List ℕ} (h : Spells b cps)
    (h' : Spells other cps') : ∃ b' cps'', pushWtf8 b other = some b' ∧ Spells b' cps'' ∧
      cps''.flatMap units = cps.flatMap units ++ cps'.flatMap units := by
  by_cases hpair : (endsWithHighSurrogate b && startsWithLowSurrogate other) = true
  · obtain ⟨hends, hstarts⟩ := Bool.and_eq_true_iff.mp hpair
    obtain ⟨init, hi, rfl, hhi⟩ := h.ends_with_high.mp hends
    obtain ⟨lo, rest, rfl, hlo⟩ := h'.starts_with_low.mp hstarts
    obtain ⟨hjoined, hunits⟩ := h.joined.join h'.joined hhi hlo
    have hlobound := h'.bound lo List.mem_cons_self
    have hlow := hlo.1
    obtain ⟨b1, b2, henc, -⟩ := encodeCp_surrogate (by omega) hlo.2
    have hother : other = 0xED :: b1 :: b2 :: rest.flatMap encodeCp := by
      rw [h'.bytes, List.flatMap_cons, henc]
      rfl
    have hnext : next 0xED (b1 :: b2 :: rest.flatMap encodeCp) =
        some (lo, rest.flatMap encodeCp) := by
      refine next_of_form (form_encodeCp hlobound) ?_
      rw [henc]
      rfl
    refine ⟨init.flatMap encodeCp ++ encodeCp (joinPair hi lo) ++ rest.flatMap encodeCp,
      init ++ joinPair hi lo :: rest, ?_, ⟨?_, fun c hc => ?_, hjoined⟩, hunits⟩
    · rw [Wtf8.pushWtf8.eq_def, if_pos hpair, hother]
      dsimp only
      rw [hnext, Option.map_some, h.push_pair hhi hlo]
      rfl
    · rw [List.flatMap_append, List.flatMap_cons, List.append_assoc]
    · rcases List.mem_append.mp hc with hc | hc
      · exact h.bound c (List.mem_append_left _ hc)
      · rcases List.mem_cons.mp hc with hc | hc
        · rw [hc]
          exact (joinPair_bounds hhi hlo).2
        · exact h'.bound c (List.mem_cons_of_mem _ hc)
  · refine ⟨b ++ other, cps ++ cps', if_neg hpair, h.append h' (h.seam h' ?_), ?_⟩
    · rwa [← Bool.and_eq_true_iff]
    · rw [List.flatMap_append]

end Pushes

/-! ### Buffers -/

/-- **Whatever is pushed, the buffer spells joined code points**, with the code units pushed. -/
theorem Built.spells {b : List UInt8} {u : List ℕ} (h : Built b u) :
    ∃ cps, Spells b cps ∧ cps.flatMap units = u := by
  induction h with
  | empty => exact ⟨[], ⟨rfl, (fun c hc => by cases hc), List.IsChain.nil⟩, rfl⟩
  | codePoint _ hcp ih =>
    obtain ⟨cps, hspells, rfl⟩ := ih
    obtain ⟨cps', hspells', hunits, -⟩ := hspells.pushCodePoint hcp
    rw [cpToUnits_eq hcp]
    exact ⟨cps', hspells', hunits⟩
  | str s _ ih =>
    obtain ⟨cps, hspells, rfl⟩ := ih
    exact hspells.pushStr s
  | wtf8 _ _ hpush ih ih' =>
    obtain ⟨cps, hspells, rfl⟩ := ih
    obtain ⟨cps', hspells', rfl⟩ := ih'
    obtain ⟨b', cps'', hpush', hspells'', hunits⟩ := hspells.pushWtf8 hspells'
    obtain rfl := Option.some.inj (hpush.symm.trans hpush')
    exact ⟨cps'', hspells'', hunits⟩

/-- Joined code points pushed one by one. -/
lemma built_of_joined {cps : List ℕ} (hbound : ∀ c ∈ cps, c ≤ 0x10FFFF) (hjoined : Joined cps) :
    cps.foldl pushCodePoint [] = cps.flatMap encodeCp ∧
      Built (cps.flatMap encodeCp) (cps.flatMap cpToUnits) := by
  induction cps using List.reverseRecOn with
  | nil => exact ⟨rfl, Built.empty⟩
  | append_singleton cps c ih =>
    have hboundInit := fun d hd => hbound d (List.mem_append_left _ hd)
    have hc := hbound c (List.mem_append_right _ List.mem_cons_self)
    have hjoinedInit := (joined_append.mp hjoined).1
    obtain ⟨hfold, hbuilt⟩ := ih hboundInit hjoinedInit
    have hspells : Spells (cps.flatMap encodeCp) cps := ⟨rfl, hboundInit, hjoinedInit⟩
    obtain ⟨cps', hspells', -, hsame⟩ := hspells.pushCodePoint hc
    have hpush : pushCodePoint (cps.flatMap encodeCp) c = (cps ++ [c]).flatMap encodeCp := by
      rw [hspells'.bytes, hsame hjoined]
    refine ⟨?_, ?_⟩
    · rw [List.foldl_append, hfold, List.foldl_cons, List.foldl_nil, hpush]
    · rw [← hpush, List.flatMap_append, List.flatMap_singleton]
      exact hbuilt.codePoint hc

/-- **The buffer stays canonical**: whatever is pushed, the bytes are well formed and give back
exactly the code units pushed, and any buffer can be pushed behind; buffers are the same exactly
when their code units are; the validator accepts exactly the buffers that pushes build; and what it
accepts is decoded and encoded, or pushed code point by code point, to itself. -/
theorem buffer_canonical :
    (∀ b u, Built b u → isWellFormed b = true ∧ codeUnits b = some u ∧
        ∀ other v, Built other v → ∃ b', pushWtf8 b other = some b') ∧
      (∀ b u b' u', Built b u → Built b' u' → (b = b' ↔ codeUnits b = codeUnits b')) ∧
      (∀ b, isWellFormed b = true ↔ ∃ u, Built b u) ∧
      ∀ b, isWellFormed b = true → ∃ cps, codePoints b = some cps ∧
        cps.flatMap encodeCp = b ∧ cps.foldl pushCodePoint [] = b := by
  refine ⟨fun b u h => ?_, fun b u b' u' h h' => ⟨fun heq => by rw [heq], fun heq => ?_⟩,
    fun b => ⟨fun h => ?_, fun h => ?_⟩, fun b h => ?_⟩
  · obtain ⟨cps, hspells, rfl⟩ := h.spells
    refine ⟨(isWellFormed_iff b).mpr ⟨cps, hspells⟩, hspells.codeUnits_eq, fun other v hother => ?_⟩
    obtain ⟨cps', hspells', -⟩ := hother.spells
    obtain ⟨b', -, hpush, -⟩ := hspells.pushWtf8 hspells'
    exact ⟨b', hpush⟩
  · obtain ⟨cps, hspells, rfl⟩ := h.spells
    obtain ⟨cps', hspells', rfl⟩ := h'.spells
    rw [hspells.codeUnits_eq, hspells'.codeUnits_eq] at heq
    exact hspells.eq_of_units hspells' (Option.some.inj heq)
  · obtain ⟨cps, hspells⟩ := (isWellFormed_iff b).mp h
    rw [hspells.bytes]
    exact ⟨_, (built_of_joined hspells.bound hspells.joined).2⟩
  · obtain ⟨u, hbuilt⟩ := h
    obtain ⟨cps, hspells, -⟩ := hbuilt.spells
    exact (isWellFormed_iff b).mpr ⟨cps, hspells⟩
  · obtain ⟨cps, hspells⟩ := (isWellFormed_iff b).mp h
    refine ⟨cps, hspells.codePoints_eq, hspells.bytes.symm, ?_⟩
    rw [(built_of_joined hspells.bound hspells.joined).1, ← hspells.bytes]

end Torajs.Wtf8
