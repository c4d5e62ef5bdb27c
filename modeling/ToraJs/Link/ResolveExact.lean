import ToraJs.Link.Resolve

/-!
# Linking is exact or refused

One relocation is applied by its patcher or stops the link; the sites of a function are disjoint,
so that each keeps what its own relocation put there.
-/

namespace Torajs.Link

/-! ### Writing to the image -/

section Write

variable {bytes after new : List (BitVec 8)} {off : ℕ}

/-- Outside a range two images are the same. -/
structure SameOutside (bytes after : List (BitVec 8)) (off n : ℕ) : Prop where
  length : after.length = bytes.length
  getD : ∀ j, j < off ∨ off + n ≤ j → after.getD j 0 = bytes.getD j 0

lemma writeAt_of_le (new : List (BitVec 8)) (h : off + new.length ≤ bytes.length) :
    ∃ after, writeAt bytes off new = some after ∧ SameOutside bytes after off new.length ∧
      ∀ k < new.length, after.getD (off + k) 0 = new.getD k 0 := by
  have htake : (bytes.take off).length = off := by
    rw [List.length_take]
    omega
  refine ⟨_, if_pos h, ⟨?_, ?_⟩, ?_⟩
  · rw [List.length_append, List.length_append, htake, List.length_drop]
    omega
  · intro j hj
    simp only [List.getD_eq_getElem?_getD]
    congr 1
    rcases hj with hj | hj
    · rw [List.getElem?_append_left (by omega), List.getElem?_take_of_lt hj]
    · rw [List.getElem?_append_right (by omega), htake, List.getElem?_append_right (by omega),
        List.getElem?_drop]
      congr 1
      omega
  · intro k hk
    simp only [List.getD_eq_getElem?_getD]
    congr 1
    rw [List.getElem?_append_right (by omega), htake, Nat.add_sub_cancel_left,
      List.getElem?_append_left hk]

lemma writeAt_of_lt (h : bytes.length < off + new.length) : writeAt bytes off new = none :=
  if_neg (Nat.not_le.mpr h)

/-- Words in images that agree on their bytes. -/
lemma wordAt_congr (h : ∀ j, off ≤ j → j < off + 4 → after.getD j 0 = bytes.getD j 0) :
    wordAt after off = wordAt bytes off := by
  rw [wordAt, wordAt, h off le_rfl (by omega), h (off + 1) (by omega) (by omega),
    h (off + 2) (by omega) (by omega), h (off + 3) (by omega) (by omega)]

lemma quadAt_congr (h : ∀ j, off ≤ j → j < off + 8 → after.getD j 0 = bytes.getD j 0) :
    quadAt after off = quadAt bytes off := by
  rw [quadAt, quadAt, h off le_rfl (by omega), h (off + 1) (by omega) (by omega),
    h (off + 2) (by omega) (by omega), h (off + 3) (by omega) (by omega),
    h (off + 4) (by omega) (by omega), h (off + 5) (by omega) (by omega),
    h (off + 6) (by omega) (by omega), h (off + 7) (by omega) (by omega)]

lemma wordAt_of_bytes {w : BitVec 32}
    (h : ∀ k < 4, after.getD (off + k) 0 = (wordBytes w).getD k 0) : wordAt after off = w := by
  have h0 := h 0 (by norm_num)
  rw [Nat.add_zero] at h0
  rw [wordAt, h0, h 1 (by norm_num), h 2 (by norm_num), h 3 (by norm_num)]
  change w.extractLsb' 24 8 ++ w.extractLsb' 16 8 ++ w.extractLsb' 8 8 ++ w.extractLsb' 0 8 = w
  ext i hi
  simp only [BitVec.getElem_append, BitVec.getElem_extractLsb']
  split_ifs
  all_goals
    rw [← BitVec.getLsbD_eq_getElem hi]
    congr 1
    omega

lemma quadAt_of_bytes {w : BitVec 64}
    (h : ∀ k < 8, after.getD (off + k) 0 = (quadBytes w).getD k 0) : quadAt after off = w := by
  have h0 := h 0 (by norm_num)
  rw [Nat.add_zero] at h0
  rw [quadAt, h0, h 1 (by norm_num), h 2 (by norm_num), h 3 (by norm_num), h 4 (by norm_num),
    h 5 (by norm_num), h 6 (by norm_num), h 7 (by norm_num)]
  change w.extractLsb' 56 8 ++ w.extractLsb' 48 8 ++ w.extractLsb' 40 8 ++ w.extractLsb' 32 8 ++
    w.extractLsb' 24 8 ++ w.extractLsb' 16 8 ++ w.extractLsb' 8 8 ++ w.extractLsb' 0 8 = w
  ext i hi
  simp only [BitVec.getElem_append, BitVec.getElem_extractLsb']
  split_ifs
  all_goals
    rw [← BitVec.getLsbD_eq_getElem hi]
    congr 1
    omega

/-- The word at an offset is read, patched and written back. -/
def patchWord (bytes : List (BitVec 8)) (off : ℕ) (f : BitVec 32 → Option (BitVec 32)) :
    Option (List (BitVec 8)) :=
  (readU32Le bytes off).bind fun insn => (f insn).bind fun w => writeAt bytes off (wordBytes w)

variable {f : BitVec 32 → Option (BitVec 32)}

lemma patchWord_of_lt (h : bytes.length < off + 4) : patchWord bytes off f = none := by
  rw [patchWord, readU32Le, if_neg (Nat.not_le.mpr h), Option.bind_none]

lemma patchWord_of_none (h : f (wordAt bytes off) = none) :
    patchWord bytes off f = none := by
  by_cases hin : off + 4 ≤ bytes.length
  · rw [patchWord, readU32Le, if_pos hin, Option.bind_some, h, Option.bind_none]
  · exact patchWord_of_lt (Nat.not_le.mp hin)

lemma patchWord_of_some {w : BitVec 32} (hin : off + 4 ≤ bytes.length)
    (h : f (wordAt bytes off) = some w) :
    ∃ after, patchWord bytes off f = some after ∧ SameOutside bytes after off 4 ∧
      wordAt after off = w := by
  have hlen : (wordBytes w).length = 4 := rfl
  obtain ⟨after, hwrite, hsame, hnew⟩ := writeAt_of_le (wordBytes w) hin
  refine ⟨after, ?_, hsame, wordAt_of_bytes hnew⟩
  rw [patchWord, readU32Le, if_pos hin, Option.bind_some, h, Option.bind_some, hwrite]

end Write

/-! ### One relocation -/

section One

variable {p : Profile} {bytes : List (BitVec 8)} {fnVaddr target : BitVec 64}

lemma Profile.checked_cases {α : Type} (p : Profile) (overflows : Bool) (wrapped : α) :
    (p.checked overflows wrapped = none ∧ p.overflowChecks = true ∧ overflows = true) ∨
      p.checked overflows wrapped = some wrapped ∧
        ¬ (p.overflowChecks = true ∧ overflows = true) := by
  rw [Profile.checked]
  by_cases h : (p.overflowChecks && overflows) = true
  · exact Or.inl ⟨if_pos h, Bool.and_eq_true_iff.mp h⟩
  · exact Or.inr ⟨if_neg h, fun h' => h (Bool.and_eq_true_iff.mpr h')⟩

lemma i32TryFrom_cases (x : ℤ) : i32TryFrom x = none ∨ i32TryFrom x = some x := by
  rw [i32TryFrom]
  split_ifs
  · exact Or.inr rfl
  · exact Or.inl rfl

/-- Adding a difference goes to the target. -/
lemma add_ofInt_sub (site target : BitVec 64) {d : ℤ} (h : d = (target - site).toInt) :
    site + BitVec.ofInt 64 d = target := by
  rw [h, BitVec.ofInt_toInt, BitVec.add_comm, BitVec.sub_add_cancel]

lemma pageOf_sub_and (a b : BitVec 64) : (pageOf a - pageOf b) &&& 0xFFF = 0 := by
  have hlow : ∀ a : BitVec 64, (pageOf a).toNat % 4096 = 0 := by
    intro a
    have hzero : pageOf a &&& 0xFFF = 0#64 := by
      rw [pageOf, BitVec.and_assoc, show ~~~(0xFFF : BitVec 64) &&& 0xFFF = 0#64 by decide,
        BitVec.and_zero]
    have := congrArg BitVec.toNat hzero
    rw [BitVec.toNat_and] at this
    exact (Nat.and_two_pow_sub_one_eq_mod _ 12).symm.trans this
  have ha := hlow a
  have hb := hlow b
  have hlt := (pageOf b).isLt
  apply BitVec.eq_of_toNat_eq
  rw [BitVec.toNat_and]
  refine (Nat.and_two_pow_sub_one_eq_mod _ 12).trans ?_
  rw [BitVec.toNat_sub]
  change _ = 0
  omega

lemma pageOffset_lt (target : BitVec 64) :
    ((target &&& 0xFFF).setWidth 32).toNat = (target &&& 0xFFF).toNat ∧
      (target &&& 0xFFF).toNat < 4096 := by
  have hlt : (target &&& 0xFFF).toNat < 4096 := by
    rw [BitVec.toNat_and]
    exact lt_of_le_of_lt Nat.and_le_right (by decide)
  rw [BitVec.toNat_setWidth]
  exact ⟨Nat.mod_eq_of_lt (by omega), hlt⟩

/-- What applying a relocation does: it stops the link, or a debug assertion does, or the site is
patched and nothing else. -/
lemma applyOne_spec (p : Profile) (r : Reloc) (fnVaddr target : BitVec 64)
    (hsite : r.kind.IsSiteWord (wordAt bytes r.byteOffset.toNat)) :
    (applyOne p bytes r.byteOffset fnVaddr r.kind target = none ∧
      (r.Stops p fnVaddr target bytes ∨ p.debugAssertions = true ∧
        ¬ r.kind.Fits (r.siteVaddr fnVaddr) target (wordAt bytes r.byteOffset.toNat))) ∨
    ∃ after, applyOne p bytes r.byteOffset fnVaddr r.kind target = some after ∧
      ¬ r.Stops p fnVaddr target bytes ∧
      (p.debugAssertions = true →
        r.kind.Fits (r.siteVaddr fnVaddr) target (wordAt bytes r.byteOffset.toNat)) ∧
      SameOutside bytes after r.byteOffset.toNat r.kind.width ∧
      (r.kind.Fits (r.siteVaddr fnVaddr) target (wordAt bytes r.byteOffset.toNat) →
        r.kind.Reaches (r.siteVaddr fnVaddr) target bytes after r.byteOffset.toNat) := by
  obtain ⟨byteOffset, kind⟩ := r
  dsimp only at hsite ⊢
  unfold applyOne
  rcases p.checked_cases (fnVaddr.uaddOverflow (byteOffset.setWidth 64))
    (fnVaddr + byteOffset.setWidth 64) with ⟨hsum, hover⟩ | ⟨hsum, hover⟩
  · rw [hsum]
    exact Or.inl ⟨rfl, Or.inl (Or.inr (Or.inl hover))⟩
  rw [hsum]
  dsimp only [Bind.bind, Option.bind_some]
  by_cases hin : byteOffset.toNat + kind.width ≤ bytes.length
  swap
  · -- the site leaves the image
    refine Or.inl ⟨?_, Or.inl (Or.inl (Nat.not_le.mp hin))⟩
    have hlt := Nat.not_le.mp hin
    cases kind with
    | callSite c =>
      dsimp only
      rcases p.checked_cases (target.ssubOverflow (fnVaddr + byteOffset.setWidth 64))
        (target - (fnVaddr + byteOffset.setWidth 64)) with ⟨hsub, -⟩ | ⟨hsub, -⟩
      · rw [hsub]
        rfl
      · rw [hsub, Option.bind_some]
        rcases i32TryFrom_cases (target - (fnVaddr + byteOffset.setWidth 64)).toInt with h | h
        · rw [h]
          rfl
        · rw [h, Option.bind_some]
          exact patchWord_of_lt (f := fun insn => patchBranch26 p insn _) hlt
    | page21 s =>
      dsimp only
      rcases p.checked_cases
        ((pageOf target).ssubOverflow (pageOf (fnVaddr + byteOffset.setWidth 64)))
        (pageOf target - pageOf (fnVaddr + byteOffset.setWidth 64)) with ⟨hsub, -⟩ | ⟨hsub, -⟩
      · rw [hsub]
        rfl
      · rw [hsub, Option.bind_some]
        exact patchWord_of_lt (f := fun insn => patchPage21 p insn _) hlt
    | pageOff12 s => exact patchWord_of_lt (f := fun insn => patchPageoff12 p insn _) hlt
    | absPtr64 s => exact writeAt_of_lt hlt
  have hinside : ¬ bytes.length < byteOffset.toNat + kind.width := Nat.not_lt.mpr hin
  cases kind with
  | callSite c =>
    dsimp only
    rcases p.checked_cases (target.ssubOverflow (fnVaddr + byteOffset.setWidth 64))
      (target - (fnVaddr + byteOffset.setWidth 64)) with ⟨hsub, hover'⟩ | ⟨hsub, hover'⟩
    · rw [hsub]
      exact Or.inl ⟨rfl, Or.inl (Or.inr (Or.inr (Or.inl hover')))⟩
    rw [hsub, Option.bind_some]
    rcases i32TryFrom_cases (target - (fnVaddr + byteOffset.setWidth 64)).toInt with h | h
    · rw [h]
      exact Or.inl ⟨rfl, Or.inl (Or.inr (Or.inr (Or.inr h)))⟩
    have hstops : ¬ Reloc.Stops p ⟨byteOffset, .callSite c⟩ fnVaddr target bytes := by
      rintro (hlt | hover'' | hover'' | hrange)
      · exact hinside hlt
      · exact hover hover''
      · exact hover' hover''
      · cases h.symm.trans hrange
    rw [h, Option.bind_some]
    change (patchWord bytes byteOffset.toNat fun insn => patchBranch26 p insn _) = none ∧ _ ∨
      ∃ after, (patchWord bytes byteOffset.toNat fun insn => patchBranch26 p insn _) = some after ∧
        _
    rcases patchBranch26_spec p (wordAt bytes byteOffset.toNat)
      (target - (fnVaddr + byteOffset.setWidth 64)).toInt with
      ⟨hnone, hstop⟩ | ⟨w, hsome, hdebug, hbits, hreach⟩
    · exact Or.inl ⟨patchWord_of_none hnone, Or.inr hstop⟩
    · obtain ⟨after, hafter, hsame, rfl⟩ := patchWord_of_some
        (f := fun insn => patchBranch26 p insn _) hin hsome
      refine Or.inr ⟨after, hafter, hstops, hdebug, hsame, fun hfits => ⟨?_, ?_, hbits⟩⟩
      · rw [IsBranch, and_congr_of_and_not hbits (by decide)]
        exact hsite
      · exact add_ofInt_sub _ _ (hreach hfits)
  | page21 s =>
    dsimp only
    rcases p.checked_cases
      ((pageOf target).ssubOverflow (pageOf (fnVaddr + byteOffset.setWidth 64)))
      (pageOf target - pageOf (fnVaddr + byteOffset.setWidth 64)) with
      ⟨hsub, hover'⟩ | ⟨hsub, hover'⟩
    · rw [hsub]
      exact Or.inl ⟨rfl, Or.inl (Or.inr (Or.inr hover'))⟩
    have hstops : ¬ Reloc.Stops p ⟨byteOffset, .page21 s⟩ fnVaddr target bytes := by
      rintro (hlt | hover'' | hover'')
      · exact hinside hlt
      · exact hover hover''
      · exact hover' hover''
    rw [hsub, Option.bind_some]
    change (patchWord bytes byteOffset.toNat fun insn => patchPage21 p insn _) = none ∧ _ ∨
      ∃ after, (patchWord bytes byteOffset.toNat fun insn => patchPage21 p insn _) = some after ∧ _
    rcases patchPage21_spec p (wordAt bytes byteOffset.toNat)
      (pageOf_sub_and target (fnVaddr + byteOffset.setWidth 64)) with
      ⟨hnone, hstop⟩ | ⟨w, hsome, hdebug, hbits, hreach⟩
    · exact Or.inl ⟨patchWord_of_none hnone, Or.inr hstop⟩
    · obtain ⟨after, hafter, hsame, rfl⟩ := patchWord_of_some
        (f := fun insn => patchPage21 p insn _) hin hsome
      refine Or.inr ⟨after, hafter, hstops, hdebug, hsame, fun hfits => ⟨?_, ?_, hbits⟩⟩
      · rw [IsAdrp, and_congr_of_and_not hbits (by decide)]
        exact hsite
      · exact add_ofInt_sub _ _ (hreach hfits)
  | pageOff12 s =>
    dsimp only
    change (patchWord bytes byteOffset.toNat fun insn => patchPageoff12 p insn _) = none ∧ _ ∨
      ∃ after, (patchWord bytes byteOffset.toNat fun insn => patchPageoff12 p insn _) = some after ∧
        _
    obtain ⟨hoffset, hlt⟩ := pageOffset_lt target
    rcases patchPageoff12_spec p (hoffset.trans_lt hlt) hsite with
      ⟨hnone, hstop⟩ | ⟨w, hsome, hdvd, hbits, hreach⟩
    · rw [hoffset] at hstop
      exact Or.inl ⟨patchWord_of_none hnone, Or.inl (Or.inr (Or.inr hstop))⟩
    · rw [hoffset] at hdvd hreach
      have hstops : ¬ Reloc.Stops p ⟨byteOffset, .pageOff12 s⟩ fnVaddr target bytes := by
        rintro (hlt | hover' | hmis)
        · exact hinside hlt
        · exact hover hover'
        · exact hmis hdvd
      obtain ⟨after, hafter, hsame, rfl⟩ := patchWord_of_some
        (f := fun insn => patchPageoff12 p insn _) hin hsome
      refine Or.inr ⟨after, hafter, hstops, fun _ => hdvd, hsame, fun _ => ⟨?_, hreach, hbits⟩⟩
      rcases hsite with hadd | ⟨hclass, hsize⟩
      · refine Or.inl ?_
        rw [IsAddImm, and_congr_of_and_not hbits (by decide)]
        exact hadd
      · refine Or.inr ⟨?_, ?_⟩
        · rw [and_congr_of_and_not hbits (by decide)]
          exact hclass
        · rw [and_congr_of_and_not hbits (by decide), extractLsb_size_congr hbits]
          exact hsize
  | absPtr64 s =>
    dsimp only
    have hstops : ¬ Reloc.Stops p ⟨byteOffset, .absPtr64 s⟩ fnVaddr target bytes := by
      rintro (hlt | hover' | hfalse)
      · exact hinside hlt
      · exact hover hover'
      · exact hfalse
    obtain ⟨after, hafter, hsame, hnew⟩ := writeAt_of_le (quadBytes target) hin
    exact Or.inr ⟨after, hafter, hstops, fun _ => trivial, hsame, fun _ => quadAt_of_bytes hnew⟩

end One

/-! ### The relocations of a function -/

section All

variable {p : Profile} {t : Targets} {fnVaddr : BitVec 64}

/-- Reaching a target is a fact about the bytes of the site. -/
lemma RelocKind.Reaches.congr {kind : RelocKind} {site target : BitVec 64}
    {before before' after after' : List (BitVec 8)} {off : ℕ}
    (h : kind.Reaches site target before after off)
    (hbefore : ∀ j, off ≤ j → j < off + kind.width → before'.getD j 0 = before.getD j 0)
    (hafter : ∀ j, off ≤ j → j < off + kind.width → after'.getD j 0 = after.getD j 0) :
    kind.Reaches site target before' after' off := by
  cases kind with
  | callSite c =>
    rw [Reaches, wordAt_congr hbefore, wordAt_congr hafter]
    exact h
  | page21 s =>
    rw [Reaches, wordAt_congr hbefore, wordAt_congr hafter]
    exact h
  | pageOff12 s =>
    rw [Reaches, wordAt_congr hbefore, wordAt_congr hafter]
    exact h
  | absPtr64 s =>
    rw [Reaches, quadAt_congr hafter]
    exact h

/-- Sites with no byte in common. -/
def Apart (r s : Reloc) : Prop :=
  r.byteOffset.toNat + r.kind.width ≤ s.byteOffset.toNat ∨
    s.byteOffset.toNat + s.kind.width ≤ r.byteOffset.toNat

lemma Apart.getD {r s : Reloc} (h : Apart r s) {bytes after : List (BitVec 8)}
    (hsame : SameOutside bytes after r.byteOffset.toNat r.kind.width) (j : ℕ)
    (hlow : s.byteOffset.toNat ≤ j) (hhigh : j < s.byteOffset.toNat + s.kind.width) :
    after.getD j 0 = bytes.getD j 0 := by
  refine hsame.getD j ?_
  rcases h with h | h
  · exact Or.inr (by omega)
  · exact Or.inl (by omega)

/-- What a site asks of the image is in its own word. -/
lemma word_of_same {r : Reloc} {bytes after : List (BitVec 8)}
    (h : ∀ j, r.byteOffset.toNat ≤ j → j < r.byteOffset.toNat + r.kind.width →
      after.getD j 0 = bytes.getD j 0) :
    wordAt after r.byteOffset.toNat = wordAt bytes r.byteOffset.toNat := by
  have hwidth : 4 ≤ r.kind.width := by
    cases r.kind <;> simp [RelocKind.width]
  exact wordAt_congr fun j hlow hhigh => h j hlow (by omega)

/-- A relocation stops the link at the word of its site alone. -/
lemma stops_congr {r : Reloc} {target : BitVec 64} {bytes after : List (BitVec 8)}
    (hlen : after.length = bytes.length)
    (hword : wordAt after r.byteOffset.toNat = wordAt bytes r.byteOffset.toNat) :
    r.Stops p fnVaddr target after ↔ r.Stops p fnVaddr target bytes := by
  rw [Reloc.Stops, Reloc.Stops, hlen]
  cases r.kind <;> simp only [hword]

/-- The relocation is unresolved, stops the link, or fails a debug assertion. -/
def Reloc.Fails (p : Profile) (t : Targets) (r : Reloc) (fnVaddr : BitVec 64)
    (bytes : List (BitVec 8)) : Prop :=
  ∀ target, t.resolve r.kind = some target → r.Stops p fnVaddr target bytes ∨
    p.debugAssertions = true ∧
      ¬ r.kind.Fits (r.siteVaddr fnVaddr) target (wordAt bytes r.byteOffset.toNat)

lemma fails_congr {r : Reloc} {bytes after : List (BitVec 8)}
    (hlen : after.length = bytes.length)
    (hword : wordAt after r.byteOffset.toNat = wordAt bytes r.byteOffset.toNat) :
    r.Fails p t fnVaddr after ↔ r.Fails p t fnVaddr bytes := by
  rw [Reloc.Fails, Reloc.Fails, hword]
  exact forall_congr' fun target => imp_congr_right fun _ =>
    or_congr_left (stops_congr hlen hword)

/-- What applying the relocations of a function does: one of them fails, or every site is
patched and nothing else. -/
lemma applyAll_spec (p : Profile) (t : Targets) (fnVaddr : BitVec 64) (rs : List Reloc)
    (hapart : rs.Pairwise Apart) (bytes : List (BitVec 8))
    (hsite : ∀ r ∈ rs, r.kind.IsSiteWord (wordAt bytes r.byteOffset.toNat)) :
    (applyAll p t fnVaddr rs bytes = none ∧ ∃ r ∈ rs, r.Fails p t fnVaddr bytes) ∨
    ∃ after, applyAll p t fnVaddr rs bytes = some after ∧
      (∀ r ∈ rs, ¬ r.Fails p t fnVaddr bytes) ∧ after.length = bytes.length ∧
      (∀ j, (∀ r ∈ rs, j < r.byteOffset.toNat ∨ r.byteOffset.toNat + r.kind.width ≤ j) →
        after.getD j 0 = bytes.getD j 0) ∧
      ∀ r ∈ rs, ∃ target, t.resolve r.kind = some target ∧
        (r.kind.Fits (r.siteVaddr fnVaddr) target (wordAt bytes r.byteOffset.toNat) →
          r.kind.Reaches (r.siteVaddr fnVaddr) target bytes after r.byteOffset.toNat) := by
  induction rs generalizing bytes with
  | nil =>
    exact Or.inr ⟨bytes, rfl, fun r hr => absurd hr List.not_mem_nil, rfl, fun _ _ => rfl,
      fun r hr => absurd hr List.not_mem_nil⟩
  | cons r rs ih =>
    obtain ⟨hr, hrs⟩ := List.pairwise_cons.mp hapart
    rw [applyAll]
    dsimp only [Bind.bind]
    cases hresolve : t.resolve r.kind with
    | none =>
      refine Or.inl ⟨rfl, r, List.mem_cons_self, fun target htarget => ?_⟩
      rw [hresolve] at htarget
      cases htarget
    | some target =>
      rw [Option.bind_some]
      rcases applyOne_spec p r fnVaddr target (hsite r List.mem_cons_self) with
        ⟨hnone, hfails⟩ | ⟨mid, hmid, hstops, hdebug, hsame, hreaches⟩
      · rw [hnone]
        refine Or.inl ⟨rfl, r, List.mem_cons_self, fun target' htarget => ?_⟩
        rw [hresolve] at htarget
        obtain rfl := Option.some.inj htarget
        exact hfails
      · have hkept : ∀ s ∈ rs, ∀ j, s.byteOffset.toNat ≤ j →
            j < s.byteOffset.toNat + s.kind.width → mid.getD j 0 = bytes.getD j 0 :=
          fun s hs j hlow hhigh => (hr s hs).getD hsame j hlow hhigh
        have hword : ∀ s ∈ rs,
            wordAt mid s.byteOffset.toNat = wordAt bytes s.byteOffset.toNat :=
          fun s hs => word_of_same (hkept s hs)
        have hfails : ∀ s ∈ rs, s.Fails p t fnVaddr mid ↔ s.Fails p t fnVaddr bytes :=
          fun s hs => fails_congr hsame.length (hword s hs)
        have hsite' : ∀ s ∈ rs, s.kind.IsSiteWord (wordAt mid s.byteOffset.toNat) := by
          intro s hs
          rw [hword s hs]
          exact hsite s (List.mem_cons_of_mem _ hs)
        rw [hmid, Option.bind_some]
        rcases ih hrs mid hsite' with
          ⟨hnone, s, hs, hs'⟩ | ⟨after, hafter, hnofail, hlen, hframe, hsites⟩
        · exact Or.inl ⟨hnone, s, List.mem_cons_of_mem _ hs, (hfails s hs).mp hs'⟩
        · refine Or.inr ⟨after, hafter, ?_, hlen.trans hsame.length, ?_, ?_⟩
          · intro s hs hs'
            rcases List.mem_cons.mp hs with rfl | hs
            · rcases hs' target hresolve with h | ⟨hp, h⟩
              · exact hstops h
              · exact h (hdebug hp)
            · exact hnofail s hs ((hfails s hs).mpr hs')
          · intro j hj
            rw [hframe j fun s hs => hj s (List.mem_cons_of_mem _ hs)]
            exact hsame.getD j (hj r List.mem_cons_self)
          · intro s hs
            rcases List.mem_cons.mp hs with rfl | hs
            · refine ⟨target, hresolve, fun hfits => (hreaches hfits).congr (fun _ _ _ => rfl) ?_⟩
              intro j hlow hhigh
              refine hframe j fun s' hs' => ?_
              rcases hr s' hs' with h | h
              · exact Or.inl (by omega)
              · exact Or.inr (by omega)
            · obtain ⟨target', htarget', hreach'⟩ := hsites s hs
              refine ⟨target', htarget', fun hfits => ?_⟩
              rw [← hword s hs] at hfits
              exact (hreach' hfits).congr (fun j hlow hhigh => (hkept s hs j hlow hhigh).symm)
                fun _ _ _ => rfl

end All

/-! ### The functions -/

section Funcs

variable {p : Profile} {t : Targets}

/-- A function has a relocation that fails. -/
def FailsAt (p : Profile) (t : Targets) (fv : CompiledFunction × BitVec 64) : Prop :=
  ∃ r ∈ fv.1.relocs, r.Fails p t fv.2 fv.1.bytes

/-- What applying the relocations does over the functions. -/
lemma applyFuncs_spec (fvs : List (CompiledFunction × BitVec 64))
    (hwf : ∀ fv ∈ fvs, fv.1.WellFormed) :
    (applyFuncs p t fvs = none ∧ ∃ fv ∈ fvs, FailsAt p t fv) ∨
    ∃ out, applyFuncs p t fvs = some out ∧ (∀ fv ∈ fvs, ¬ FailsAt p t fv) ∧
      ((∀ fv ∈ fvs, FitsAll t fv) →
        List.Forall₂ (fun fv o => Patched t fv.1 fv.2 o) fvs out) := by
  induction fvs with
  | nil =>
    exact Or.inr ⟨[], rfl, fun fv hfv => absurd hfv List.not_mem_nil,
      fun _ => List.Forall₂.nil⟩
  | cons fv fvs ih =>
    obtain ⟨f, fnVaddr⟩ := fv
    have hf := hwf _ List.mem_cons_self
    rw [applyFuncs]
    dsimp only [Bind.bind]
    rcases applyAll_spec p t fnVaddr f.relocs hf.disjoint f.bytes hf.siteWord with
      ⟨hnone, hfails⟩ | ⟨after, hafter, hnofail, hlen, hframe, hsites⟩
    · rw [hnone]
      exact Or.inl ⟨rfl, _, List.mem_cons_self, hfails⟩
    · rw [hafter, Option.bind_some]
      rcases ih fun fv hfv => hwf fv (List.mem_cons_of_mem _ hfv) with
        ⟨hnone, fv, hfv, hfails⟩ | ⟨out, hout, hnofails, hpatched⟩
      · rw [hnone]
        exact Or.inl ⟨rfl, fv, List.mem_cons_of_mem _ hfv, hfails⟩
      · rw [hout]
        refine Or.inr ⟨_, rfl, ?_, fun hfits => List.Forall₂.cons ⟨rfl, rfl, hlen, ?_, hframe⟩
          (hpatched fun fv hfv => hfits fv (List.mem_cons_of_mem _ hfv))⟩
        · intro fv hfv
          rcases List.mem_cons.mp hfv with rfl | hfv
          · rintro ⟨r, hr, hfail⟩
            exact hnofail r hr hfail
          · exact hnofails fv hfv
        · intro r hr
          obtain ⟨target, htarget, hreach⟩ := hsites r hr
          exact ⟨target, htarget, hreach (hfits _ List.mem_cons_self r hr target htarget)⟩

/-- A relocation that does not fail under debug assertions fits. -/
lemma fitsAll_of_debug {fv : CompiledFunction × BitVec 64} (hp : p.debugAssertions = true)
    (h : ¬ FailsAt p t fv) : FitsAll t fv := by
  intro r hr target htarget
  by_contra hfits
  refine h ⟨r, hr, fun target' htarget' => Or.inr ⟨hp, ?_⟩⟩
  obtain rfl := Option.some.inj (htarget.symm.trans htarget')
  exact hfits

/-- **Linking is exact or refused exactly where nothing is truncated**: in builds with debug
assertions, where a relocation stops the link in any case, or where every displacement fits. -/
theorem exactOrRefused_iff (p : Profile) (t : Targets) (h : ∀ f ∈ t.funcs, f.WellFormed) :
    ExactOrRefused p t ↔ p.debugAssertions = true ∨ SomeStops p t ∨
      ∀ fv ∈ t.funcs.zip t.fnVaddrs, FitsAll t fv := by
  have hwf : ∀ fv ∈ t.funcs.zip t.fnVaddrs, fv.1.WellFormed :=
    fun fv hfv => h fv.1 (List.of_mem_zip hfv).1
  have hspec := applyFuncs_spec (p := p) (t := t) (t.funcs.zip t.fnVaddrs) hwf
  by_cases hlen : t.funcs.length = t.fnVaddrs.length
  · have hrun : applyRelocs p t = applyFuncs p t (t.funcs.zip t.fnVaddrs) := if_pos hlen
    rw [← hrun] at hspec
    constructor
    · intro hexact
      rcases hspec with ⟨-, fv, hfv, r, hr, hfail⟩ | ⟨out, hout, -, -⟩
      · by_cases hp : p.debugAssertions = true
        · exact Or.inl hp
        · refine Or.inr (Or.inl (Or.inr ⟨fv, hfv, r, hr, fun target htarget => ?_⟩))
          rcases hfail target htarget with hstops | ⟨hp', -⟩
          · exact hstops
          · exact absurd hp' hp
      · refine Or.inr (Or.inr fun fv hfv => ?_)
        by_contra hfits
        cases hout.symm.trans (hexact.refused ⟨fv, hfv, hfits⟩)
    · intro hcond
      rcases hspec with ⟨hnone, -⟩ | ⟨out, hout, hnofail, hpatched⟩
      · exact ⟨fun out hout => (by cases hnone.symm.trans hout), fun _ => hnone⟩
      · have hfits : ∀ fv ∈ t.funcs.zip t.fnVaddrs, FitsAll t fv := by
          rcases hcond with hp | (hne | ⟨fv, hfv, r, hr, hstops⟩) | hfits
          · exact fun fv hfv => fitsAll_of_debug hp (hnofail fv hfv)
          · exact absurd hlen hne
          · exact absurd ⟨r, hr, fun target htarget => Or.inl (hstops target htarget)⟩
              (hnofail fv hfv)
          · exact hfits
        refine ⟨fun out' hout' => ?_, fun ⟨fv, hfv, hno⟩ => absurd (hfits fv hfv) hno⟩
        obtain rfl := Option.some.inj (hout.symm.trans hout')
        exact hpatched hfits
  · have hnone : applyRelocs p t = none := if_neg hlen
    exact ⟨fun _ => Or.inr (Or.inl (Or.inl hlen)),
      fun _ => ⟨fun out hout => (by cases hnone.symm.trans hout), fun _ => hnone⟩⟩

end Funcs

/-! ### A truncated branch -/

/-- One call, to an extern symbol. -/
def oneCall (target : BitVec 64) : Targets where
  funcs := [⟨"_caller", [0x00, 0x00, 0x00, 0x94], [⟨0, .callSite (.externSym "_foo")⟩]⟩]
  fnVaddrs := [0x100000000]
  symTable := fun name => if name = "_foo" then some target else none

lemma oneCall_wellFormed (target : BitVec 64) : ∀ f ∈ (oneCall target).funcs, f.WellFormed := by
  intro f hf
  rw [oneCall, List.mem_singleton] at hf
  subst hf
  refine ⟨List.pairwise_singleton _ _, fun r hr => ?_⟩
  rw [List.mem_singleton] at hr
  subst hr
  change wordAt _ _ &&& 0x7C000000 = 0x14000000
  decide

/-- A call four bytes ahead. -/
theorem exactOrRefused_iff_oneCall :
    (∀ f ∈ (oneCall 0x100000004).funcs, f.WellFormed) ∧
      (ExactOrRefused .release (oneCall 0x100000004) ↔
        Profile.release.debugAssertions = true ∨ SomeStops .release (oneCall 0x100000004) ∨
          ∀ fv ∈ (oneCall 0x100000004).funcs.zip (oneCall 0x100000004).fnVaddrs,
            FitsAll (oneCall 0x100000004) fv) :=
  ⟨oneCall_wellFormed _, exactOrRefused_iff _ _ (oneCall_wellFormed _)⟩

/-- A release build links a call 128 MiB ahead, to 128 MiB behind. -/
theorem applyRelocs_truncated :
    applyRelocs .release (oneCall 0x108000000) =
        some [⟨"_caller", 0x100000000, [0x00, 0x00, 0x00, 0x96]⟩] ∧
      branchOffset (wordAt [0x00, 0x00, 0x00, 0x96] 0) = -2 ^ 27 ∧
      ¬ ExactOrRefused .release (oneCall 0x108000000) := by
  have hrun : applyRelocs .release (oneCall 0x108000000) =
      some [⟨"_caller", 0x100000000, [0x00, 0x00, 0x00, 0x96]⟩] := by decide +kernel
  refine ⟨hrun, by decide +kernel, fun hexact => ?_⟩
  obtain ⟨hpatched, -⟩ := List.forall₂_cons.mp (hexact.exact _ hrun)
  obtain ⟨target, htarget, -, hreach, -⟩ := hpatched.sites ⟨0, .callSite (.externSym "_foo")⟩
    (by decide +kernel)
  have hresolve : (oneCall 0x108000000).resolve (.callSite (.externSym "_foo")) =
      some 0x108000000 := by decide +kernel
  obtain rfl := Option.some.inj (hresolve.symm.trans htarget)
  revert hreach
  decide +kernel

end Torajs.Link
