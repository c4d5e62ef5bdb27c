import ToraJs.Str.NormalForm

/-!
# Composition against its definition

A composite decomposes as its two parts do, so composing a decomposed text keeps its
decomposition.  The loop of the code follows the definition until a starter arrives that has a
composite with the last starter while marks stand between the two: the definition blocks it, and
the loop combines them.  From there on the two texts stay apart.
-/

namespace Torajs.Str

open ClassOrder

variable {T : NormTables}

/-! ### Composites -/

/-- A syllable is decomposed into its letters. -/
lemma decomposeRecurse_hangul {cp : ℕ} (h : isHangulSyllable cp = true) (compat : Bool) :
    decomposeRecurse T compat cp = hangulDecompose cp := by
  rw [decomposeRecurse, if_pos h]

/-- A letter is its own decomposition. -/
lemma decomposeRecurse_jamo {cp : ℕ} (h : isJamo cp = true) (compat : Bool) :
    decomposeRecurse T compat cp = [cp] :=
  decomposeRecurse_of_none (mapping_jamo h compat)

/-- What is composed to a syllable: a leading consonant and a vowel, or a syllable without a
trailing consonant and one. -/
lemma hangulCompose_cases {a b p : ℕ} (h : hangulCompose a b = some p) :
    (∃ l v, l < lCount ∧ v < vCount ∧ a = lBase + l ∧ b = vBase + v ∧
        p = sBase + (l * vCount + v) * tCount) ∨
      ∃ lv t, lv < lCount * vCount ∧ 0 < t ∧ t < tCount ∧ a = sBase + lv * tCount ∧
        b = tBase + t ∧ p = sBase + lv * tCount + t := by
  unfold hangulCompose at h
  split_ifs at h with hlv hlvt
  · refine Or.inl ⟨a - lBase, b - vBase, ?_, ?_, ?_, ?_, (Option.some.inj h).symm⟩ <;> omega
  · have hdiv := Nat.div_add_mod (a - sBase) tCount
    rw [hlvt.2.1, Nat.add_zero, Nat.mul_comm] at hdiv
    refine Or.inr ⟨(a - sBase) / tCount, b - tBase, ?_, by omega, by omega, by omega, by omega, ?_⟩
    · refine Nat.div_lt_of_lt_mul ?_
      have hlt := hlvt.1.2
      unfold sCount nCount at hlt
      rw [show tCount * (lCount * vCount) = lCount * (vCount * tCount) by decide]
      omega
    · have hp := Option.some.inj h
      omega

/-- The letters of the syllable with given indices. -/
lemma hangulDecompose_index {l v t : ℕ} (hv : v < vCount) (ht : t < tCount) :
    hangulDecompose (sBase + (l * vCount + v) * tCount + t) =
      if t = 0 then [lBase + l, vBase + v] else [lBase + l, vBase + v, tBase + t] := by
  have hindex : sBase + (l * vCount + v) * tCount + t - sBase = (l * vCount + v) * tCount + t := by
    omega
  have hl : ((l * vCount + v) * tCount + t) / nCount = l := by
    simp only [nCount, vCount, tCount] at *
    omega
  have hv' : ((l * vCount + v) * tCount + t) % nCount / tCount = v := by
    simp only [nCount, vCount, tCount] at *
    omega
  have ht' : ((l * vCount + v) * tCount + t) % tCount = t := by
    simp only [vCount, tCount] at *
    omega
  unfold hangulDecompose
  simp only [hindex, hl, hv', ht']
  by_cases h0 : t = 0
  · simp [h0]
  · simp [h0]

/-- Numbers in range give a syllable. -/
lemma isHangulSyllable_index {l v t : ℕ} (hl : l < lCount) (hv : v < vCount) (ht : t < tCount) :
    isHangulSyllable (sBase + (l * vCount + v) * tCount + t) = true := by
  unfold isHangulSyllable
  simp only [Bool.and_eq_true, decide_eq_true_eq]
  simp only [sBase, sCount, nCount, lCount, vCount, tCount] at *
  omega

/-- A composed syllable is a syllable, and its letters are those of its two parts. -/
lemma decomposeRecurse_hangulCompose {a b p : ℕ} (h : hangulCompose a b = some p)
    (compat : Bool) : isHangulSyllable p = true ∧ decomposeRecurse T compat p =
      decomposeRecurse T compat a ++ decomposeRecurse T compat b := by
  rcases hangulCompose_cases h with ⟨l, v, hl, hv, ha, hb, hp⟩ | ⟨lv, t, hlv, h0, ht, ha, hb, hp⟩
  · have hsyl := isHangulSyllable_index hl hv (t := 0) (by decide)
    have hletters := hangulDecompose_index (l := l) hv (t := 0) (by decide)
    rw [Nat.add_zero, ← hp] at hsyl hletters
    have hja : isJamo a = true := by simp [isJamo, ha, hl]
    have hjb : isJamo b = true := by simp [isJamo, hb, hv]
    refine ⟨hsyl, ?_⟩
    rw [decomposeRecurse_hangul hsyl, decomposeRecurse_jamo hja, decomposeRecurse_jamo hjb,
      hletters, ha, hb]
    rfl
  · obtain ⟨l, v, hl, hv, rfl⟩ : ∃ l v, l < lCount ∧ v < vCount ∧ lv = l * vCount + v := by
      refine ⟨lv / vCount, lv % vCount, Nat.div_lt_of_lt_mul (by rwa [Nat.mul_comm]),
        Nat.mod_lt lv (by decide), ?_⟩
      rw [Nat.mul_comm]
      exact (Nat.div_add_mod lv vCount).symm
    have hsyl := isHangulSyllable_index hl hv ht
    have hletters := hangulDecompose_index (l := l) hv ht
    have hsylA := isHangulSyllable_index hl hv (t := 0) (by decide)
    have hlettersA := hangulDecompose_index (l := l) hv (t := 0) (by decide)
    rw [Nat.add_zero, ← ha] at hsylA hlettersA
    rw [← hp] at hsyl hletters
    have hjb : isJamo b = true := by simp [isJamo, hb, h0, ht]
    refine ⟨hsyl, ?_⟩
    rw [decomposeRecurse_hangul hsyl, decomposeRecurse_hangul hsylA, decomposeRecurse_jamo hjb,
      hletters, hlettersA, if_neg (by omega), if_pos rfl, hb]
    rfl

/-- A composite decomposes as its two parts do. -/
theorem decomposeRecurse_primaryComposite {a b p : ℕ} (h : primaryComposite T a b = some p)
    (compat : Bool) : decomposeRecurse T compat p =
      decomposeRecurse T compat a ++ decomposeRecurse T compat b := by
  unfold primaryComposite at h
  split at h
  · rename_i hh
    obtain rfl := Option.some.inj h
    exact (decomposeRecurse_hangulCompose hh compat).2
  · have hm : mapping T compat p = some [a, b] := by
      unfold mapping
      rw [T.composite_not_hangul a b p h, T.composite_decomp a b p h]
      simp
    rw [decomposeRecurse_of_some hm]
    simp

/-- A composite is a starter. -/
theorem primaryComposite_starter {a b p : ℕ} (h : primaryComposite T a b = some p) :
    T.lookupCcc p = 0 := by
  unfold primaryComposite at h
  split at h
  · rename_i hh
    obtain rfl := Option.some.inj h
    exact T.hangul_starter _ (decomposeRecurse_hangulCompose (T := T) hh false).1
  · exact T.composite_starter a b p h

/-! ### The definition of composition -/

/-- A text has one last starter. -/
lemma IsLastStarter.unique {xs pre pre' between between' : List ℕ} {s s' : ℕ}
    (h : IsLastStarter T xs pre s between) (h' : IsLastStarter T xs pre' s' between') :
    pre = pre' ∧ s = s' ∧ between = between' := by
  have hsplit := h.split.symm.trans h'.split
  rcases List.append_eq_append_iff.mp hsplit with ⟨us, hus, hvs⟩ | ⟨us, hus, hvs⟩
  · cases us with
    | nil => simp_all
    | cons u us =>
      rw [List.cons_append, List.cons.injEq] at hvs
      exact absurd h'.starter (h.last s' (hvs.2 ▸ by simp))
  · cases us with
    | nil => simp_all
    | cons u us =>
      rw [List.cons_append, List.cons.injEq] at hvs
      exact absurd h.starter (h'.last s (hvs.2 ▸ by simp))

/-- A text with a starter has a last one, and otherwise all its characters are marks. -/
lemma exists_isLastStarter (T : NormTables) (xs : List ℕ) :
    (∃ pre s between, IsLastStarter T xs pre s between) ∨ ∀ x ∈ xs, T.lookupCcc x ≠ 0 := by
  induction xs with
  | nil => exact Or.inr (by simp)
  | cons x xs ih =>
    rcases ih with ⟨pre, s, between, h⟩ | h
    · exact Or.inl ⟨x :: pre, s, between, by rw [h.split, List.cons_append], h.starter, h.last⟩
    · by_cases hx : T.lookupCcc x = 0
      · exact Or.inl ⟨[], x, xs, rfl, hx, h⟩
      · exact Or.inr (List.forall_mem_cons.mpr ⟨hx, h⟩)

/-- The next character has one effect. -/
lemma ComposesTo.unique {xs ys zs : List ℕ} {c : ℕ} (h : ComposesTo T xs c ys)
    (h' : ComposesTo T xs c zs) : ys = zs := by
  cases h with
  | combine hs hb hp =>
    cases h' with
    | combine hs' hb' hp' =>
      obtain ⟨rfl, rfl, rfl⟩ := hs.unique hs'
      rw [Option.some.inj (hp.symm.trans hp')]
    | keep h' =>
      rcases h' _ _ _ hs with hb' | hp'
      · exact absurd hb' hb
      · exact absurd (hp.symm.trans hp') (by simp)
  | keep h =>
    cases h' with
    | combine hs' hb' hp' =>
      rcases h _ _ _ hs' with hb | hp
      · exact absurd hb hb'
      · exact absurd (hp'.symm.trans hp) (by simp)
    | keep _ => rfl

/-- The next character has an effect. -/
lemma exists_composesTo (T : NormTables) (xs : List ℕ) (c : ℕ) : ∃ ys, ComposesTo T xs c ys := by
  by_cases h : ∃ pre s between p, IsLastStarter T xs pre s between ∧ ¬ Blocked T between c ∧
      primaryComposite T s c = some p
  · obtain ⟨pre, s, between, p, hs, hb, hp⟩ := h
    exact ⟨_, .combine hs hb hp⟩
  · refine ⟨_, .keep fun pre s between hs => ?_⟩
    by_cases hb : Blocked T between c
    · exact Or.inl hb
    · refine Or.inr (Option.eq_none_iff_forall_ne_some.mpr fun p hp => ?_)
      exact h ⟨pre, s, between, p, hs, hb, hp⟩

/-- Composing a text with one more character. -/
lemma isComposition_snoc {xs zs : List ℕ} {c : ℕ} :
    IsComposition T (xs ++ [c]) zs ↔ ∃ ys, IsComposition T xs ys ∧ ComposesTo T ys c zs := by
  constructor
  · intro h
    generalize hw : xs ++ [c] = w at h
    cases h with
    | nil => exact absurd hw (by simp)
    | step h hc =>
      obtain ⟨rfl, hcc⟩ := List.append_inj' hw rfl
      obtain rfl := List.singleton_inj.mp hcc
      exact ⟨_, h, hc⟩
  · rintro ⟨ys, h, hc⟩
    exact .step h hc

/-- A text has one composition. -/
theorem IsComposition.unique {xs ys zs : List ℕ} (h : IsComposition T xs ys)
    (h' : IsComposition T xs zs) : ys = zs := by
  induction h generalizing zs with
  | nil =>
    generalize hw : ([] : List ℕ) = w at h'
    cases h' with
    | nil => rfl
    | step _ _ => exact absurd hw.symm (by simp)
  | step _ hc ih =>
    obtain ⟨us, hu, hc'⟩ := isComposition_snoc.mp h'
    obtain rfl := ih hu
    exact hc.unique hc'

/-- The marks of a composition are those of the text. -/
lemma IsComposition.mem_of_mark {xs ys : List ℕ} (h : IsComposition T xs ys) {y : ℕ}
    (hy : y ∈ ys) (hmark : T.lookupCcc y ≠ 0) : y ∈ xs := by
  induction h with
  | nil => exact hy
  | step _ hc ih =>
    cases hc with
    | combine hs _ hp =>
      rw [List.mem_append, List.mem_cons] at hy
      refine List.mem_append_left _ (ih ?_)
      rw [hs.split, List.mem_append, List.mem_cons]
      rcases hy with hy | rfl | hy
      · exact Or.inl hy
      · exact absurd (primaryComposite_starter hp) hmark
      · exact Or.inr (Or.inr hy)
    | keep _ =>
      rcases List.mem_append.mp hy with hy | hy
      · exact List.mem_append_left _ (ih hy)
      · exact List.mem_append_right _ hy

/-- The composition of a text without mappings decomposes to the text, up to canonical order and
whatever follows. -/
lemma IsComposition.order_flatMap {compat : Bool} {xs ys : List ℕ} (h : IsComposition T xs ys)
    (hxs : ∀ x ∈ xs, mapping T compat x = none) (rest : List ℕ) :
    order T.lookupCcc (ys.flatMap (decomposeRecurse T compat) ++ rest) =
      order T.lookupCcc (xs ++ rest) := by
  induction h generalizing rest with
  | nil => rfl
  | @step xs ys zs c hcomp hc ih =>
    have hc' := decomposeRecurse_of_none (hxs c (by simp))
    have hprev := ih (fun x hx => hxs x (List.mem_append_left _ hx)) (c :: rest)
    rw [List.append_assoc, List.singleton_append, ← hprev]
    cases hc with
    | keep _ =>
      rw [List.flatMap_append, List.flatMap_singleton, hc', List.append_assoc,
        List.singleton_append]
    | @combine pre between s _ p hs hb hp =>
      have hmarks : between.flatMap (decomposeRecurse T compat) = between := by
        refine flatMap_decomposeRecurse_of_final fun b hbm => hxs b (List.mem_append_left _ ?_)
        refine hcomp.mem_of_mark ?_ (hs.last b hbm)
        rw [hs.split]
        simp [hbm]
      -- the character moves over marks of smaller classes to the starter
      have hmove : ∀ us : List ℕ, order T.lookupCcc (us ++ between ++ c :: rest) =
          order T.lookupCcc (us ++ c :: between ++ rest) := by
        intro us
        rcases Nat.eq_zero_or_pos (T.lookupCcc c) with hzero | hpos
        · cases between with
          | nil => simp
          | cons b bs => exact absurd ⟨b, List.mem_cons_self, Or.inr (by omega)⟩ hb
        · refine order_move hpos (fun m hm => ?_) us rest
          have hlast := hs.last m hm
          refine ⟨by omega, fun heq => hb ⟨m, hm, Or.inr (by omega)⟩⟩
      have h := hmove (pre.flatMap (decomposeRecurse T compat) ++ decomposeRecurse T compat s)
      rw [hs.split]
      simp only [List.flatMap_append, List.flatMap_cons, hmarks,
        decomposeRecurse_primaryComposite hp compat, hc', List.append_assoc, List.cons_append,
        List.nil_append] at h ⊢
      exact h.symm

/-- The composition of a decomposition decomposes to it. -/
theorem IsComposition.decompose_eq {compat : Bool} {xs ys : List ℕ}
    (h : IsComposition T (decompose T compat xs) ys) :
    decompose T compat ys = decompose T compat xs := by
  have horder := h.order_flatMap (fun x hx => mapping_of_mem_decompose hx) []
  have hordered : Ordered T.lookupCcc (decompose T compat xs) :=
    (isOrderOf_canonicalOrder _).ordered
  rw [List.append_nil, List.append_nil, order_of_ordered hordered] at horder
  rw [decompose_eq_order, horder]

end Torajs.Str
