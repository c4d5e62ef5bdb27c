import ToraJs.Str.Normalize

/-!
# The definitions of the normalization forms

What UAX #15 asks for, stated without the algorithm: a decomposition is reached by replacing code
points by their mappings until none has one, the canonical order by exchanging reorderable pairs
until there is none, and a composition by going through the text and combining each character
with the last starter unless it is blocked from it.  The first two are what the code computes.
-/

namespace Torajs.Str

open ClassOrder

variable (T : NormTables)

/-! ### Definitions -/

/-- The mapping of a code point, with Hangul by arithmetic. -/
def mapping (compat : Bool) (cp : ℕ) : Option (List ℕ) :=
  if isHangulSyllable cp then some (hangulDecompose cp)
  else
    match T.lookupDecomp cp with
    | some (targets, isCompat) => if compat || !isCompat then some targets else none
    | none => none

/-- A code point is replaced by its mapping. -/
inductive MapStep (compat : Bool) : List ℕ → List ℕ → Prop
  | map (xs : List ℕ) {cp : ℕ} {t : List ℕ} (ys : List ℕ) (h : mapping T compat cp = some t) :
      MapStep compat (xs ++ cp :: ys) (xs ++ t ++ ys)

/-- The full decomposition: mappings are applied until there is none. -/
structure IsDecomposition (compat : Bool) (xs ys : List ℕ) : Prop where
  reached : Relation.ReflTransGen (MapStep T compat) xs ys
  final : ∀ y ∈ ys, mapping T compat y = none

/-- A character is blocked from the starter in front of `between` by one of class 0 or of at
least its own class. -/
def Blocked (between : List ℕ) (c : ℕ) : Prop :=
  ∃ b ∈ between, T.lookupCcc b = 0 ∨ T.lookupCcc c ≤ T.lookupCcc b

/-- The last starter of a text, with what is in front of it and behind it. -/
structure IsLastStarter (xs pre : List ℕ) (s : ℕ) (between : List ℕ) : Prop where
  split : xs = pre ++ s :: between
  starter : T.lookupCcc s = 0
  last : ∀ b ∈ between, T.lookupCcc b ≠ 0

/-- The next character of a text is combined with the last starter when it is not blocked from it
and they have a primary composite, and kept otherwise. -/
inductive ComposesTo : List ℕ → ℕ → List ℕ → Prop
  | combine {xs pre between : List ℕ} {s c p : ℕ} (hs : IsLastStarter T xs pre s between)
      (hb : ¬ Blocked T between c) (hp : primaryComposite T s c = some p) :
      ComposesTo xs c (pre ++ p :: between)
  | keep {xs : List ℕ} {c : ℕ}
      (h : ∀ pre s between, IsLastStarter T xs pre s between →
        Blocked T between c ∨ primaryComposite T s c = none) :
      ComposesTo xs c (xs ++ [c])

/-- The canonical composition of a text. -/
inductive IsComposition : List ℕ → List ℕ → Prop
  | nil : IsComposition [] []
  | step {xs ys zs : List ℕ} {c : ℕ} (h : IsComposition xs ys) (hc : ComposesTo T ys c zs) :
      IsComposition (xs ++ [c]) zs

/-- The form of a text. -/
def IsForm (form : NormForm) (xs ys : List ℕ) : Prop :=
  ∃ us ds, IsDecomposition T form.flags.1 xs us ∧ IsOrderOf T.lookupCcc us ds ∧
    if form.flags.2 then IsComposition T ds ys else ys = ds

/-! ### Decomposition -/

variable {T}

/-- The decomposition of a code point without a mapping. -/
lemma decomposeRecurse_of_none {compat : Bool} {cp : ℕ} (h : mapping T compat cp = none) :
    decomposeRecurse T compat cp = [cp] := by
  unfold mapping at h
  rw [decomposeRecurse]
  split_ifs at h with hs
  rw [if_neg hs]
  split
  · rename_i targets isCompat hd
    rw [hd] at h
    dsimp only at h
    split_ifs at h with hc
    rw [if_neg hc]
  · rfl

/-- A letter of Hangul has no mapping. -/
lemma mapping_jamo {cp : ℕ} (h : isJamo cp = true) (compat : Bool) :
    mapping T compat cp = none := by
  have hs : ¬ isHangulSyllable cp = true := by
    unfold isJamo isHangulSyllable at *
    simp only [Bool.or_eq_true, Bool.and_eq_true, decide_eq_true_eq] at *
    unfold lBase lCount vBase vCount tBase tCount sBase sCount at *
    omega
  rw [mapping, if_neg hs, T.jamo_decomp cp h]

/-- The letters of a syllable are letters. -/
lemma isJamo_of_mem_hangulDecompose {cp x : ℕ} (h : isHangulSyllable cp = true)
    (hx : x ∈ hangulDecompose cp) : isJamo x = true := by
  unfold isHangulSyllable at h
  unfold isJamo
  simp only [Bool.and_eq_true, decide_eq_true_eq, Bool.or_eq_true] at *
  unfold hangulDecompose at hx
  dsimp only at hx
  split at hx
  · rename_i ht
    simp only [List.mem_cons, List.not_mem_nil, or_false] at hx
    simp only [sBase, sCount, lCount, nCount, vCount, tCount, lBase, vBase, tBase] at *
    rcases hx with hx | hx | hx <;> omega
  · simp only [List.mem_cons, List.not_mem_nil, or_false] at hx
    simp only [sBase, sCount, lCount, nCount, vCount, tCount, lBase, vBase, tBase] at *
    rcases hx with hx | hx <;> omega

/-- The decomposition of a code point with a mapping is that of its mapping. -/
lemma decomposeRecurse_of_some {compat : Bool} {cp : ℕ} {t : List ℕ}
    (h : mapping T compat cp = some t) :
    decomposeRecurse T compat cp = t.flatMap (decomposeRecurse T compat) := by
  unfold mapping at h
  rw [decomposeRecurse]
  split_ifs at h with hs
  · rw [if_pos hs]
    obtain rfl := Option.some.inj h
    have hid : ∀ l : List ℕ, (∀ x ∈ l, isJamo x = true) →
        l.flatMap (decomposeRecurse T compat) = l := by
      intro l hl
      induction l with
      | nil => rfl
      | cons x l ih =>
        rw [List.flatMap_cons, ih fun y hy => hl y (List.mem_cons_of_mem x hy),
          decomposeRecurse_of_none (mapping_jamo (hl x List.mem_cons_self) compat)]
        rfl
    exact (hid _ fun x hx => isJamo_of_mem_hangulDecompose hs hx).symm
  · rw [if_neg hs]
    split
    · rename_i targets isCompat hd
      rw [hd] at h
      dsimp only at h
      split_ifs at h with hc
      obtain rfl := Option.some.inj h
      rw [if_pos hc]
      conv_rhs => rw [← List.attach_map_subtype_val targets, List.flatMap_map]
    · rename_i hd
      rw [hd] at h
      exact absurd h (by simp)

/-- The parts of a mapping are less deep. -/
lemma depth_lt_of_mapping {compat : Bool} {cp x : ℕ} {t : List ℕ}
    (h : mapping T compat cp = some t) (hx : x ∈ t) :
    mapping T compat x = none ∨ T.depth x < T.depth cp := by
  unfold mapping at h
  split_ifs at h with hs
  · obtain rfl := Option.some.inj h
    exact Or.inl (mapping_jamo (isJamo_of_mem_hangulDecompose hs hx) compat)
  · split at h
    · rename_i targets isCompat hd
      split_ifs at h with hc
      obtain rfl := Option.some.inj h
      exact Or.inr (T.depth_lt cp _ _ hd x hx)
    · exact absurd h (by simp)

/-- Code points without mappings are their own decomposition. -/
lemma flatMap_decomposeRecurse_of_final {compat : Bool} {ys : List ℕ}
    (h : ∀ y ∈ ys, mapping T compat y = none) : ys.flatMap (decomposeRecurse T compat) = ys := by
  induction ys with
  | nil => rfl
  | cons y ys ih =>
    rw [List.flatMap_cons, ih fun x hx => h x (List.mem_cons_of_mem y hx),
      decomposeRecurse_of_none (h y List.mem_cons_self)]
    rfl

/-- The decomposition of a code point has no mappings left. -/
lemma mapping_of_mem_decomposeRecurse {compat : Bool} {cp x : ℕ}
    (hx : x ∈ decomposeRecurse T compat cp) : mapping T compat x = none := by
  induction hd : T.depth cp using Nat.strongRecOn generalizing cp with
  | ind d ih =>
    cases hm : mapping T compat cp with
    | none =>
      rw [decomposeRecurse_of_none hm, List.mem_singleton] at hx
      rw [hx, hm]
    | some t =>
      rw [decomposeRecurse_of_some hm] at hx
      obtain ⟨sub, hsub, hx⟩ := List.mem_flatMap.mp hx
      rcases depth_lt_of_mapping hm hsub with hnone | hlt
      · rw [decomposeRecurse_of_none hnone, List.mem_singleton] at hx
        rw [hx, hnone]
      · exact ih (T.depth sub) (hd ▸ hlt) hx rfl

/-- A step in a part is a step in the whole. -/
lemma MapStep.append {compat : Bool} {xs ys : List ℕ} (us vs : List ℕ)
    (h : MapStep T compat xs ys) : MapStep T compat (us ++ xs ++ vs) (us ++ ys ++ vs) := by
  obtain ⟨xs, ys, h⟩ := h
  have hstep := MapStep.map (us ++ xs) (ys ++ vs) h
  simpa only [List.append_assoc, List.cons_append] using hstep

/-- Steps in a part are steps in the whole. -/
lemma mapped_append {compat : Bool} {xs ys : List ℕ} (us vs : List ℕ)
    (h : Relation.ReflTransGen (MapStep T compat) xs ys) :
    Relation.ReflTransGen (MapStep T compat) (us ++ xs ++ vs) (us ++ ys ++ vs) := by
  induction h with
  | refl => exact Relation.ReflTransGen.refl
  | tail _ hstep ih => exact ih.tail (hstep.append us vs)

/-- When each code point reaches its decomposition, a text reaches that of its code points. -/
lemma mapped_flatMap {compat : Bool} {xs : List ℕ}
    (h : ∀ x ∈ xs, Relation.ReflTransGen (MapStep T compat) [x] (decomposeRecurse T compat x)) :
    Relation.ReflTransGen (MapStep T compat) xs (xs.flatMap (decomposeRecurse T compat)) := by
  induction xs with
  | nil => exact Relation.ReflTransGen.refl
  | cons x xs ih =>
    have hhead := mapped_append [] xs (h x List.mem_cons_self)
    have htail := mapped_append (decomposeRecurse T compat x) []
      (ih fun y hy => h y (List.mem_cons_of_mem x hy))
    rw [List.append_nil, List.append_nil] at htail
    exact hhead.trans htail

/-- A code point reaches its decomposition. -/
lemma mapped_decomposeRecurse (compat : Bool) (cp : ℕ) :
    Relation.ReflTransGen (MapStep T compat) [cp] (decomposeRecurse T compat cp) := by
  induction hd : T.depth cp using Nat.strongRecOn generalizing cp with
  | ind d ih =>
    cases hm : mapping T compat cp with
    | none =>
      exact (decomposeRecurse_of_none hm).symm ▸ Relation.ReflTransGen.refl
    | some t =>
      rw [decomposeRecurse_of_some hm]
      have hstep := MapStep.map [] [] hm
      rw [List.nil_append, List.nil_append, List.append_nil] at hstep
      refine Relation.ReflTransGen.head hstep (mapped_flatMap fun sub hsub => ?_)
      rcases depth_lt_of_mapping hm hsub with hnone | hlt
      · exact (decomposeRecurse_of_none hnone).symm ▸ Relation.ReflTransGen.refl
      · exact ih (T.depth sub) (hd ▸ hlt) sub rfl

/-- The code decomposes fully. -/
theorem isDecomposition_flatMap (compat : Bool) (xs : List ℕ) :
    IsDecomposition T compat xs (xs.flatMap (decomposeRecurse T compat)) := by
  refine ⟨mapped_flatMap fun x _ => mapped_decomposeRecurse compat x, fun y hy => ?_⟩
  obtain ⟨x, -, hy⟩ := List.mem_flatMap.mp hy
  exact mapping_of_mem_decomposeRecurse hy

/-- There is one full decomposition only. -/
theorem IsDecomposition.eq_flatMap {compat : Bool} {xs ys : List ℕ}
    (h : IsDecomposition T compat xs ys) : ys = xs.flatMap (decomposeRecurse T compat) := by
  have hinv : ∀ zs, Relation.ReflTransGen (MapStep T compat) xs zs →
      xs.flatMap (decomposeRecurse T compat) = zs.flatMap (decomposeRecurse T compat) := by
    intro zs hzs
    induction hzs with
    | refl => rfl
    | tail _ hstep ih =>
      rw [ih]
      obtain ⟨us, vs, hm⟩ := hstep
      simp only [List.flatMap_append, List.flatMap_cons, decomposeRecurse_of_some hm,
        List.append_assoc]
  rw [hinv ys h.reached, flatMap_decomposeRecurse_of_final h.final]

/-! ### Canonical order -/

/-- A pass swaps its element with a following one of a smaller class. -/
lemma bubblePass_of_gt {x y : ℕ} (h : T.lookupCcc y < T.lookupCcc x) (ys : List ℕ) :
    bubblePass T x (y :: ys) = (true, y :: (bubblePass T x ys).2) := if_pos h

/-- A pass goes on with a following element of no smaller class. -/
lemma bubblePass_of_le {x y : ℕ} (h : T.lookupCcc x ≤ T.lookupCcc y) (ys : List ℕ) :
    bubblePass T x (y :: ys) = ((bubblePass T y ys).1, x :: (bubblePass T y ys).2) :=
  if_neg (by omega)

/-- A pass exchanges reorderable pairs only. -/
lemma bubblePass_reached (x : ℕ) {xs : List ℕ} (h : ∀ y ∈ xs, 0 < T.lookupCcc y) :
    Relation.ReflTransGen (Exchange T.lookupCcc) (x :: xs) (bubblePass T x xs).2 := by
  induction xs generalizing x with
  | nil => exact Relation.ReflTransGen.refl
  | cons y ys ih =>
    have hys : ∀ z ∈ ys, 0 < T.lookupCcc z := fun z hz => h z (List.mem_cons_of_mem y hz)
    by_cases hgt : T.lookupCcc y < T.lookupCcc x
    · have hswap := Exchange.swap [] ys hgt (h y List.mem_cons_self)
      have hrest := reached_append [y] [] (ih x hys)
      rw [List.append_nil, List.append_nil] at hrest
      rw [bubblePass_of_gt hgt]
      exact Relation.ReflTransGen.head hswap hrest
    · have hrest := reached_append [x] [] (ih y hys)
      rw [List.append_nil, List.append_nil] at hrest
      rw [bubblePass_of_le (by omega)]
      exact hrest

/-- The classes do not decrease. -/
def Rising (T : NormTables) (xs : List ℕ) : Prop :=
  xs.IsChain fun a b => T.lookupCcc a ≤ T.lookupCcc b

/-- A pass over a run in order leaves it as it is. -/
lemma bubblePass_of_rising {x : ℕ} {xs : List ℕ} (h : Rising T (x :: xs)) :
    (bubblePass T x xs).2 = x :: xs := by
  induction xs generalizing x with
  | nil => rfl
  | cons y ys ih =>
    have hxy := List.isChain_cons_cons.mp h
    rw [bubblePass_of_le hxy.1, ih hxy.2]

/-- A pass that has not swapped has found the run in order. -/
lemma rising_of_not_swapped {x : ℕ} {xs : List ℕ} (h : (bubblePass T x xs).1 = false) :
    Rising T (x :: xs) := by
  induction xs generalizing x with
  | nil => exact List.isChain_singleton x
  | cons y ys ih =>
    by_cases hgt : T.lookupCcc y < T.lookupCcc x
    · rw [bubblePass_of_gt hgt] at h
      exact absurd h Bool.true_eq_false.mp
    · rw [bubblePass_of_le (by omega)] at h
      exact List.isChain_cons_cons.mpr ⟨by omega, ih h⟩

/-- A pass takes an element of the greatest class to the end, in front of a part that is in order
behind all others. -/
lemma bubblePass_append (x : ℕ) (xs : List ℕ) {B : List ℕ} (hB : Rising T B)
    (hle : ∀ a ∈ x :: xs, ∀ b ∈ B, T.lookupCcc a ≤ T.lookupCcc b) :
    ∃ A M, (bubblePass T x (xs ++ B)).2 = A ++ M :: B ∧ (A ++ [M]).Perm (x :: xs) ∧
      ∀ a ∈ x :: xs, T.lookupCcc a ≤ T.lookupCcc M := by
  induction xs generalizing x with
  | nil =>
    refine ⟨[], x, ?_, List.Perm.refl _, by simp⟩
    exact bubblePass_of_rising
      (hB.cons fun y hy => hle x List.mem_cons_self y (List.mem_of_mem_head? hy))
  | cons y ys ih =>
    by_cases hgt : T.lookupCcc y < T.lookupCcc x
    · have hsub : ∀ a ∈ x :: ys, a ∈ x :: y :: ys := by
        intro a ha
        rcases List.mem_cons.mp ha with rfl | ha
        · exact List.mem_cons_self
        · exact List.mem_cons_of_mem x (List.mem_cons_of_mem y ha)
      obtain ⟨A, M, heq, hperm, hM⟩ := ih x fun a ha => hle a (hsub a ha)
      refine ⟨y :: A, M, ?_, (hperm.cons y).trans (List.Perm.swap x y ys), fun a ha => ?_⟩
      · rw [List.cons_append, bubblePass_of_gt hgt, heq]
        rfl
      · have hx := hM x List.mem_cons_self
        rcases List.mem_cons.mp ha with rfl | ha
        · exact hx
        · rcases List.mem_cons.mp ha with rfl | ha
          · omega
          · exact hM a (List.mem_cons_of_mem x ha)
    · obtain ⟨A, M, heq, hperm, hM⟩ := ih y fun a ha => hle a (List.mem_cons_of_mem x ha)
      refine ⟨x :: A, M, ?_, hperm.cons x, fun a ha => ?_⟩
      · rw [List.cons_append, bubblePass_of_le (by omega), heq]
        rfl
      · rcases List.mem_cons.mp ha with rfl | ha
        · have hy := hM y List.mem_cons_self
          omega
        · exact hM a ha

/-- The passes leave a run in order, when there are as many as elements not yet in their
place. -/
lemma rising_bubblePasses {m : ℕ} {A B : List ℕ} (hm : A.length ≤ m) (hB : Rising T B)
    (hle : ∀ a ∈ A, ∀ b ∈ B, T.lookupCcc a ≤ T.lookupCcc b) :
    Rising T (bubblePasses T m (A ++ B)) := by
  induction m generalizing A B with
  | zero =>
    obtain rfl := List.length_eq_zero_iff.mp (by omega : A.length = 0)
    exact hB
  | succ m ih =>
    cases A with
    | nil =>
      cases B with
      | nil => exact List.isChain_nil
      | cons b B =>
        have hpass := bubblePass_of_rising hB
        have hrest := ih (A := []) (Nat.zero_le m) hB (by simp)
        rw [List.nil_append] at hrest ⊢
        simp only [bubblePasses, hpass]
        split_ifs
        · exact hrest
        · exact hB
    | cons x A =>
      simp only [List.cons_append, bubblePasses]
      split_ifs with hswap
      · obtain ⟨A', M, heq, hperm, hM⟩ := bubblePass_append x A hB hle
        have hlen := hperm.length_eq
        simp only [List.length_append, List.length_cons, List.length_nil] at hlen hm
        have hmem : ∀ a ∈ A' ++ [M], a ∈ x :: A := fun a ha => hperm.mem_iff.mp ha
        rw [heq]
        refine ih (by omega) (hB.cons fun b hb => ?_) fun a ha b hb => ?_
        · exact hle M (hmem M (by simp)) b (List.mem_of_mem_head? hb)
        · have hax := hmem a (List.mem_append_left _ ha)
          rcases List.mem_cons.mp hb with rfl | hb
          · exact hM a hax
          · exact hle a hax b hb
      · have hsorted := rising_of_not_swapped (Bool.not_eq_true _ ▸ hswap)
        rw [bubblePass_of_rising hsorted]
        exact hsorted

/-- The passes exchange reorderable pairs only. -/
lemma bubblePasses_reached (m : ℕ) {xs : List ℕ} (h : ∀ y ∈ xs, 0 < T.lookupCcc y) :
    Relation.ReflTransGen (Exchange T.lookupCcc) xs (bubblePasses T m xs) := by
  induction m generalizing xs with
  | zero => exact Relation.ReflTransGen.refl
  | succ m ih =>
    cases xs with
    | nil => exact Relation.ReflTransGen.refl
    | cons x xs =>
      have hpass := bubblePass_reached x fun y hy => h y (List.mem_cons_of_mem x hy)
      simp only [bubblePasses]
      split_ifs
      · refine hpass.trans (ih fun y hy => h y ?_)
        exact (perm_of_reached hpass).mem_iff.mp hy
      · exact hpass

/-- Sorting a run of code points with a class puts it in canonical order. -/
lemma isOrderOf_sortedRun {run : List ℕ} (h : ∀ y ∈ run, 0 < T.lookupCcc y) :
    IsOrderOf T.lookupCcc run (if 1 < run.length then stableCccSort T run else run) := by
  split_ifs with hlen
  · refine ⟨bubblePasses_reached run.length h, ?_⟩
    have hrising :=
      rising_bubblePasses (T := T) (A := run) (B := []) le_rfl List.isChain_nil (by simp)
    rw [List.append_nil] at hrising
    exact hrising.imp fun _ _ => Or.inr
  · refine ⟨Relation.ReflTransGen.refl, ?_⟩
    match run, hlen with
    | [], _ => exact List.isChain_nil
    | [x], _ => exact List.isChain_singleton x
    | x :: y :: xs, hlen => exact absurd (by simp) hlen

/-- A list in canonical order may be followed by a starter and another such list. -/
lemma ordered_append_starter {xs ys : List ℕ} {c : ℕ} (hx : Ordered T.lookupCcc xs)
    (hc : T.lookupCcc c = 0) (hy : Ordered T.lookupCcc ys) : Ordered T.lookupCcc (xs ++ c :: ys) := by
  refine hx.append (hy.cons fun y _ => ?_) fun x _ y hy' => ?_
  · rw [hc]
    exact Or.inr (Nat.zero_le _)
  · rw [List.head?_cons, Option.mem_some_iff] at hy'
    exact Or.inl (hy' ▸ hc)

/-- Sorting the runs puts a text in canonical order. -/
lemma isOrderOf_canonicalOrderRuns (cps : List ℕ) {run : List ℕ}
    (h : ∀ y ∈ run, 0 < T.lookupCcc y) :
    IsOrderOf T.lookupCcc (run ++ cps) (canonicalOrderRuns T run cps) := by
  induction cps generalizing run with
  | nil =>
    rw [List.append_nil]
    exact isOrderOf_sortedRun h
  | cons c cs ih =>
    rw [canonicalOrderRuns]
    by_cases hc : 0 < T.lookupCcc c
    · have hrun : ∀ y ∈ run ++ [c], 0 < T.lookupCcc y := by
        intro y hy
        rcases List.mem_append.mp hy with hy | hy
        · exact h y hy
        · exact List.mem_singleton.mp hy ▸ hc
      have hrest := ih hrun
      rw [if_pos hc]
      rwa [List.append_assoc] at hrest
    · have hsorted := isOrderOf_sortedRun h
      have hrest := @ih [] (by simp)
      rw [if_neg hc]
      refine ⟨?_, ordered_append_starter hsorted.ordered (by omega) hrest.ordered⟩
      have hfirst := reached_append [] (c :: cs) hsorted.reached
      have hsecond := reached_append
        ((if 1 < run.length then stableCccSort T run else run) ++ [c]) [] hrest.reached
      rw [List.nil_append, List.nil_append] at hfirst
      simp only [List.append_nil, List.append_assoc, List.singleton_append] at hsecond
      exact hfirst.trans hsecond

/-- The code puts a text in canonical order. -/
theorem isOrderOf_canonicalOrder (cps : List ℕ) :
    IsOrderOf T.lookupCcc cps (canonicalOrder T cps) := by
  unfold canonicalOrder
  split_ifs with hlen
  · refine ⟨Relation.ReflTransGen.refl, ?_⟩
    match cps, hlen with
    | [], _ => exact List.isChain_nil
    | [x], _ => exact List.isChain_singleton x
    | x :: y :: xs, hlen => exact absurd hlen (by simp)
  · exact @isOrderOf_canonicalOrderRuns T cps [] fun y hy => absurd hy List.not_mem_nil

/-- The code computes the order of the decomposition. -/
lemma decompose_eq_order (compat : Bool) (xs : List ℕ) :
    decompose T compat xs = order T.lookupCcc (xs.flatMap (decomposeRecurse T compat)) :=
  (isOrderOf_canonicalOrder _).eq_order

/-- A decomposition has no mappings left. -/
lemma mapping_of_mem_decompose {compat : Bool} {xs : List ℕ} {x : ℕ}
    (hx : x ∈ decompose T compat xs) : mapping T compat x = none :=
  (isDecomposition_flatMap compat xs).final x
    ((perm_of_reached (isOrderOf_canonicalOrder _).reached).mem_iff.mp hx)

/-- Decomposing again changes nothing. -/
theorem decompose_decompose (compat : Bool) (xs : List ℕ) :
    decompose T compat (decompose T compat xs) = decompose T compat xs := by
  have hflat : (decompose T compat xs).flatMap (decomposeRecurse T compat) =
      decompose T compat xs :=
    flatMap_decomposeRecurse_of_final fun y hy => mapping_of_mem_decompose hy
  have hordered : Ordered T.lookupCcc (decompose T compat xs) :=
    (isOrderOf_canonicalOrder _).ordered
  rw [decompose_eq_order, hflat, order_of_ordered hordered]

/-- The form of a text that is not composed, or of its decomposition, by the code. -/
lemma isForm_iff {form : NormForm} {xs ys : List ℕ} :
    IsForm T form xs ys ↔
      if form.flags.2 then IsComposition T (decompose T form.flags.1 xs) ys
      else ys = decompose T form.flags.1 xs := by
  constructor
  · rintro ⟨us, ds, hu, hd, hy⟩
    have hds : ds = decompose T form.flags.1 xs := by
      rw [decompose_eq_order, hd.eq_order, hu.eq_flatMap]
    rwa [hds] at hy
  · intro h
    exact ⟨_, _, isDecomposition_flatMap _ xs, isOrderOf_canonicalOrder _, h⟩

end Torajs.Str
