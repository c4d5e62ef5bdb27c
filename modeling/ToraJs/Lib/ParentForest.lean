import Mathlib.Data.Finset.Card
import Mathlib.Order.Interval.Finset.Nat

/-!
# Forests of parent pointers

Disjoint sets as a table of parent pointers in which a root points to itself.  A forest
comes with the representative that each node's chain ends in and with a rank that drops
along the pointers, so following them ends.

Pointing the nodes of a chain at its root keeps the forest and every representative;
pointing one root at another merges their two classes and touches no third one.
-/

namespace ParentForest

variable {n : ℕ} {parent : ℕ → Option ℕ} {rep rank : ℕ → ℕ}

/-- The nodes below `n` with a representative. -/
def classOf (n : ℕ) (rep : ℕ → ℕ) (r : ℕ) : Finset ℕ := (Finset.range n).filter fun v => rep v = r

lemma mem_classOf {r v : ℕ} : v ∈ classOf n rep r ↔ v < n ∧ rep v = r := by
  rw [classOf, Finset.mem_filter, Finset.mem_range]

/-- **A forest on the nodes below `n`**, with its representatives and ranks. -/
structure IsForest (n : ℕ) (parent : ℕ → Option ℕ) (rep rank : ℕ → ℕ) : Prop where
  isSome_iff : ∀ v, (parent v).isSome ↔ v < n
  parent_lt : ∀ v p, parent v = some p → p < n
  rep_parent : ∀ v p, parent v = some p → rep p = rep v
  rep_root : ∀ v, parent v = some v → rep v = v
  rank_lt : ∀ v p, parent v = some p → p ≠ v → rank p < rank v
  rank_root : ∀ v, parent v = some v → rank v = 0
  rank_card : ∀ v < n, rank v < (classOf n rep (rep v)).card

/-- Follow the pointers to a root. -/
def findLoop (parent : ℕ → Option ℕ) : ℕ → ℕ → Option ℕ
  | 0, _ => none
  | fuel + 1, cur => (parent cur).bind fun p => if p = cur then some cur else findLoop parent fuel p

/-- Point every node from `walker` on at the root. -/
def compressLoop (root : ℕ) : ℕ → ℕ → (ℕ → Option ℕ) → Option (ℕ → Option ℕ)
  | 0, _, _ => none
  | fuel + 1, walker, parent =>
    if walker = root then some parent
    else (parent walker).bind fun next =>
      compressLoop root fuel next (Function.update parent walker (some root))

/-- The representatives when the class of `child` joins the one of `root`. -/
def merge (rep : ℕ → ℕ) (child root v : ℕ) : ℕ := if rep v = child then root else rep v

namespace IsForest

lemma exists_parent (h : IsForest n parent rep rank) {v : ℕ} (hv : v < n) :
    ∃ p, parent v = some p :=
  Option.isSome_iff_exists.mp ((h.isSome_iff v).mpr hv)

lemma lt_of_parent (h : IsForest n parent rep rank) {v p : ℕ} (hp : parent v = some p) : v < n :=
  (h.isSome_iff v).mp (by rw [hp]; rfl)

/-- A representative is a root: by induction on the rank. -/
lemma parent_rep (h : IsForest n parent rep rank) {v : ℕ} (hv : v < n) :
    parent (rep v) = some (rep v) := by
  induction hr : rank v using Nat.strong_induction_on generalizing v with
  | _ r ih =>
    obtain ⟨p, hp⟩ := h.exists_parent hv
    by_cases hpv : p = v
    · subst hpv
      rw [h.rep_root p hp, hp]
    · rw [← h.rep_parent v p hp]
      exact ih (rank p) (hr ▸ h.rank_lt v p hp hpv) (h.parent_lt v p hp) rfl

lemma rep_lt (h : IsForest n parent rep rank) {v : ℕ} (hv : v < n) : rep v < n :=
  h.lt_of_parent (h.parent_rep hv)

lemma rep_rep (h : IsForest n parent rep rank) {v : ℕ} (hv : v < n) : rep (rep v) = rep v :=
  h.rep_root _ (h.parent_rep hv)

/-- A node that is its own representative is a root. -/
lemma parent_of_rep_eq (h : IsForest n parent rep rank) {v : ℕ} (hv : v < n) (hrep : rep v = v) :
    parent v = some v := by
  have := h.parent_rep hv
  rwa [hrep] at this

lemma rank_lt_card (h : IsForest n parent rep rank) {v : ℕ} (hv : v < n) : rank v < n := by
  refine (h.rank_card v hv).trans_le ?_
  calc (classOf n rep (rep v)).card ≤ (Finset.range n).card := Finset.card_filter_le _ _
    _ = n := Finset.card_range n

/-- **Following the pointers finds the representative.** -/
theorem findLoop_eq (h : IsForest n parent rep rank) :
    ∀ (fuel v : ℕ), v < n → rank v < fuel → findLoop parent fuel v = some (rep v) := by
  intro fuel
  induction fuel with
  | zero => exact fun v _ hfuel => absurd hfuel (Nat.not_lt_zero _)
  | succ fuel ih =>
    intro v hv hfuel
    obtain ⟨p, hp⟩ := h.exists_parent hv
    rw [findLoop, hp, Option.bind_some]
    by_cases hpv : p = v
    · subst hpv
      rw [if_pos rfl, h.rep_root p hp]
    · have hlt := h.rank_lt v p hp hpv
      rw [if_neg hpv, ih p (h.parent_lt v p hp) (by omega), h.rep_parent v p hp]

/-- A node may point at its representative. -/
lemma shortcut (h : IsForest n parent rep rank) {v : ℕ} (hv : v < n) (hne : v ≠ rep v) :
    IsForest n (Function.update parent v (some (rep v))) rep rank := by
  have hroot := h.parent_rep hv
  -- another node keeps its pointer
  have hcases : ∀ {u p}, Function.update parent v (some (rep v)) u = some p →
      u = v ∧ p = rep v ∨ u ≠ v ∧ parent u = some p := by
    intro u p hp
    by_cases huv : u = v
    · subst huv
      rw [Function.update_self] at hp
      exact Or.inl ⟨rfl, (Option.some.inj hp).symm⟩
    · rw [Function.update_of_ne huv] at hp
      exact Or.inr ⟨huv, hp⟩
  have hrank : rank (rep v) < rank v := by
    obtain ⟨p, hp⟩ := h.exists_parent hv
    have hpv : p ≠ v := by
      rintro rfl
      exact hne (h.rep_root p hp).symm
    have := h.rank_lt v p hp hpv
    rw [h.rank_root _ hroot]
    omega
  refine ⟨fun u => ?_, fun u p hp => ?_, fun u p hp => ?_, fun u hp => ?_, fun u p hp hpu => ?_,
    fun u hp => ?_, h.rank_card⟩
  · by_cases huv : u = v
    · subst huv
      rw [Function.update_self]
      exact iff_of_true rfl hv
    · rw [Function.update_of_ne huv]
      exact h.isSome_iff u
  · rcases hcases hp with ⟨_, rfl⟩ | ⟨_, hp⟩
    · exact h.rep_lt hv
    · exact h.parent_lt u p hp
  · rcases hcases hp with ⟨rfl, rfl⟩ | ⟨_, hp⟩
    · exact h.rep_rep hv
    · exact h.rep_parent u p hp
  · rcases hcases hp with ⟨rfl, heq⟩ | ⟨_, hp⟩
    · exact heq.symm
    · exact h.rep_root u hp
  · rcases hcases hp with ⟨rfl, rfl⟩ | ⟨_, hp⟩
    · exact hrank
    · exact h.rank_lt u p hp hpu
  · rcases hcases hp with ⟨rfl, heq⟩ | ⟨_, hp⟩
    · exact absurd heq hne
    · exact h.rank_root u hp

/-- **Path compression keeps the forest**, its representatives and its ranks. -/
theorem compressLoop_spec :
    ∀ (fuel : ℕ) (parent : ℕ → Option ℕ), IsForest n parent rep rank → ∀ v < n, rank v < fuel →
      ∃ parent', compressLoop (rep v) fuel v parent = some parent' ∧ IsForest n parent' rep rank := by
  intro fuel
  induction fuel with
  | zero => exact fun _ _ v _ hfuel => absurd hfuel (Nat.not_lt_zero _)
  | succ fuel ih =>
    intro parent h v hv hfuel
    rw [compressLoop]
    by_cases hne : v = rep v
    · exact ⟨parent, if_pos hne, h⟩
    · obtain ⟨p, hp⟩ := h.exists_parent hv
      have hpv : p ≠ v := by
        rintro rfl
        exact hne (h.rep_root p hp).symm
      have hlt := h.rank_lt v p hp hpv
      rw [if_neg hne, hp, Option.bind_some, ← h.rep_parent v p hp]
      refine ih _ ?_ p (h.parent_lt v p hp) (by omega)
      rw [h.rep_parent v p hp]
      exact h.shortcut hv hne

/-! ### Merging two classes -/

section Merge

variable {child root : ℕ}

lemma merge_of_eq {v : ℕ} (hv : rep v = child) : merge rep child root v = root := if_pos hv

lemma merge_of_ne {v : ℕ} (hv : rep v ≠ child) : merge rep child root v = rep v := if_neg hv

/-- The merged class is the union of the two. -/
lemma card_classOf_merge (hne : child ≠ root) :
    (classOf n (merge rep child root) root).card =
      (classOf n rep child).card + (classOf n rep root).card := by
  have hdisj : Disjoint (classOf n rep child) (classOf n rep root) := by
    rw [Finset.disjoint_left]
    intro v hc hr
    exact hne ((mem_classOf.mp hc).2.symm.trans (mem_classOf.mp hr).2)
  rw [← Finset.card_union_of_disjoint hdisj]
  congr 1
  ext v
  rw [Finset.mem_union, mem_classOf, mem_classOf, mem_classOf]
  by_cases hv : rep v = child
  · rw [merge_of_eq hv, hv]
    exact ⟨fun h => Or.inl ⟨h.1, rfl⟩, fun h => ⟨h.elim And.left And.left, rfl⟩⟩
  · rw [merge_of_ne hv]
    exact ⟨Or.inr, fun h => h.resolve_left fun hc => hv hc.2⟩

/-- Another class stays as it is. -/
lemma classOf_merge_of_ne {r : ℕ} (hc : r ≠ child) (hr : r ≠ root) :
    classOf n (merge rep child root) r = classOf n rep r := by
  ext v
  rw [mem_classOf, mem_classOf]
  by_cases hv : rep v = child
  · rw [merge_of_eq hv, hv]
    exact and_congr_right fun _ => iff_of_false hr.symm hc.symm
  · rw [merge_of_ne hv]

/-- **Pointing one root at another merges their classes.** -/
theorem link (h : IsForest n parent rep rank) (hc : child < n) (hr : root < n)
    (hcrep : rep child = child) (hrrep : rep root = root) (hne : child ≠ root) :
    IsForest n (Function.update parent child (some root)) (merge rep child root)
      fun v => if rep v = child then rank v + 1 else rank v := by
  have hcroot := h.parent_of_rep_eq hc hcrep
  have hrroot := h.parent_of_rep_eq hr hrrep
  have hcases : ∀ {u p}, Function.update parent child (some root) u = some p →
      u = child ∧ p = root ∨ u ≠ child ∧ parent u = some p := by
    intro u p hp
    by_cases huv : u = child
    · subst huv
      rw [Function.update_self] at hp
      exact Or.inl ⟨rfl, (Option.some.inj hp).symm⟩
    · rw [Function.update_of_ne huv] at hp
      exact Or.inr ⟨huv, hp⟩
  refine ⟨fun u => ?_, fun u p hp => ?_, fun u p hp => ?_, fun u hp => ?_, fun u p hp hpu => ?_,
    fun u hp => ?_, fun u hu => ?_⟩
  · by_cases huv : u = child
    · subst huv
      rw [Function.update_self]
      exact iff_of_true rfl hc
    · rw [Function.update_of_ne huv]
      exact h.isSome_iff u
  · rcases hcases hp with ⟨_, rfl⟩ | ⟨_, hp⟩
    · exact hr
    · exact h.parent_lt u p hp
  · rcases hcases hp with ⟨rfl, rfl⟩ | ⟨_, hp⟩
    · rw [merge_of_eq hcrep, merge_of_ne (by rw [hrrep]; exact hne.symm), hrrep]
    · rw [merge, merge, h.rep_parent u p hp]
  · rcases hcases hp with ⟨rfl, heq⟩ | ⟨huc, hp⟩
    · exact absurd heq hne
    · have hrep := h.rep_root u hp
      rw [merge_of_ne (by rwa [hrep]), hrep]
  · rcases hcases hp with ⟨rfl, rfl⟩ | ⟨_, hp⟩
    · have hnot : rep p ≠ u := by
        rw [hrrep]
        exact hne.symm
      rw [if_pos hcrep, if_neg hnot, h.rank_root p hrroot]
      exact Nat.succ_pos _
    · rw [h.rep_parent u p hp]
      have := h.rank_lt u p hp hpu
      split <;> omega
  · rcases hcases hp with ⟨rfl, heq⟩ | ⟨huc, hp⟩
    · exact absurd heq hne
    · rw [if_neg (by rwa [h.rep_root u hp])]
      exact h.rank_root u hp
  · have hcard := h.rank_card u hu
    by_cases huc : rep u = child
    · have hpos : 0 < (classOf n rep root).card :=
        Finset.card_pos.mpr ⟨root, mem_classOf.mpr ⟨hr, hrrep⟩⟩
      rw [huc] at hcard
      rw [if_pos huc, merge_of_eq huc, card_classOf_merge hne]
      omega
    · rw [if_neg huc, merge_of_ne huc]
      by_cases hur : rep u = root
      · rw [hur] at hcard ⊢
        rw [card_classOf_merge hne]
        omega
      · rwa [classOf_merge_of_ne huc hur]

end Merge

/-! ### New nodes -/

/-- Nodes on their own. -/
theorem discrete (n : ℕ) :
    IsForest n (fun v => if v < n then some v else none) id fun _ => 0 := by
  have hself : ∀ {v p : ℕ}, (if v < n then some v else none) = some p → v < n ∧ p = v := by
    intro v p hp
    split at hp
    · next hv => exact ⟨hv, (Option.some.inj hp).symm⟩
    · cases hp
  refine ⟨fun v => ?_, fun v p hp => ?_, fun v p hp => (hself hp).2, fun _ _ => rfl,
    fun v p hp hpv => absurd (hself hp).2 hpv, fun _ _ => rfl, fun v hv => ?_⟩
  · by_cases hv : v < n
    · rw [if_pos hv]
      exact iff_of_true rfl hv
    · rw [if_neg hv]
      exact iff_of_false Bool.false_ne_true hv
  · obtain ⟨hv, rfl⟩ := hself hp
    exact hv
  · exact Finset.card_pos.mpr ⟨v, mem_classOf.mpr ⟨hv, rfl⟩⟩

/-- **A new node is a class of its own.** -/
theorem extend (h : IsForest n parent rep rank) :
    IsForest (n + 1) (Function.update parent n (some n)) (Function.update rep n n)
      (Function.update rank n 0) := by
  have hne : ∀ {v}, v < n → v ≠ n := fun hv => Nat.ne_of_lt hv
  have hcases : ∀ {u p}, Function.update parent n (some n) u = some p →
      u = n ∧ p = n ∨ u < n ∧ p < n ∧ parent u = some p := by
    intro u p hp
    by_cases hu : u = n
    · subst hu
      rw [Function.update_self] at hp
      exact Or.inl ⟨rfl, (Option.some.inj hp).symm⟩
    · rw [Function.update_of_ne hu] at hp
      exact Or.inr ⟨h.lt_of_parent hp, h.parent_lt u p hp, hp⟩
  refine ⟨fun u => ?_, fun u p hp => ?_, fun u p hp => ?_, fun u hp => ?_, fun u p hp hpu => ?_,
    fun u hp => ?_, fun u hu => ?_⟩
  · by_cases hu : u = n
    · subst hu
      rw [Function.update_self]
      exact iff_of_true rfl (Nat.lt_succ_self u)
    · rw [Function.update_of_ne hu, h.isSome_iff]
      omega
  · rcases hcases hp with ⟨_, rfl⟩ | ⟨_, hlt, _⟩ <;> omega
  · rcases hcases hp with ⟨rfl, rfl⟩ | ⟨hu, hlt, hp⟩
    · rfl
    · rw [Function.update_of_ne (hne hu), Function.update_of_ne (hne hlt), h.rep_parent u p hp]
  · rcases hcases hp with ⟨rfl, _⟩ | ⟨hu, _, hp⟩
    · exact Function.update_self _ _ _
    · rw [Function.update_of_ne (hne hu), h.rep_root u hp]
  · rcases hcases hp with ⟨rfl, rfl⟩ | ⟨hu, hlt, hp⟩
    · exact absurd rfl hpu
    · rw [Function.update_of_ne (hne hu), Function.update_of_ne (hne hlt)]
      exact h.rank_lt u p hp hpu
  · rcases hcases hp with ⟨rfl, _⟩ | ⟨hu, _, hp⟩
    · exact Function.update_self _ _ _
    · rw [Function.update_of_ne (hne hu), h.rank_root u hp]
  · by_cases hun : u = n
    · subst hun
      rw [Function.update_self, Function.update_self]
      exact Finset.card_pos.mpr ⟨u, mem_classOf.mpr ⟨hu, Function.update_self _ _ _⟩⟩
    · have hlt : u < n := by omega
      rw [Function.update_of_ne hun, Function.update_of_ne hun]
      refine (h.rank_card u hlt).trans_le (Finset.card_le_card fun v hv => ?_)
      obtain ⟨hv, hrep⟩ := mem_classOf.mp hv
      rw [mem_classOf, Function.update_of_ne (hne hv)]
      exact ⟨by omega, hrep⟩

end IsForest

end ParentForest
