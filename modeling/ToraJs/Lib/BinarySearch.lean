import Mathlib.Data.List.Basic
import Mathlib.Data.List.Pairwise
import Mathlib.Data.Nat.Basic
import Mathlib.Order.Basic

/-!
# Binary search

The search of a list by a comparison with what is sought: the elements that come too early first,
then those that match, then those that come too late.  The window is halved to one element, which
matches if any element does.
-/

namespace BinarySearch

variable {α : Type}

/-- The element that is left when the window of `size` elements from `base` on is halved to one. -/
def narrow (cmp : α → Ordering) (l : List α) (base size : ℕ) : ℕ :=
  if 1 < size then
    narrow cmp l
      (if l[base + size / 2]?.map cmp = some .gt then base else base + size / 2) (size - size / 2)
  else base
termination_by size

/-- Whether the search finds an element. -/
def finds (cmp : α → Ordering) (l : List α) : Bool :=
  l[narrow cmp l 0 l.length]?.map cmp == some .eq

/-- The comparison follows the order of the list. -/
def Follows (cmp : α → Ordering) (l : List α) : Prop :=
  l.Pairwise fun a b => (cmp a = .gt → cmp b = .gt) ∧ (cmp b = .lt → cmp a = .lt)

/-- An element of the window matches. -/
def Inside (cmp : α → Ordering) (l : List α) (base size : ℕ) : Prop :=
  ∃ t a, l[t]? = some a ∧ cmp a = .eq ∧ base ≤ t ∧ t < base + size

variable {cmp : α → Ordering} {l : List α} {base size : ℕ}

/-- A half of the window is given up only when no element of it is needed. -/
lemma Inside.halve (hl : Follows cmp l) (hsize : 1 < size) (h : Inside cmp l base size)
    (hbound : base + size ≤ l.length) :
    Inside cmp l (if l[base + size / 2]?.map cmp = some .gt then base else base + size / 2)
      (size - size / 2) := by
  obtain ⟨t, a, hget, heq, hlow, hhigh⟩ := h
  obtain ⟨m, hm⟩ : ∃ m, l[base + size / 2]? = some m :=
    ⟨_, List.getElem?_eq_getElem (by omega)⟩
  have hordered {i j : ℕ} {x y : α} (hij : i < j) (hx : l[i]? = some x) (hy : l[j]? = some y) :
      (cmp x = .gt → cmp y = .gt) ∧ (cmp y = .lt → cmp x = .lt) := by
    obtain ⟨hi, rfl⟩ := List.getElem?_eq_some_iff.mp hx
    obtain ⟨hj, rfl⟩ := List.getElem?_eq_some_iff.mp hy
    exact List.pairwise_iff_getElem.mp hl i j hi hj hij
  rw [hm, Option.map_some]
  by_cases hgt : cmp m = .gt
  · rw [if_pos (congrArg some hgt)]
    refine ⟨t, a, hget, heq, hlow, ?_⟩
    rcases lt_trichotomy t (base + size / 2) with hlt | rfl | hlt
    · omega
    · rw [hget] at hm
      cases hm
      rw [heq] at hgt
      cases hgt
    · have hafter := (hordered hlt hm hget).1 hgt
      rw [heq] at hafter
      cases hafter
  · rw [if_neg fun h => hgt (Option.some.inj h)]
    rcases lt_or_ge t (base + size / 2) with hlt | hge
    · -- an earlier match, so the middle is not too early
      cases hmid : cmp m with
      | lt =>
        have hbefore := (hordered hlt hget hm).2 hmid
        rw [heq] at hbefore
        cases hbefore
      | eq => exact ⟨_, m, hm, hmid, le_rfl, by omega⟩
      | gt => exact absurd hmid hgt
    · exact ⟨t, a, hget, heq, hge, by omega⟩

/-- The last element of the window matches when any of it does. -/
lemma narrow_spec (hl : Follows cmp l) (hbound : base + size ≤ l.length)
    (h : Inside cmp l base size) :
    ∃ a, l[narrow cmp l base size]? = some a ∧ cmp a = .eq := by
  fun_induction narrow cmp l base size with
  | case1 base size hsize ih =>
    refine ih ?_ (h.halve hl hsize hbound)
    split_ifs <;> omega
  | case2 base size hsize =>
    obtain ⟨t, a, hget, heq, hlow, hhigh⟩ := h
    obtain rfl : t = base := by omega
    exact ⟨a, hget, heq⟩

/-- **The search finds an element** exactly when there is one that matches. -/
theorem finds_iff (hl : Follows cmp l) : finds cmp l = true ↔ ∃ a ∈ l, cmp a = .eq := by
  rw [finds, beq_iff_eq]
  constructor
  · intro h
    obtain ⟨a, hget, heq⟩ := Option.map_eq_some_iff.mp h
    exact ⟨a, List.mem_of_getElem? hget, heq⟩
  · rintro ⟨a, ha, heq⟩
    obtain ⟨t, hget⟩ := List.mem_iff_getElem?.mp ha
    have hlt := (List.getElem?_eq_some_iff.mp hget).1
    obtain ⟨b, hb, hbeq⟩ :=
      narrow_spec hl (by omega : 0 + l.length ≤ l.length) ⟨t, a, hget, heq, Nat.zero_le t, by omega⟩
    rw [hb, Option.map_some, hbeq]

end BinarySearch
