import Mathlib.Algebra.Order.Group.Nat
import Mathlib.Data.List.Basic
import Mathlib.Tactic.Ring

/-!
# Packing intervals without changing their residues

Intervals of the natural numbers are packed in order, each at the least place that is not before
the end of the one before it and is congruent to its old start modulo a fixed number.

The place of an interval depends on the residues of the starts and on the lengths alone, so that
packing an already packed sequence of intervals, or a part of it, gives what packing the original
ones gives.
-/

namespace Torajs.Placement

/-- The least number from `c` on that is congruent to `x`. -/
def nextAligned (a c x : ℕ) : ℕ := c + (x % a + a - c % a) % a

/-- The intervals with their places, packed from `c` on. -/
def spots (a : ℕ) : ℕ → List (ℕ × ℕ) → List ((ℕ × ℕ) × ℕ)
  | _, [] => []
  | c, at' :: ls =>
    (at', nextAligned a c at'.1) :: spots a (nextAligned a c at'.1 + (at'.2 - at'.1)) ls

/-- The end of the packed intervals. -/
def packedEnd (a : ℕ) : ℕ → List (ℕ × ℕ) → ℕ
  | c, [] => c
  | c, at' :: ls => packedEnd a (nextAligned a c at'.1 + (at'.2 - at'.1)) ls

/-- Intervals in order, from `lo` on. -/
def Ordered : ℕ → List (ℕ × ℕ) → Prop
  | _, [] => True
  | lo, at' :: ls => lo ≤ at'.1 ∧ at'.1 ≤ at'.2 ∧ Ordered at'.2 ls

variable {a c x : ℕ}

/-! ### The next place -/

lemma le_nextAligned (a c x : ℕ) : c ≤ nextAligned a c x := Nat.le_add_right _ _

/-- The distance to the next place, by the residues. -/
lemma nextAligned_eq (ha : 0 < a) (c x : ℕ) :
    nextAligned a c x = a * (c / a) + x % a + if c % a ≤ x % a then 0 else a := by
  have hx := Nat.mod_lt x ha
  have hc := Nat.mod_lt c ha
  have hdiv := Nat.div_add_mod c a
  rw [nextAligned]
  split_ifs with hle
  · rw [show x % a + a - c % a = x % a - c % a + a by omega, Nat.add_mod_right,
      Nat.mod_eq_of_lt (by omega)]
    omega
  · rw [Nat.mod_eq_of_lt (by omega)]
    omega

lemma nextAligned_mod (ha : 0 < a) (c x : ℕ) : nextAligned a c x % a = x % a := by
  rw [nextAligned_eq ha]
  split_ifs
  · rw [Nat.add_zero, Nat.mul_add_mod, Nat.mod_mod]
  · rw [Nat.add_mod_right, Nat.mul_add_mod, Nat.mod_mod]

/-- Of the places from `c` on it is the least. -/
lemma nextAligned_le {y : ℕ} (ha : 0 < a) (hle : c ≤ y) (hmod : y % a = x % a) :
    nextAligned a c x ≤ y := by
  have hc := Nat.div_add_mod c a
  have hy := Nat.div_add_mod y a
  have hlt := Nat.mod_lt y ha
  have hmono : c / a ≤ y / a := Nat.div_le_div_right hle
  rw [nextAligned_eq ha, ← hmod]
  split_ifs with hres
  · have := Nat.mul_le_mul_left a hmono
    omega
  · have hstrict : c / a < y / a := by
      rcases Nat.lt_or_eq_of_le hmono with h | h
      · exact h
      · rw [h] at hc
        omega
    have := Nat.mul_le_mul_left a hstrict
    rw [Nat.mul_succ] at this
    omega

/-- A place that is already right is kept. -/
lemma nextAligned_of_mod (ha : 0 < a) (h : c % a = x % a) : nextAligned a c x = c :=
  le_antisymm (nextAligned_le ha le_rfl h) (le_nextAligned a c x)

/-- Only the residue of the old start matters. -/
lemma nextAligned_congr {y : ℕ} (h : x % a = y % a) : nextAligned a c x = nextAligned a c y := by
  rw [nextAligned, nextAligned, h]

/-! ### Packing -/

variable {ls : List (ℕ × ℕ)} {lo : ℕ}

lemma spots_append (a c : ℕ) (ls ms : List (ℕ × ℕ)) :
    spots a c (ls ++ ms) = spots a c ls ++ spots a (packedEnd a c ls) ms := by
  induction ls generalizing c with
  | nil => rfl
  | cons i ls ih => rw [List.cons_append, spots, spots, packedEnd, ih, List.cons_append]

lemma packedEnd_append (a c : ℕ) (ls ms : List (ℕ × ℕ)) :
    packedEnd a c (ls ++ ms) = packedEnd a (packedEnd a c ls) ms := by
  induction ls generalizing c with
  | nil => rfl
  | cons i ls ih => rw [List.cons_append, packedEnd, packedEnd, ih]

lemma spots_fst (a c : ℕ) (ls : List (ℕ × ℕ)) : (spots a c ls).map Prod.fst = ls := by
  induction ls generalizing c with
  | nil => rfl
  | cons i ls ih => rw [spots, List.map_cons, ih]

lemma mem_of_mem_spots {i : ℕ × ℕ} {n : ℕ} (h : (i, n) ∈ spots a c ls) : i ∈ ls := by
  rw [← spots_fst a c ls]
  exact List.mem_map_of_mem h

lemma exists_spot {i : ℕ × ℕ} (h : i ∈ ls) (a c : ℕ) : ∃ n, (i, n) ∈ spots a c ls := by
  rw [← spots_fst a c ls, List.mem_map] at h
  obtain ⟨⟨j, n⟩, hmem, rfl⟩ := h
  exact ⟨n, hmem⟩

/-- **Places depend on residues and lengths alone.** -/
theorem spots_map (f : ℕ × ℕ → ℕ × ℕ) (hmod : ∀ i ∈ ls, (f i).1 % a = i.1 % a)
    (hlen : ∀ i ∈ ls, (f i).2 - (f i).1 = i.2 - i.1) (c : ℕ) :
    spots a c (ls.map f) = (spots a c ls).map (Prod.map f id) ∧
      packedEnd a c (ls.map f) = packedEnd a c ls := by
  induction ls generalizing c with
  | nil => exact ⟨rfl, rfl⟩
  | cons i ls ih =>
    have hplace : nextAligned a c (f i).1 = nextAligned a c i.1 :=
      nextAligned_congr (hmod i List.mem_cons_self)
    obtain ⟨hspots, hend⟩ := ih (fun j hj => hmod j (List.mem_cons_of_mem _ hj))
      (fun j hj => hlen j (List.mem_cons_of_mem _ hj))
      (nextAligned a c i.1 + (i.2 - i.1))
    rw [List.map_cons, spots, spots, packedEnd, packedEnd, hplace,
      hlen i List.mem_cons_self, hspots, hend]
    exact ⟨rfl, rfl⟩

lemma spot_mod (ha : 0 < a) {i : ℕ × ℕ} {n : ℕ} (h : (i, n) ∈ spots a c ls) :
    n % a = i.1 % a := by
  induction ls generalizing c with
  | nil => cases h
  | cons j ls ih =>
    rw [spots] at h
    rcases List.mem_cons.mp h with heq | h
    · obtain ⟨rfl, rfl⟩ := Prod.mk.inj heq
      exact nextAligned_mod ha c i.1
    · exact ih h

lemma le_packedEnd (a c : ℕ) (ls : List (ℕ × ℕ)) : c ≤ packedEnd a c ls := by
  induction ls generalizing c with
  | nil => exact le_rfl
  | cons i ls ih =>
    exact le_trans (le_trans (le_nextAligned a c i.1) (Nat.le_add_right _ _)) (ih _)

/-- The places lie between the start and the end of the packing. -/
lemma spot_bounds {i : ℕ × ℕ} {n : ℕ} (h : (i, n) ∈ spots a c ls) :
    c ≤ n ∧ n + (i.2 - i.1) ≤ packedEnd a c ls := by
  induction ls generalizing c with
  | nil => cases h
  | cons j ls ih =>
    rw [spots] at h
    rw [packedEnd]
    rcases List.mem_cons.mp h with heq | h
    · obtain ⟨rfl, rfl⟩ := Prod.mk.inj heq
      exact ⟨le_nextAligned a c i.1, le_packedEnd a _ ls⟩
    · obtain ⟨hlow, hhigh⟩ := ih h
      have := le_nextAligned a c j.1
      exact ⟨by omega, hhigh⟩

lemma Ordered.mono {lo' : ℕ} (h : Ordered lo ls) (hle : lo' ≤ lo) : Ordered lo' ls := by
  cases ls with
  | nil => trivial
  | cons i ls => exact ⟨le_trans hle h.1, h.2⟩

lemma Ordered.le {i : ℕ × ℕ} (h : Ordered lo ls) (hi : i ∈ ls) : lo ≤ i.1 ∧ i.1 ≤ i.2 := by
  induction ls generalizing lo with
  | nil => cases hi
  | cons j ls ih =>
    rcases List.mem_cons.mp hi with rfl | hi
    · exact ⟨h.1, h.2.1⟩
    · obtain ⟨hlow, hle⟩ := ih h.2.2 hi
      exact ⟨le_trans h.1 (le_trans h.2.1 hlow), hle⟩

/-- A part of ordered intervals is ordered. -/
lemma Ordered.filter (h : Ordered lo ls) (p : ℕ × ℕ → Bool) :
    Ordered lo (ls.filter p) := by
  induction ls generalizing lo with
  | nil => trivial
  | cons i ls ih =>
    rw [List.filter_cons]
    split_ifs
    · exact ⟨h.1, h.2.1, ih h.2.2⟩
    · exact (ih h.2.2).mono (le_trans h.1 h.2.1)

/-- Places keep the order of the intervals. -/
lemma spot_le_spot (h : Ordered lo ls) {i j : ℕ × ℕ} {n m : ℕ} (hi : (i, n) ∈ spots a c ls)
    (hj : (j, m) ∈ spots a c ls) (hlt : i.1 < j.1) : n + (i.2 - i.1) ≤ m := by
  induction ls generalizing c lo with
  | nil => cases hi
  | cons k ls ih =>
    rw [spots] at hi hj
    rcases List.mem_cons.mp hi with heq | hi
    · obtain ⟨rfl, rfl⟩ := Prod.mk.inj heq
      rcases List.mem_cons.mp hj with heq | hj
      · obtain ⟨rfl, -⟩ := Prod.mk.inj heq
        exact absurd hlt (lt_irrefl _)
      · exact (spot_bounds hj).1
    · rcases List.mem_cons.mp hj with heq | hj
      · obtain ⟨rfl, -⟩ := Prod.mk.inj heq
        have := (h.2.2.le (mem_of_mem_spots hi)).1
        have := h.2.1
        omega
      · exact ih h.2.2 hi hj

/-- No place is later than the start of its interval. -/
lemma spot_le (ha : 0 < a) (h : Ordered lo ls) (hc : c ≤ lo) {i : ℕ × ℕ} {n : ℕ}
    (hi : (i, n) ∈ spots a c ls) : n ≤ i.1 := by
  induction ls generalizing c lo with
  | nil => cases hi
  | cons j ls ih =>
    obtain ⟨hle, hjj, hrest⟩ := h
    have hearly : nextAligned a c j.1 ≤ j.1 := nextAligned_le ha (le_trans hc hle) rfl
    rw [spots] at hi
    rcases List.mem_cons.mp hi with heq | hi
    · obtain ⟨rfl, rfl⟩ := Prod.mk.inj heq
      exact hearly
    · exact ih hrest (by omega) hi

/-- A packing that starts some multiples of `a` early never gets later. -/
lemma packedEnd_add_le (ha : 0 < a) {d B : ℕ} (hd : d % a = 0) (hlo : lo = c + d)
    (h : Ordered lo ls) (hB : ∀ i ∈ ls, i.2 ≤ B) (hloB : lo ≤ B) : packedEnd a c ls + d ≤ B := by
  induction ls generalizing c lo d with
  | nil =>
    rw [packedEnd]
    omega
  | cons i ls ih =>
    obtain ⟨hle, hii, hrest⟩ := h
    have hearly : nextAligned a c i.1 ≤ i.1 - d := by
      refine nextAligned_le ha (by omega) ?_
      obtain ⟨q, rfl⟩ := Nat.dvd_of_mod_eq_zero hd
      exact Nat.sub_mul_mod (by omega)
    have hd' : (i.1 - nextAligned a c i.1) % a = 0 :=
      Nat.sub_mod_eq_zero_of_mod_eq (nextAligned_mod ha c i.1).symm
    have hend : packedEnd a (nextAligned a c i.1 + (i.2 - i.1)) ls +
        (i.1 - nextAligned a c i.1) ≤ B :=
      ih hd' (by omega) hrest (fun j hj => hB j (List.mem_cons_of_mem _ hj))
        (hB i List.mem_cons_self)
    rw [packedEnd]
    omega

/-- **A packing that ends no earlier than the intervals moves none of them.** -/
theorem spots_eq_self (ha : 0 < a) {B : ℕ} (h : Ordered c ls) (hB : ∀ i ∈ ls, i.2 ≤ B)
    (hend : B ≤ packedEnd a c ls) {i : ℕ × ℕ} {n : ℕ} (hi : (i, n) ∈ spots a c ls) : n = i.1 := by
  induction ls generalizing c with
  | nil => cases hi
  | cons j ls ih =>
    obtain ⟨hle, hjj, hrest⟩ := h
    have hjB := hB j List.mem_cons_self
    have hearly : nextAligned a c j.1 ≤ j.1 := nextAligned_le ha hle rfl
    have hd : (j.1 - nextAligned a c j.1) % a = 0 :=
      Nat.sub_mod_eq_zero_of_mod_eq (nextAligned_mod ha c j.1).symm
    have hlate : packedEnd a (nextAligned a c j.1 + (j.2 - j.1)) ls +
        (j.1 - nextAligned a c j.1) ≤ B :=
      packedEnd_add_le ha hd (by omega) hrest (fun k hk => hB k (List.mem_cons_of_mem _ hk)) hjB
    rw [packedEnd] at hend
    have hplace : nextAligned a c j.1 = j.1 := by omega
    rw [spots, hplace] at hi
    rw [hplace, show j.1 + (j.2 - j.1) = j.2 by omega] at hend
    rw [show j.1 + (j.2 - j.1) = j.2 by omega] at hi
    rcases List.mem_cons.mp hi with heq | hi
    · obtain ⟨rfl, rfl⟩ := Prod.mk.inj heq
      rfl
    · exact ih hrest (fun k hk => hB k (List.mem_cons_of_mem _ hk)) hend hi

/-- The end of a packing is no later than the intervals. -/
lemma packedEnd_le (ha : 0 < a) {B : ℕ} (h : Ordered 0 ls) (hB : ∀ i ∈ ls, i.2 ≤ B) :
    packedEnd a 0 ls ≤ B :=
  packedEnd_add_le ha (Nat.zero_mod a) rfl h hB (Nat.zero_le B)

end Torajs.Placement
