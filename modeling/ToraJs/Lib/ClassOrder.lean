import Mathlib.Data.List.Chain
import Mathlib.Data.List.Perm.Basic
import Mathlib.Logic.Relation

/-!
# Ordering by classes

Elements have a class, a number; those of class 0 stand still.  Two neighbours may be exchanged
when the second one has a smaller class that is not 0, and a list is ordered when no such pair is
left.  Exchanging leads to one ordered list only: it is the one that inserts the elements one
after the other, from the end.
-/

namespace ClassOrder

variable {α : Type*} (cls : α → ℕ)

/-- The exchange of two neighbours of which the second one has a smaller class that is not 0. -/
inductive Exchange : List α → List α → Prop
  | swap (xs : List α) {a b : α} (ys : List α) (h : cls b < cls a) (hb : 0 < cls b) :
      Exchange (xs ++ a :: b :: ys) (xs ++ b :: a :: ys)

/-- No two neighbours may be exchanged. -/
def Ordered (xs : List α) : Prop := xs.IsChain fun a b => cls b = 0 ∨ cls a ≤ cls b

/-- The list comes from another one by exchanges, and is ordered. -/
structure IsOrderOf (xs ys : List α) : Prop where
  reached : Relation.ReflTransGen (Exchange cls) xs ys
  ordered : Ordered cls ys

/-- Inserts an element in front of an ordered list. -/
def insert (x : α) : List α → List α
  | [] => [x]
  | y :: ys => if 0 < cls y ∧ cls y < cls x then y :: insert x ys else x :: y :: ys

/-- Orders a list by insertion, from the end. -/
def order (xs : List α) : List α := xs.foldr (insert cls) []

variable {cls}

/-- The order of a list with one more element in front. -/
@[simp] lemma order_cons (x : α) (xs : List α) :
    order cls (x :: xs) = insert cls x (order cls xs) := rfl

/-- The order of the empty list. -/
@[simp] lemma order_nil : order cls [] = [] := rfl

/-- An ordered list is its own order. -/
lemma order_of_ordered {xs : List α} (h : Ordered cls xs) : order cls xs = xs := by
  induction xs with
  | nil => rfl
  | cons x xs ih =>
    rw [order_cons, ih h.tail]
    cases xs with
    | nil => rfl
    | cons y ys =>
      have hxy := (List.isChain_cons_cons.mp h).1
      exact if_neg fun hlt => by omega

/-- Two elements of different classes that are not 0 may be inserted in any order. -/
lemma insert_comm {a b : α} (ha : 0 < cls a) (hb : 0 < cls b) (hne : cls a ≠ cls b)
    (xs : List α) : insert cls a (insert cls b xs) = insert cls b (insert cls a xs) := by
  induction xs with
  | nil =>
    simp only [insert]
    split_ifs <;> first | rfl | omega
  | cons x xs ih =>
    by_cases hxb : 0 < cls x ∧ cls x < cls b
    · by_cases hxa : 0 < cls x ∧ cls x < cls a
      · simp only [insert, if_pos hxb, if_pos hxa, ih]
      · have hba : ¬ (0 < cls b ∧ cls b < cls a) := by omega
        have hab : 0 < cls a ∧ cls a < cls b := by omega
        simp only [insert, if_pos hxb, if_neg hxa, if_pos hab]
    · by_cases hxa : 0 < cls x ∧ cls x < cls a
      · have hba : 0 < cls b ∧ cls b < cls a := by omega
        simp only [insert, if_neg hxb, if_pos hxa, if_pos hba]
      · simp only [insert, if_neg hxb, if_neg hxa]
        split_ifs <;> first | rfl | omega

/-- Two neighbours of different classes that are not 0 have the same order either way. -/
lemma order_swap {a b : α} (ha : 0 < cls a) (hb : 0 < cls b) (hne : cls a ≠ cls b)
    (xs ys : List α) : order cls (xs ++ a :: b :: ys) = order cls (xs ++ b :: a :: ys) := by
  induction xs with
  | nil => exact insert_comm ha hb hne _
  | cons x xs ih => rw [List.cons_append, List.cons_append, order_cons, order_cons, ih]

/-- An element may be moved in front of elements of other classes that are not 0. -/
lemma order_move {c : α} {ms : List α} (hc : 0 < cls c)
    (hms : ∀ m ∈ ms, 0 < cls m ∧ cls m ≠ cls c) (xs ys : List α) :
    order cls (xs ++ ms ++ c :: ys) = order cls (xs ++ c :: ms ++ ys) := by
  induction ms generalizing xs with
  | nil => simp
  | cons m ms ih =>
    have hm := hms m List.mem_cons_self
    have hrest := ih (fun x hx => hms x (List.mem_cons_of_mem m hx)) (xs ++ [m])
    have hswap := order_swap hm.1 hc hm.2 xs (ms ++ ys)
    simp only [List.append_assoc, List.cons_append, List.nil_append] at hrest hswap ⊢
    rw [hrest, hswap]

/-- An exchange does not change the order. -/
lemma Exchange.order_eq {xs ys : List α} (h : Exchange cls xs ys) :
    order cls xs = order cls ys := by
  obtain ⟨us, vs, hlt, hb⟩ := h
  exact order_swap (by omega) hb (by omega) us vs

/-- Runs of exchanges do not change the order. -/
lemma order_eq_of_reached {xs ys : List α} (h : Relation.ReflTransGen (Exchange cls) xs ys) :
    order cls xs = order cls ys := by
  induction h with
  | refl => rfl
  | tail _ hstep ih => rw [ih, hstep.order_eq]

/-- Exchanges lead to one ordered list only. -/
theorem IsOrderOf.eq_order {xs ys : List α} (h : IsOrderOf cls xs ys) : ys = order cls xs := by
  rw [order_eq_of_reached h.reached, order_of_ordered h.ordered]

/-- Exchanges in a part are exchanges in the whole. -/
lemma Exchange.append {xs ys : List α} (us vs : List α) (h : Exchange cls xs ys) :
    Exchange cls (us ++ xs ++ vs) (us ++ ys ++ vs) := by
  obtain ⟨xs, ys, hlt, hb⟩ := h
  have hswap := Exchange.swap (us ++ xs) (ys ++ vs) hlt hb
  simpa only [List.append_assoc, List.cons_append] using hswap

/-- Runs of exchanges in a part are runs of exchanges in the whole. -/
lemma reached_append {xs ys : List α} (us vs : List α)
    (h : Relation.ReflTransGen (Exchange cls) xs ys) :
    Relation.ReflTransGen (Exchange cls) (us ++ xs ++ vs) (us ++ ys ++ vs) := by
  induction h with
  | refl => exact Relation.ReflTransGen.refl
  | tail _ hstep ih => exact ih.tail (hstep.append us vs)

/-- Exchanges keep the elements. -/
lemma perm_of_reached {xs ys : List α} (h : Relation.ReflTransGen (Exchange cls) xs ys) :
    ys.Perm xs := by
  induction h with
  | refl => exact List.Perm.refl xs
  | tail _ hstep ih =>
    obtain ⟨us, vs, -, -⟩ := hstep
    exact ((List.Perm.swap _ _ vs).append_left us).trans ih

end ClassOrder
