import Mathlib.Data.List.Infix
import Mathlib.Data.Set.Basic

/-!
# Dominance in a rooted graph

Walks from a root, dominance as "every walk passes through", and immediate dominators:
`Dominates` is a partial order on the reachable nodes, an immediate dominator is unique,
and dominance is transported along a renaming of the reachable nodes.
-/

namespace Dominance

variable {α β : Type*} {E : α → α → Prop} {r : α}

/-- `Path E r b p`: the list `p` holds the nodes of a walk from `r` to `b`, last node
first. -/
inductive Path (E : α → α → Prop) (r : α) : α → List α → Prop
  | root : Path E r r [r]
  | step {b c : α} {p : List α} : Path E r b p → E b c → Path E r c (c :: p)

/-- Some walk from the root ends in the node. -/
def Reachable (E : α → α → Prop) (r b : α) : Prop := ∃ p, Path E r b p

/-- Every walk from the root to `b` passes through `a`. -/
def Dominates (E : α → α → Prop) (r a b : α) : Prop := ∀ p, Path E r b p → a ∈ p

/-- Dominance between different nodes. -/
def StrictlyDominates (E : α → α → Prop) (r a b : α) : Prop := Dominates E r a b ∧ a ≠ b

/-- The closest strict dominator: every strict dominator dominates it. -/
def IsImmediateDominator (E : α → α → Prop) (r d b : α) : Prop :=
  StrictlyDominates E r d b ∧ ∀ x, StrictlyDominates E r x b → Dominates E r x d

/-! ### Walks -/

lemma Path.mem_self {b : α} {p : List α} (h : Path E r b p) : b ∈ p := by
  cases h <;> exact List.mem_cons_self

lemma Path.root_mem {b : α} {p : List α} (h : Path E r b p) : r ∈ p := by
  induction h with
  | root => exact List.mem_cons_self
  | step _ _ ih => exact List.mem_cons_of_mem _ ih

/-- A walk that passes a node starts with a walk to it. -/
lemma Path.exists_suffix {a b : α} {p : List α} (h : Path E r b p) (ha : a ∈ p) :
    ∃ q, Path E r a q ∧ q <:+ p := by
  induction h with
  | root =>
    obtain rfl : a = r := by simpa using ha
    exact ⟨[a], Path.root, List.suffix_rfl⟩
  | @step b c p hp he ih =>
    rcases List.mem_cons.mp ha with rfl | ha
    · exact ⟨a :: p, Path.step hp he, List.suffix_rfl⟩
    · obtain ⟨q, hq, hsuf⟩ := ih ha
      exact ⟨q, hq, hsuf.trans (List.suffix_cons c p)⟩

lemma Path.reachable_of_mem {a b : α} {p : List α} (h : Path E r b p) (ha : a ∈ p) :
    Reachable E r a := by
  obtain ⟨q, hq, _⟩ := h.exists_suffix ha
  exact ⟨q, hq⟩

lemma Reachable.root : Reachable E r r := ⟨[r], Path.root⟩

lemma Reachable.step {b c : α} (h : Reachable E r b) (he : E b c) : Reachable E r c := by
  obtain ⟨p, hp⟩ := h
  exact ⟨c :: p, Path.step hp he⟩

/-- What holds of the root and along edges holds of the reachable nodes. -/
lemma Reachable.rec_on_step {P : α → Prop} (hroot : P r)
    (hstep : ∀ b c, Reachable E r b → P b → E b c → P c) {b : α} (h : Reachable E r b) : P b := by
  obtain ⟨p, hp⟩ := h
  induction hp with
  | root => exact hroot
  | step hp he ih => exact hstep _ _ ⟨_, hp⟩ ih he

/-! ### Dominance -/

lemma Dominates.refl (b : α) : Dominates E r b b := fun _ hp => hp.mem_self

lemma Dominates.root (b : α) : Dominates E r r b := fun _ hp => hp.root_mem

lemma Dominates.trans {a b c : α} (hab : Dominates E r a b) (hbc : Dominates E r b c) :
    Dominates E r a c := by
  intro p hp
  obtain ⟨q, hq, hsuf⟩ := hp.exists_suffix (hbc p hp)
  exact hsuf.subset (hab q hq)

/-- A strict dominator dominates every predecessor. -/
lemma Dominates.pred {a b c : α} (h : Dominates E r a c) (hne : a ≠ c) (he : E b c) :
    Dominates E r a b := by
  intro p hp
  exact (List.mem_cons.mp (h _ (Path.step hp he))).resolve_left hne

/-- Only the root dominates the root. -/
lemma Dominates.eq_root {a : α} (h : Dominates E r a r) : a = r := by
  simpa using h [r] Path.root

/-- Two reachable nodes that dominate each other are equal: on a shortest walk the one
cannot come before the other both ways. -/
lemma Dominates.antisymm {a b : α} (hb : Reachable E r b) (hab : Dominates E r a b)
    (hba : Dominates E r b a) : a = b := by
  obtain ⟨p, hp⟩ := hb
  induction hn : p.length using Nat.strong_induction_on generalizing p with
  | _ n ih =>
    obtain ⟨q, hq, hqp⟩ := hp.exists_suffix (hab p hp)
    obtain ⟨p', hp', hp'q⟩ := hq.exists_suffix (hba q hq)
    rcases (hp'q.trans hqp).length_le.lt_or_eq with hlt | heq
    · exact ih p'.length (hn ▸ hlt) p' hp' rfl
    · have hpp : q = p := hqp.eq_of_length_le (heq ▸ hp'q.length_le)
      subst hpp
      cases hp with
      | root =>
        cases hq with
        | root => rfl
        | step h _ => cases h
      | step _ _ => cases hq <;> rfl

/-- **An immediate dominator is unique.** -/
lemma IsImmediateDominator.unique {d d' b : α} (hb : Reachable E r b)
    (h : IsImmediateDominator E r d b) (h' : IsImmediateDominator E r d' b) : d = d' := by
  obtain ⟨p, hp⟩ := hb
  exact Dominates.antisymm (hp.reachable_of_mem (h'.1.1 p hp)) (h'.2 d h.1) (h.2 d' h'.1)

/-! ### Renaming -/

section Renaming

variable {E' : β → β → Prop} {f : α → β} {g : β → α}

lemma Path.map (hedge : ∀ b c, Reachable E r b → E b c → E' (f b) (f c)) {b : α} {p : List α}
    (h : Path E r b p) : Path E' (f r) (f b) (p.map f) := by
  induction h with
  | root => exact Path.root
  | step hp he ih => exact Path.step ih (hedge _ _ ⟨_, hp⟩ he)

lemma Reachable.map (hedge : ∀ b c, Reachable E r b → E b c → E' (f b) (f c)) {b : α}
    (h : Reachable E r b) : Reachable E' (f r) (f b) := by
  obtain ⟨p, hp⟩ := h
  exact ⟨_, hp.map hedge⟩

/-- A renaming of the reachable nodes: edges go to edges both ways, and `g` undoes `f`. -/
structure Renaming (E : α → α → Prop) (r : α) (E' : β → β → Prop) (r' : β) (f : α → β)
    (g : β → α) : Prop where
  root : f r = r'
  edge : ∀ b c, Reachable E r b → E b c → E' (f b) (f c)
  edge_back : ∀ b c, Reachable E' r' b → E' b c → E (g b) (g c)
  left_inv : ∀ b, Reachable E r b → g (f b) = b
  right_inv : ∀ b, Reachable E' r' b → f (g b) = b

lemma Renaming.symm {r' : β} (h : Renaming E r E' r' f g) : Renaming E' r' E r g f where
  root := by rw [← h.root, h.left_inv r Reachable.root]
  edge := h.edge_back
  edge_back := h.edge
  left_inv := h.right_inv
  right_inv := h.left_inv

lemma Renaming.reachable {r' : β} (h : Renaming E r E' r' f g) {b : α} (hb : Reachable E r b) :
    Reachable E' r' (f b) := by
  rw [← h.root]
  exact hb.map h.edge

/-- Dominance does not depend on the names. -/
lemma Renaming.dominates {r' : β} (h : Renaming E r E' r' f g) {a b : α}
    (ha : Reachable E r a) (hb : Reachable E r b) :
    Dominates E r a b ↔ Dominates E' r' (f a) (f b) := by
  constructor
  · intro hdom p hp
    have hback : Path E (g r') (g (f b)) (p.map g) := hp.map h.edge_back
    rw [h.symm.root, h.left_inv b hb] at hback
    obtain ⟨x, hx, hxa⟩ := List.mem_map.mp (hdom _ hback)
    have hxr : f (g x) = x := h.right_inv x (hp.reachable_of_mem hx)
    rwa [← hxa, hxr]
  · intro hdom p hp
    have hfwd : Path E' (f r) (f b) (p.map f) := hp.map h.edge
    rw [h.root] at hfwd
    obtain ⟨x, hx, hxa⟩ := List.mem_map.mp (hdom _ hfwd)
    have hxeq : x = a := by
      rw [← h.left_inv x (hp.reachable_of_mem hx), hxa, h.left_inv a ha]
    rwa [← hxeq]

end Renaming

end Dominance
