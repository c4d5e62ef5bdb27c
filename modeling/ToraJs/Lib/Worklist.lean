import Mathlib.Data.List.Basic
import Mathlib.Logic.Basic

/-!
# Closures by worklist

A graph is walked with a list of nodes that are to be visited.  `Worklist.Walking` is what holds of
the nodes that have been visited and of the list; a node of the list is dropped if it was visited
before, and else it is visited and the nodes that it leads to are put on the list.  When the list is
empty the nodes that were visited are those that the roots reach.
-/

namespace Worklist

variable {α : Type*} {next : α → α → Prop} {roots visited : α → Prop} {pending out : List α} {x : α}

/-- The nodes that the roots reach. -/
inductive Reached (next : α → α → Prop) (roots : α → Prop) : α → Prop
  | root {x : α} (h : roots x) : Reached next roots x
  | step {x y : α} (hx : Reached next roots x) (h : next x y) : Reached next roots y

/-- What is reached lies in every set that contains the roots and is closed under the edges. -/
lemma Reached.least {P : α → Prop} (hroots : ∀ x, roots x → P x)
    (hclosed : ∀ x y, P x → next x y → P y) (h : Reached next roots x) : P x := by
  induction h with
  | root h => exact hroots _ h
  | step _ h ih => exact hclosed _ _ ih h

/-- The invariant of a walk. -/
structure Walking (next : α → α → Prop) (roots visited : α → Prop) (pending : List α) : Prop where
  visited_reached : ∀ x, visited x → Reached next roots x
  pending_reached : ∀ x ∈ pending, Reached next roots x
  roots_met : ∀ x, roots x → visited x ∨ x ∈ pending
  closed : ∀ x, visited x → ∀ y, next x y → visited y ∨ y ∈ pending

/-- A walk begins with the roots on its list. -/
lemma Walking.init (hroots : ∀ x, roots x ↔ x ∈ pending) :
    Walking next roots (fun _ => False) pending where
  visited_reached _ hx := hx.elim
  pending_reached x hx := .root ((hroots x).mpr hx)
  roots_met x hx := Or.inr ((hroots x).mp hx)
  closed _ hx := hx.elim

/-- A node that was visited is dropped. -/
lemma Walking.drop (h : Walking next roots visited (x :: pending)) (hx : visited x) :
    Walking next roots visited pending := by
  have hstill : ∀ y, visited y ∨ y ∈ x :: pending → visited y ∨ y ∈ pending := by
    rintro y (hy | hy)
    · exact Or.inl hy
    · rcases List.mem_cons.mp hy with rfl | hy
      · exact Or.inl hx
      · exact Or.inr hy
  exact ⟨h.visited_reached, fun y hy => h.pending_reached y (List.mem_cons_of_mem _ hy),
    fun y hy => hstill y (h.roots_met y hy), fun y hy z hz => hstill z (h.closed y hy z hz)⟩

/-- A node is visited, and what it leads to is put on the list. -/
lemma Walking.visit (h : Walking next roots visited (x :: pending))
    (hout : ∀ y, y ∈ out ↔ next x y ∨ y ∈ pending) :
    Walking next roots (fun y => visited y ∨ y = x) out := by
  have hx := h.pending_reached x List.mem_cons_self
  have hstill : ∀ y, visited y ∨ y ∈ x :: pending → (visited y ∨ y = x) ∨ y ∈ out := by
    rintro y (hy | hy)
    · exact Or.inl (Or.inl hy)
    · rcases List.mem_cons.mp hy with rfl | hy
      · exact Or.inl (Or.inr rfl)
      · exact Or.inr ((hout y).mpr (Or.inr hy))
  refine ⟨?_, fun y hy => ?_, fun y hy => hstill y (h.roots_met y hy), ?_⟩
  · rintro y (hy | rfl)
    · exact h.visited_reached y hy
    · exact hx
  · rcases (hout y).mp hy with hxy | hy
    · exact .step hx hxy
    · exact h.pending_reached y (List.mem_cons_of_mem _ hy)
  · rintro y (hy | rfl) z hz
    · exact hstill z (h.closed y hy z hz)
    · exact Or.inr ((hout z).mpr (Or.inl hz))

/-- **The end of a walk**: what was visited is what the roots reach. -/
lemma Walking.done (h : Walking next roots visited []) (x : α) :
    visited x ↔ Reached next roots x := by
  refine ⟨h.visited_reached x, fun hx => hx.least (fun y hy => ?_) fun y z hy hz => ?_⟩
  · exact (h.roots_met y hy).resolve_right List.not_mem_nil
  · exact (h.closed y hy z hz).resolve_right List.not_mem_nil

end Worklist
