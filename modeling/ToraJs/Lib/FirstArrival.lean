import Mathlib.Data.Finset.Card
import Mathlib.Data.Finset.Insert
import Mathlib.Data.Finset.Union
import Mathlib.Data.Finset.SDiff

/-!
# First-arrival search

A depth-first search over configurations that carry data beside their place in the
graph.  A place is a key; the first configuration to arrive at a key is visited, and
every later one is dropped.  Successors are ordered, so the visits come in a definite
order, and a search from a list of configurations is the search from its first part
followed by the search from the rest on what the first part left unvisited.

`visit` keeps the pending configurations on a stack.  `walk` is the recursive form, with
a depth bound; `walk_eq` says that a bound above the number of free keys is enough.
-/

namespace FirstArrival

/-- An ordered graph on configurations, with finitely many keys.  A configuration whose
key is not in `keys` is never visited. -/
structure Graph (α κ : Type*) where
  key : α → κ
  next : α → List α
  keys : Finset κ

/-- Taking a free key leaves fewer free keys. -/
lemma card_sdiff_insert_lt {κ : Type*} [DecidableEq κ] {keys V : Finset κ} {k : κ}
    (hk : k ∈ keys) (hV : k ∉ V) : (keys \ insert k V).card < (keys \ V).card := by
  apply Finset.card_lt_card
  refine Finset.ssubset_iff_subset_ne.mpr ⟨?_, ?_⟩
  · exact Finset.sdiff_subset_sdiff Finset.Subset.rfl (Finset.subset_insert _ _)
  · intro h
    have hmem : k ∈ keys \ V := Finset.mem_sdiff.mpr ⟨hk, hV⟩
    rw [← h] at hmem
    simp at hmem

variable {α κ : Type*} [DecidableEq κ] (G : Graph α κ)

namespace Graph

/-- The configurations visited from a stack, in order, when the keys in `V` are taken. -/
def visit (V : Finset κ) : List α → List α
  | [] => []
  | c :: cs =>
    if G.key c ∈ G.keys ∧ G.key c ∉ V then
      c :: visit (insert (G.key c) V) (G.next c ++ cs)
    else visit V cs
  termination_by cs => ((G.keys \ V).card, cs.length)
  decreasing_by
    · exact Prod.Lex.left _ _ (card_sdiff_insert_lt ‹_ ∧ _›.1 ‹_ ∧ _›.2)
    · apply Prod.Lex.right
      simp

/-- The keys taken after a search. -/
def after (V : Finset κ) (cs : List α) : Finset κ := V ∪ ((G.visit V cs).map G.key).toFinset

@[simp] lemma visit_nil (V : Finset κ) : G.visit V [] = [] := by
  rw [visit]

/-- A configuration that arrives first is visited, and its successors come next. -/
lemma visit_cons_of_fresh {V : Finset κ} {c : α} (cs : List α) (hk : G.key c ∈ G.keys)
    (hV : G.key c ∉ V) :
    G.visit V (c :: cs) = c :: G.visit (insert (G.key c) V) (G.next c ++ cs) := by
  rw [visit, if_pos ⟨hk, hV⟩]

/-- A configuration that arrives at a taken key is dropped. -/
lemma visit_cons_of_mem {V : Finset κ} {c : α} (cs : List α) (h : G.key c ∈ V) :
    G.visit V (c :: cs) = G.visit V cs := by
  rw [visit, if_neg fun hc => hc.2 h]

/-- A configuration outside the graph is dropped. -/
lemma visit_cons_of_notMem {V : Finset κ} {c : α} (cs : List α) (h : G.key c ∉ G.keys) :
    G.visit V (c :: cs) = G.visit V cs := by
  rw [visit, if_neg fun hc => h hc.1]

@[simp] lemma after_nil (V : Finset κ) : G.after V [] = V := by
  simp [after]

/-- What a visited configuration leaves taken. -/
lemma after_cons_of_fresh {V : Finset κ} {c : α} (cs : List α) (hk : G.key c ∈ G.keys)
    (hV : G.key c ∉ V) :
    G.after V (c :: cs) = G.after (insert (G.key c) V) (G.next c ++ cs) := by
  unfold after
  rw [visit_cons_of_fresh G cs hk hV]
  ext k
  simp only [List.map_cons, List.toFinset_cons, Finset.mem_union, Finset.mem_insert]
  tauto

/-- A dropped configuration takes nothing. -/
lemma after_cons_of_mem {V : Finset κ} {c : α} (cs : List α) (h : G.key c ∈ V) :
    G.after V (c :: cs) = G.after V cs := by
  unfold after
  rw [visit_cons_of_mem G cs h]

/-- A search takes no key away. -/
lemma subset_after (V : Finset κ) (cs : List α) : V ⊆ G.after V cs :=
  Finset.subset_union_left

/-- The search from a list is the search from its first part, and then the search from
the rest on the keys that the first part left. -/
theorem visit_append (V : Finset κ) (xs ys : List α) :
    G.visit V (xs ++ ys) = G.visit V xs ++ G.visit (G.after V xs) ys := by
  induction V, xs using visit.induct (G := G) with
  | case1 V => simp
  | case2 V c cs h ih =>
    rw [List.cons_append, visit_cons_of_fresh G _ h.1 h.2, visit_cons_of_fresh G _ h.1 h.2,
      after_cons_of_fresh G cs h.1 h.2, ← List.append_assoc, ih, List.cons_append]
  | case3 V c cs h ih =>
    rw [List.cons_append, visit, if_neg h, ih]
    unfold after
    rw [visit, if_neg h]

/-- The keys taken by the search from a list. -/
theorem after_append (V : Finset κ) (xs ys : List α) :
    G.after V (xs ++ ys) = G.after (G.after V xs) ys := by
  unfold after
  rw [visit_append]
  ext k
  simp only [List.map_append, List.toFinset_append, Finset.mem_union, after]
  tauto

/-- A property of the starting configurations that every step keeps holds of every visit. -/
theorem visit_induct {P : α → Prop} (hnext : ∀ c, P c → ∀ d ∈ G.next c, P d) {V : Finset κ}
    {cs : List α} (hcs : ∀ c ∈ cs, P c) : ∀ c ∈ G.visit V cs, P c := by
  induction V, cs using visit.induct (G := G) with
  | case1 V => simp
  | case2 V c cs h ih =>
    rw [visit_cons_of_fresh G _ h.1 h.2]
    have hc : P c := hcs c List.mem_cons_self
    have htail : ∀ d ∈ G.next c ++ cs, P d := by
      intro d hd
      rcases List.mem_append.mp hd with hd | hd
      · exact hnext c hc d hd
      · exact hcs d (List.mem_cons_of_mem c hd)
    intro d hd
    rcases List.mem_cons.mp hd with rfl | hd
    · exact hc
    · exact ih htail d hd
  | case3 V c cs h ih =>
    rw [visit, if_neg h]
    exact ih fun d hd => hcs d (List.mem_cons_of_mem c hd)

/-! ### The recursive form -/

/-- The recursive search with a depth bound: the visits so far and the taken keys go in
and come out. -/
def walk : ℕ → List α × Finset κ → α → List α × Finset κ
  | 0, acc, _ => acc
  | fuel + 1, acc, c =>
    if G.key c ∈ G.keys ∧ G.key c ∉ acc.2 then
      (G.next c).foldl (walk fuel) (acc.1 ++ [c], insert (G.key c) acc.2)
    else acc

/-- With a depth bound above the number of free keys, recursion and stack agree. -/
theorem walk_eq {fuel : ℕ} {acc : List α × Finset κ} (h : (G.keys \ acc.2).card < fuel) (c : α) :
    G.walk fuel acc c = (acc.1 ++ G.visit acc.2 [c], G.after acc.2 [c]) := by
  induction fuel generalizing acc c with
  | zero => omega
  | succ fuel ih =>
    have hfold : ∀ (cs : List α) (acc : List α × Finset κ), (G.keys \ acc.2).card < fuel →
        cs.foldl (G.walk fuel) acc = (acc.1 ++ G.visit acc.2 cs, G.after acc.2 cs) := by
      intro cs
      induction cs with
      | nil => intro acc _; simp
      | cons d cs ihcs =>
        intro acc hacc
        have hle : (G.keys \ G.after acc.2 [d]).card ≤ (G.keys \ acc.2).card :=
          Finset.card_le_card (Finset.sdiff_subset_sdiff Finset.Subset.rfl (G.subset_after _ _))
        rw [List.foldl_cons, ih hacc, ihcs _ (lt_of_le_of_lt hle hacc)]
        have hsplit : d :: cs = [d] ++ cs := rfl
        rw [hsplit, visit_append, after_append, List.append_assoc]
    by_cases hc : G.key c ∈ G.keys ∧ G.key c ∉ acc.2
    · rw [walk, if_pos hc, hfold _ _ (by have := card_sdiff_insert_lt hc.1 hc.2; simp only; omega),
        visit_cons_of_fresh G [] hc.1 hc.2, after_cons_of_fresh G [] hc.1 hc.2, List.append_nil,
        List.append_assoc, List.singleton_append]
    · have hvisit : G.visit acc.2 [c] = [] := by rw [visit, if_neg hc, visit_nil]
      rw [walk, if_neg hc]
      simp [after, hvisit]

end Graph

end FirstArrival
