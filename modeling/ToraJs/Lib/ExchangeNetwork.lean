import ToraJs.Lib.StableSort

/-!
# Networks of exchanges between neighbours

A network is a list of positions; at each one the element is exchanged with its neighbour when
it is greater.  Exchanges keep the order of elements that tie, and a network that sorts all lists
of truth values of a length sorts all lists of that length.
-/

namespace ExchangeNetwork

open StableSort

variable {α : Type*} {gt : α → α → Bool}

/-- Exchanges the elements at `a` and `a + 1` when the first one is greater. -/
def exchange (gt : α → α → Bool) (v : List α) (a : ℕ) : List α :=
  match v[a]?, v[a + 1]? with
  | some x, some y => if gt x y = true then (v.set a y).set (a + 1) x else v
  | _, _ => v

/-- Runs the exchanges at the positions, in their order. -/
def run (gt : α → α → Bool) (v : List α) (positions : List ℕ) : List α :=
  positions.foldl (exchange gt) v

/-- What an exchange does: nothing, or it swaps two neighbours of which the first is greater. -/
lemma exchange_cases (gt : α → α → Bool) (v : List α) (a : ℕ) :
    (∃ xs x y ys, v = xs ++ x :: y :: ys ∧ xs.length = a ∧
      exchange gt v a = if gt x y = true then xs ++ y :: x :: ys else v) ∨
      (v.length ≤ a + 1 ∧ exchange gt v a = v) := by
  by_cases ha : a + 1 < v.length
  · left
    have hsplit : v = v.take a ++ v[a] :: v[a + 1] :: v.drop (a + 1 + 1) := by
      rw [← List.drop_eq_getElem_cons ha, ← List.drop_eq_getElem_cons (by omega),
        List.take_append_drop]
    have hlen : (v.take a).length = a := List.length_take_of_le (by omega)
    refine ⟨v.take a, v[a], v[a + 1], v.drop (a + 1 + 1), hsplit, hlen, ?_⟩
    unfold exchange
    rw [List.getElem?_eq_getElem (by omega), List.getElem?_eq_getElem ha]
    dsimp only
    split_ifs
    · obtain ⟨x, hx⟩ : ∃ x, v[a] = x := ⟨_, rfl⟩
      obtain ⟨y, hy⟩ : ∃ y, v[a + 1] = y := ⟨_, rfl⟩
      rw [hx, hy] at hsplit ⊢
      have hset : ∀ xs : List α, xs.length = a →
          ((xs ++ x :: y :: v.drop (a + 1 + 1)).set a y).set (a + 1) x =
            xs ++ y :: x :: v.drop (a + 1 + 1) := by
        rintro xs rfl
        simp
      exact (congrArg (fun w => (w.set a y).set (a + 1) x) hsplit).trans (hset _ hlen)
    · rfl
  · right
    refine ⟨by omega, ?_⟩
    unfold exchange
    rw [List.getElem?_eq_none (l := v) (i := a + 1) (by omega)]
    split
    · rename_i h
      exact absurd h (by simp)
    · rfl

/-- An exchange keeps the length. -/
lemma length_exchange (v : List α) (a : ℕ) : (exchange gt v a).length = v.length := by
  rcases exchange_cases gt v a with ⟨xs, x, y, ys, rfl, -, h⟩ | ⟨-, h⟩
  · rw [h]
    split_ifs <;> simp
  · rw [h]

/-- A network keeps the length. -/
lemma length_run (v : List α) (positions : List ℕ) : (run gt v positions).length = v.length := by
  induction positions generalizing v with
  | nil => rfl
  | cons a positions ih => exact (ih _).trans (length_exchange v a)

/-- A network keeps the order of elements that tie. -/
theorem sameTies_run (h : StrictWeak gt) (v : List α) (positions : List ℕ) :
    SameTies gt v (run gt v positions) := by
  induction positions generalizing v with
  | nil => exact SameTies.refl v
  | cons a positions ih =>
    refine SameTies.trans ?_ (ih _)
    rcases exchange_cases gt v a with ⟨xs, x, y, ys, rfl, -, hex⟩ | ⟨-, hex⟩
    · rw [hex]
      split_ifs with hxy
      · exact SameTies.exchange h hxy xs ys
      · exact SameTies.refl _
    · rw [hex]
      exact SameTies.refl v

/-- Exchanges depend on the comparison of the elements of the list only. -/
lemma run_congr {gt' : α → α → Bool} (h : StrictWeak gt) (v : List α) (positions : List ℕ)
    (hagree : ∀ a ∈ v, ∀ b ∈ v, gt' a b = gt a b) : run gt' v positions = run gt v positions := by
  induction positions generalizing v with
  | nil => rfl
  | cons a positions ih =>
    have hstep : exchange gt' v a = exchange gt v a := by
      unfold exchange
      split
      · rename_i x y hx hy
        rw [hagree x (List.mem_of_getElem? hx) y (List.mem_of_getElem? hy)]
      · rfl
    have hmem : ∀ x ∈ exchange gt v a, x ∈ v := fun x hx =>
      (sameTies_run h v [a]).perm.mem_iff.mp hx
    have hrest := ih (exchange gt v a) fun x hx y hy => hagree x (hmem x hx) y (hmem y hy)
    rw [← hstep] at hrest
    rw [run, List.foldl_cons, ← run, hrest, hstep]
    rfl

/-! ### The zero-one principle -/

/-- The comparison of truth values. -/
def gtBool (p q : Bool) : Bool := p && !q

/-- Being greater than a threshold is compatible with the exchanges. -/
lemma map_exchange (h : StrictWeak gt) (t : α) (v : List α) (a : ℕ) :
    (exchange gt v a).map (fun x => gt x t) = exchange gtBool (v.map fun x => gt x t) a := by
  rcases exchange_cases gt v a with ⟨xs, x, y, ys, rfl, hlen, hex⟩ | ⟨hlen, hex⟩
  · have hbool : exchange gtBool ((xs ++ x :: y :: ys).map fun x => gt x t) a =
        if gtBool (gt x t) (gt y t) = true then
          xs.map (fun x => gt x t) ++ gt y t :: gt x t :: ys.map (fun x => gt x t)
        else (xs ++ x :: y :: ys).map fun x => gt x t := by
      subst hlen
      simp [exchange]
    rw [hex, hbool]
    cases hx : gt x t with
    | false =>
      cases hy : gt y t with
      | false => split_ifs <;> simp [hx, hy]
      | true =>
        -- the first element is below the threshold, so it is not greater
        have hxy : gt x y = false := by
          by_contra hne
          have hgt := h.gt_of_gt_of_le (a := x) (b := y) (c := t) (by simpa using hne)
            (h.asymm y t hy)
          rw [hx] at hgt
          exact absurd hgt (by decide)
        simp [hxy, gtBool]
    | true =>
      cases hy : gt y t with
      | false =>
        have hxy : gt x y = true := by
          by_contra hne
          rw [h.negTrans x y t (by simpa using hne) hy] at hx
          exact absurd hx (by decide)
        simp [hxy, gtBool, hx, hy]
      | true => split_ifs <;> simp [hx, hy]
  · have hnone : exchange gtBool (v.map fun x => gt x t) a = v.map fun x => gt x t := by
      rcases exchange_cases gtBool (v.map fun x => gt x t) a with
        ⟨xs, x, y, ys, heq, hxs, -⟩ | ⟨-, h'⟩
      · have hl := congrArg List.length heq
        simp only [List.length_map, List.length_append, List.length_cons] at hl
        omega
      · exact h'
    rw [hex, hnone]

/-- A network on truth values is the network on the elements, seen through a threshold. -/
lemma map_run (h : StrictWeak gt) (t : α) (v : List α) (positions : List ℕ) :
    (run gt v positions).map (fun x => gt x t) = run gtBool (v.map fun x => gt x t) positions := by
  induction positions generalizing v with
  | nil => rfl
  | cons a positions ih =>
    have hstep := ih (exchange gt v a)
    rw [map_exchange h t v a] at hstep
    exact hstep

/-- A network that sorts the lists of truth values of a length sorts all lists of that length. -/
theorem sorted_run_of_bool (h : StrictWeak gt) {n : ℕ} {positions : List ℕ}
    (hbool : ∀ u : List Bool, u.length = n → Sorted gtBool (run gtBool u positions))
    {v : List α} (hv : v.length = n) : Sorted gt (run gt v positions) := by
  refine List.pairwise_iff_getElem.mpr fun i j hi hj hij => ?_
  by_contra hne
  have hsort := hbool (v.map fun x => gt x (run gt v positions)[j]) (by rw [List.length_map, hv])
  rw [← map_run h] at hsort
  have hpair := List.pairwise_iff_getElem.mp hsort i j (by rwa [List.length_map])
    (by rwa [List.length_map]) hij
  rw [List.getElem_map, List.getElem_map, h.irrefl] at hpair
  simp only [gtBool, Bool.not_false, Bool.and_true] at hpair
  exact hne hpair

/-- So it gives the stable sort of every list of that length. -/
theorem isStableSort_run (h : StrictWeak gt) {n : ℕ} {positions : List ℕ}
    (hbool : ∀ u : List Bool, u.length = n → Sorted gtBool (run gtBool u positions))
    {v : List α} (hv : v.length = n) : IsStableSort gt v (run gt v positions) :=
  ⟨sameTies_run h v positions, sorted_run_of_bool h hbool hv⟩

end ExchangeNetwork
