import Mathlib.Algebra.GroupWithZero.Nat
import Mathlib.Algebra.Order.BigOperators.Group.List
import Mathlib.Algebra.Order.Group.Nat
import ToraJs.Lib.TreeNumbering

/-!
# Walks over a tree

A walk enters a node, walks its children's subtrees in order, and leaves.  It is written as
a recursion, and as a loop over a stack of nodes to enter and nodes to leave.

Both come with one rule: an invariant over the nodes that are open, innermost first, and the
nodes entered so far, that entering a new node and leaving the innermost one preserve,
holds at the end, when every node of the tree was entered.
-/

namespace TreeWalk

open TreeNumbering (Anc IsTree)

variable {α σ : Type}

/-- The recursive walk of a subtree. -/
def visit (children : α → List α) (enter : α → σ → Option σ) (leave : σ → Option σ) :
    ℕ → α → σ → Option σ
  | 0, _, _ => none
  | fuel + 1, b, s => do
    let s ← enter b s
    let s ← (children b).foldlM (fun s c => visit children enter leave fuel c s) s
    leave s

/-- An entry of the stack. -/
inductive Visit (α : Type) where
  | enter (b : α)
  | exit
  deriving DecidableEq

/-- The walk by a stack; an entry outside the tree is dropped. -/
def run (children : α → List α) (inside : α → Bool) (enter : α → σ → Option σ)
    (leave : σ → Option σ) : ℕ → List (Visit α) → σ → Option σ
  | _, [], s => some s
  | 0, _ :: _, _ => none
  | fuel + 1, .exit :: stack, s => (leave s).bind (run children inside enter leave fuel stack)
  | fuel + 1, .enter b :: stack, s =>
    if inside b then
      (enter b s).bind
        (run children inside enter leave fuel ((children b).map .enter ++ .exit :: stack))
    else run children inside enter leave fuel stack s

/-! ### The subtree of a node -/

section Tree

variable {children : α → List α} {parent : α → Option α} {root : α} {rank : α → ℕ}

/-- Two ancestors of a node are one above the other. -/
lemma anc_total {a b x : α} (ha : Anc parent a x) (hb : Anc parent b x) :
    Anc parent a b ∨ Anc parent b a := by
  induction ha with
  | refl => exact Or.inr hb
  | @up x p hp ha ih =>
    rcases hb.eq_or_parent hp with rfl | hb
    · exact Or.inl (Anc.up hp ha)
    · exact ih hb

/-- The subtrees of two children of a node have nothing in common. -/
lemma eq_of_anc (ht : IsTree children parent root rank) {b c c' x : α} (hc : parent c = some b)
    (hc' : parent c' = some b) (hx : Anc parent c x) (hx' : Anc parent c' x) : c = c' := by
  have haux : ∀ {c c'}, parent c = some b → parent c' = some b → Anc parent c c' → c = c' := by
    intro c c' hc hc' hanc
    rcases hanc.eq_or_parent hc' with heq | hanc
    · exact heq
    · by_cases hcb : c = b
      · exact absurd (ht.rank_lt c b hc) (hcb ▸ Nat.lt_irrefl _)
      · exact absurd (ht.rank_lt c b hc) (Nat.lt_asymm (hanc.rank_lt ht hcb))
  rcases anc_total hx hx' with h | h
  · exact haux hc hc' h
  · exact (haux hc' hc h).symm

/-- What is below a node is the node or below one of its children. -/
lemma anc_iff (ht : IsTree children parent root rank) {b x : α} :
    Anc parent b x ↔ x = b ∨ ∃ c ∈ children b, Anc parent c x := by
  constructor
  · intro h
    induction h with
    | refl => exact Or.inl rfl
    | @up x p hp _ ih =>
      rcases ih with rfl | ⟨c, hc, hanc⟩
      · exact Or.inr ⟨x, (ht.mem_children p x).mpr hp, Anc.refl x⟩
      · exact Or.inr ⟨c, hc, Anc.up hp hanc⟩
  · rintro (rfl | ⟨c, hc, hanc⟩)
    · exact Anc.refl x
    · exact (Anc.up ((ht.mem_children b c).mp hc) (Anc.refl b)).trans hanc

/-- Where a walk stands when it enters a node: the open nodes are the ones above it, they
were entered with everything above them, and the node was not. -/
structure Spot (parent : α → Option α) (root : α) (path done : List α) (b : α) : Prop where
  root : Anc parent root b
  mem_path : ∀ a, a ∈ path ↔ Anc parent a b ∧ a ≠ b
  path_done : ∀ a ∈ path, a ∈ done
  closed : ∀ x ∈ done, ∀ a, Anc parent a x → a ∈ done
  fresh : ∀ x, Anc parent b x → x ∉ done

variable {enter : α → σ → Option σ} {leave : σ → Option σ} {Inv : List α → List α → σ → Prop}

/-- The walk of the children that are left. -/
private lemma fold_spec (ht : IsTree children parent root rank) {walk : α → σ → Option σ} {b : α}
    {path : List α}
    (hwalk : ∀ c ∈ children b, ∀ done s, Spot parent root (b :: path) done c →
      Inv (b :: path) done s → ∃ s' done', walk c s = some s' ∧ Inv (b :: path) done' s' ∧
        (∀ x, x ∈ done' ↔ x ∈ done ∨ Anc parent c x))
    (hroot : Anc parent root b) (hpath : ∀ a, a ∈ path ↔ Anc parent a b ∧ a ≠ b) :
    ∀ (cs : List α), cs.Nodup → (∀ c ∈ cs, c ∈ children b) → ∀ (done : List α) (s : σ),
      Inv (b :: path) done s → (∀ a ∈ b :: path, a ∈ done) →
      (∀ x ∈ done, ∀ a, Anc parent a x → a ∈ done) →
      (∀ c ∈ cs, ∀ x, Anc parent c x → x ∉ done) →
      ∃ s' done', cs.foldlM (fun s c => walk c s) s = some s' ∧ Inv (b :: path) done' s' ∧
        ∀ x, x ∈ done' ↔ x ∈ done ∨ ∃ c ∈ cs, Anc parent c x := by
  intro cs
  induction cs with
  | nil =>
    intro _ _ done s hinv _ _ _
    exact ⟨s, done, rfl, hinv, fun x => by simp⟩
  | cons c cs ih =>
    intro hnodup hcs done s hinv hopen hclosed hfresh
    obtain ⟨hc, hnodup⟩ := List.nodup_cons.mp hnodup
    have hcb := hcs c List.mem_cons_self
    have hparent := (ht.mem_children b c).mp hcb
    have hspot : Spot parent root (b :: path) done c := by
      refine ⟨Anc.up hparent hroot, fun a => ?_, hopen, hclosed, hfresh c List.mem_cons_self⟩
      have hlt := ht.rank_lt c b hparent
      constructor
      · intro ha
        have hab : Anc parent a b := by
          rcases List.mem_cons.mp ha with rfl | ha
          · exact Anc.refl _
          · exact ((hpath a).mp ha).1
        refine ⟨Anc.up hparent hab, ?_⟩
        rintro rfl
        by_cases heq : a = b
        · exact absurd hlt (heq ▸ Nat.lt_irrefl _)
        · exact absurd hlt (Nat.lt_asymm (hab.rank_lt ht heq))
      · rintro ⟨ha, hne⟩
        have hab := (ha.eq_or_parent hparent).resolve_left hne
        by_cases heq : a = b
        · exact List.mem_cons.mpr (Or.inl heq)
        · exact List.mem_cons_of_mem _ ((hpath a).mpr ⟨hab, heq⟩)
    obtain ⟨s₁, done₁, hs₁, hinv₁, hdone₁⟩ := hwalk c hcb done s hspot hinv
    have hclosed₁ : ∀ x ∈ done₁, ∀ a, Anc parent a x → a ∈ done₁ := by
      intro x hx a ha
      rw [hdone₁] at hx ⊢
      rcases hx with hx | hx
      · exact Or.inl (hclosed x hx a ha)
      · rcases anc_total ha hx with hac | hca
        · rcases hac.eq_or_parent hparent with rfl | hab
          · exact Or.inr (Anc.refl _)
          · refine Or.inl (hclosed b ?_ a hab)
            exact hopen b List.mem_cons_self
        · exact Or.inr hca
    have hfresh₁ : ∀ c' ∈ cs, ∀ x, Anc parent c' x → x ∉ done₁ := by
      intro c' hc' x hx hmem
      rcases (hdone₁ x).mp hmem with hmem | hanc
      · exact hfresh c' (List.mem_cons_of_mem _ hc') x hx hmem
      · have hparent' := (ht.mem_children b c').mp (hcs c' (List.mem_cons_of_mem _ hc'))
        exact hc (eq_of_anc ht hparent hparent' hanc hx ▸ hc')
    obtain ⟨s', done', hs', hinv', hdone'⟩ := ih hnodup
      (fun c' hc' => hcs c' (List.mem_cons_of_mem _ hc')) done₁ s₁ hinv₁
      (fun a ha => (hdone₁ a).mpr (Or.inl (hopen a ha))) hclosed₁ hfresh₁
    refine ⟨s', done', ?_, hinv', fun x => ?_⟩
    · rw [List.foldlM_cons, hs₁]
      exact hs'
    · rw [hdone', hdone₁, or_assoc]
      simp only [List.mem_cons, or_and_right, exists_or, exists_eq_left]

/-- **The rule for the recursive walk**, by induction on the height that is left: an invariant
that every step preserves holds behind the walk of a subtree, whose nodes were then
entered. -/
theorem visit_spec (ht : IsTree children parent root rank) {N : ℕ}
    (hN : ∀ x, Anc parent root x → rank x < N)
    (henter : ∀ path done b s, Spot parent root path done b → Inv path done s →
      ∃ s', enter b s = some s' ∧ Inv (b :: path) (b :: done) s')
    (hleave : ∀ b path done s, Inv (b :: path) done s →
      ∃ s', leave s = some s' ∧ Inv path done s') (fuel : ℕ) :
    ∀ {path done : List α} {b : α} {s : σ}, N ≤ rank b + fuel → Spot parent root path done b →
      Inv path done s → ∃ s' done', visit children enter leave fuel b s = some s' ∧
        Inv path done' s' ∧ ∀ x, x ∈ done' ↔ x ∈ done ∨ Anc parent b x := by
  induction fuel with
  | zero =>
    intro path done b s hfuel hspot _
    exact absurd (hN b hspot.root) (Nat.not_lt_of_le hfuel)
  | succ fuel ih =>
    intro path done b s hfuel hspot hinv
    obtain ⟨s₁, hs₁, hinv₁⟩ := henter path done b s hspot hinv
    have hwalk : ∀ c ∈ children b, ∀ done s, Spot parent root (b :: path) done c →
        Inv (b :: path) done s → ∃ s' done', visit children enter leave fuel c s = some s' ∧
          Inv (b :: path) done' s' ∧ ∀ x, x ∈ done' ↔ x ∈ done ∨ Anc parent c x := by
      intro c hc done s hspot hinv
      have hlt := ht.rank_lt c b ((ht.mem_children b c).mp hc)
      exact ih (by omega) hspot hinv
    have hclosed : ∀ x ∈ b :: done, ∀ a, Anc parent a x → a ∈ b :: done := by
      intro x hx a ha
      rcases List.mem_cons.mp hx with rfl | hx
      · by_cases hax : a = x
        · exact List.mem_cons.mpr (Or.inl hax)
        · exact List.mem_cons_of_mem _ (hspot.path_done a ((hspot.mem_path a).mpr ⟨ha, hax⟩))
      · exact List.mem_cons_of_mem _ (hspot.closed x hx a ha)
    have hfresh : ∀ c ∈ children b, ∀ x, Anc parent c x → x ∉ b :: done := by
      intro c hc x hx hmem
      have hparent := (ht.mem_children b c).mp hc
      rcases List.mem_cons.mp hmem with rfl | hmem
      · have hlt := ht.rank_lt c x hparent
        by_cases heq : c = x
        · exact absurd hlt (heq ▸ Nat.lt_irrefl _)
        · exact absurd hlt (Nat.lt_asymm (hx.rank_lt ht heq))
      · exact hspot.fresh x ((Anc.up hparent (Anc.refl b)).trans hx) hmem
    obtain ⟨s₂, done', hs₂, hinv₂, hdone'⟩ := fold_spec ht hwalk hspot.root hspot.mem_path
      (children b) (ht.nodup b) (fun c hc => hc) (b :: done) s₁ hinv₁
      (fun a ha => (List.mem_cons.mp ha).elim (fun h => List.mem_cons.mpr (Or.inl h))
        fun h => List.mem_cons_of_mem _ (hspot.path_done a h)) hclosed hfresh
    obtain ⟨s', hs', hinv'⟩ := hleave b path done' s₂ hinv₂
    refine ⟨s', done', ?_, hinv', fun x => ?_⟩
    · rw [visit, hs₁, Option.bind_eq_bind, Option.bind_some, hs₂, Option.bind_some, hs']
    · rw [hdone', List.mem_cons, anc_iff ht, or_assoc, or_left_comm]

/-- The walk of the whole tree. -/
theorem visit_root (ht : IsTree children parent root rank) {N : ℕ}
    (hN : ∀ x, Anc parent root x → rank x < N)
    (henter : ∀ path done b s, Spot parent root path done b → Inv path done s →
      ∃ s', enter b s = some s' ∧ Inv (b :: path) (b :: done) s')
    (hleave : ∀ b path done s, Inv (b :: path) done s →
      ∃ s', leave s = some s' ∧ Inv path done s') {s : σ} (hinv : Inv [] [] s) :
    ∃ s' done, visit children enter leave N root s = some s' ∧ Inv [] done s' ∧
      ∀ x, x ∈ done ↔ Anc parent root x := by
  have hspot : Spot parent root [] [] root := by
    refine ⟨Anc.refl root, fun a => ?_, nofun, nofun, fun _ _ => List.not_mem_nil⟩
    constructor
    · exact fun h => absurd h List.not_mem_nil
    · rintro ⟨ha, hne⟩
      cases ha with
      | refl => exact absurd rfl hne
      | up hp _ => exact absurd (ht.root.symm.trans hp) (by simp)
  obtain ⟨s', done, hs', hinv', hdone⟩ :=
    visit_spec ht hN henter hleave N (Nat.le_add_left N (rank root)) hspot hinv
  exact ⟨s', done, hs', hinv', fun x => by simpa using hdone x⟩

/-! ### The walk by a stack -/

/-- How many entries of the stack the walk of a subtree takes. -/
def cost (children : α → List α) : ℕ → α → ℕ
  | 0, _ => 0
  | fuel + 1, b => 2 + ((children b).map (cost children fuel)).sum

/-- **The stack walks a subtree as the recursion does**, and then what is below it on the
stack. -/
theorem run_enter {inside : α → Bool} (hinside : ∀ b, ∀ c ∈ children b, inside c = true)
    (fuel : ℕ) : ∀ {b : α} {s s' : σ} (left : ℕ) (stack : List (Visit α)), inside b = true →
      visit children enter leave fuel b s = some s' →
      run children inside enter leave (cost children fuel b + left) (.enter b :: stack) s =
        run children inside enter leave left stack s' := by
  induction fuel with
  | zero =>
    intro b s s' left stack _ h
    cases h
  | succ fuel ih =>
    intro b s s' left stack hb h
    rw [visit] at h
    obtain ⟨s₁, hs₁, h⟩ := Option.bind_eq_some_iff.mp h
    obtain ⟨s₂, hs₂, hs'⟩ := Option.bind_eq_some_iff.mp h
    -- the children's entries one after the other
    have hfold : ∀ (cs : List α), (∀ c ∈ cs, c ∈ children b) → ∀ {s s₂ : σ},
        cs.foldlM (fun s c => visit children enter leave fuel c s) s = some s₂ →
        run children inside enter leave ((cs.map (cost children fuel)).sum + (left + 1))
            (cs.map .enter ++ .exit :: stack) s =
          run children inside enter leave (left + 1) (.exit :: stack) s₂ := by
      intro cs
      induction cs with
      | nil =>
        intro _ s s₂ h
        obtain rfl := Option.some.inj h
        rw [List.map_nil, List.map_nil, List.sum_nil, Nat.zero_add, List.nil_append]
      | cons c cs ihcs =>
        intro hcs s s₂ h
        rw [List.foldlM_cons, Option.bind_eq_bind, Option.bind_eq_some_iff] at h
        obtain ⟨s₀, hs₀, h⟩ := h
        rw [List.map_cons, List.map_cons, List.sum_cons, Nat.add_assoc, List.cons_append,
          ih _ _ (hinside b c (hcs c List.mem_cons_self)) hs₀]
        exact ihcs (fun c' hc' => hcs c' (List.mem_cons_of_mem _ hc')) h
    have hcost : cost children (fuel + 1) b + left =
        ((children b).map (cost children fuel)).sum + (left + 1) + 1 := by
      rw [cost]
      omega
    rw [hcost, run, if_pos hb, hs₁, Option.bind_some, hfold (children b) (fun c hc => hc) hs₂, run,
      hs', Option.bind_some]

/-- The cost is the number of steps the recursion takes. -/
private lemma eq_of_visit_count (fuel : ℕ) : ∀ {b : α} {s s' : ℕ},
    visit children (fun _ s => some (s + 1)) (fun s => some (s + 1)) fuel b s = some s' →
      s' = s + cost children fuel b := by
  induction fuel with
  | zero =>
    intro b s s' h
    cases h
  | succ fuel ih =>
    intro b s s' h
    have hfold : ∀ (cs : List α) {s s' : ℕ}, cs.foldlM (fun s c =>
        visit children (fun _ s => some (s + 1)) (fun s => some (s + 1)) fuel c s) s = some s' →
          s' = s + (cs.map (cost children fuel)).sum := by
      intro cs
      induction cs with
      | nil => exact fun h => (Option.some.inj h).symm
      | cons c cs ihcs =>
        intro s s' h
        rw [List.foldlM_cons] at h
        obtain ⟨s₁, hs₁, h⟩ := Option.bind_eq_some_iff.mp h
        rw [ihcs h, ih hs₁, List.map_cons, List.sum_cons, Nat.add_assoc]
    rw [visit] at h
    obtain ⟨s₁, hs₁, h⟩ := Option.bind_eq_some_iff.mp h
    obtain ⟨s₂, hs₂, hs'⟩ := Option.bind_eq_some_iff.mp h
    have hlast := Option.some.inj hs'
    have hfirst := Option.some.inj hs₁
    have hrest := hfold (children b) hs₂
    rw [cost]
    omega

/-- Every node costs one entry and one exit. -/
lemma cost_root_le [DecidableEq α] (ht : IsTree children parent root rank) {N : ℕ}
    (hN : ∀ x, Anc parent root x → rank x < N) {nodes : List α}
    (hnodes : ∀ x, Anc parent root x → x ∈ nodes) : cost children N root ≤ 2 * nodes.length := by
  let Counted : List α → List α → ℕ → Prop := fun path done s =>
    s + path.length = 2 * done.length ∧ done.Nodup
  have henter : ∀ path done b s, Spot parent root path done b → Counted path done s →
      ∃ s', (fun (_ : α) (s : ℕ) => some (s + 1)) b s = some s' ∧
        Counted (b :: path) (b :: done) s' := by
    rintro path done b s hspot ⟨hcount, hnodup⟩
    refine ⟨s + 1, rfl, ?_, List.nodup_cons.mpr ⟨hspot.fresh b (Anc.refl b), hnodup⟩⟩
    rw [List.length_cons, List.length_cons]
    omega
  have hleave : ∀ b path done s, Counted (b :: path) done s →
      ∃ s', (fun (s : ℕ) => some (s + 1)) s = some s' ∧ Counted path done s' := by
    rintro b path done s ⟨hcount, hnodup⟩
    refine ⟨s + 1, rfl, ?_, hnodup⟩
    rw [List.length_cons] at hcount
    omega
  obtain ⟨s', done, hs', ⟨hcount, hnodup⟩, hdone⟩ :=
    visit_root ht hN henter hleave ⟨rfl, List.nodup_nil⟩
  have hcost := eq_of_visit_count N hs'
  have hlen := (List.subperm_of_subset hnodup fun x hx => hnodes x ((hdone x).mp hx)).length_le
  rw [List.length_nil] at hcount
  omega

/-- **The stack walks the tree as the recursion does.** -/
theorem run_root [DecidableEq α] (ht : IsTree children parent root rank) {N : ℕ}
    (hN : ∀ x, Anc parent root x → rank x < N) {nodes : List α}
    (hnodes : ∀ x, Anc parent root x → x ∈ nodes) {inside : α → Bool}
    (hroot : inside root = true) (hinside : ∀ b, ∀ c ∈ children b, inside c = true) {s s' : σ}
    (h : visit children enter leave N root s = some s') {fuel : ℕ}
    (hfuel : 2 * nodes.length ≤ fuel) :
    run children inside enter leave fuel [.enter root] s = some s' := by
  obtain ⟨left, rfl⟩ := Nat.exists_eq_add_of_le ((cost_root_le ht hN hnodes).trans hfuel)
  rw [run_enter hinside N left [] hroot h]
  cases left <;> rfl

end Tree

end TreeWalk
