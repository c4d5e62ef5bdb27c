import Mathlib.Data.List.Nodup
import Mathlib.Logic.Function.Basic

/-!
# Numbering a tree by entry and exit times

A walk over a rooted tree, given by lists of children, that stamps every node when it is
entered and when it is left.  A node is a proper ancestor of another exactly when its
interval of times encloses the other's.
-/

namespace TreeNumbering

variable {α : Type*}

/-! ### Ancestors -/

/-- Ancestors along a parent function, the node itself included. -/
inductive Anc (parent : α → Option α) : α → α → Prop
  | refl (b : α) : Anc parent b b
  | up {a b p : α} : parent b = some p → Anc parent a p → Anc parent a b

/-- A parent function and its lists of children, without cycles. -/
structure IsTree (children : α → List α) (parent : α → Option α) (root : α) (rank : α → ℕ) :
    Prop where
  mem_children : ∀ p c, c ∈ children p ↔ parent c = some p
  nodup : ∀ p, (children p).Nodup
  rank_lt : ∀ c p, parent c = some p → rank p < rank c
  root : parent root = none

section Ancestors

variable {children : α → List α} {parent : α → Option α} {root : α} {rank : α → ℕ}

lemma Anc.trans {a b c : α} (hab : Anc parent a b) (hbc : Anc parent b c) : Anc parent a c := by
  induction hbc with
  | refl => exact hab
  | up hp _ ih => exact Anc.up hp ih

lemma Anc.eq_or_parent {a b p : α} (h : Anc parent a b) (hp : parent b = some p) :
    a = b ∨ Anc parent a p := by
  cases h with
  | refl => exact Or.inl rfl
  | up hp' h =>
    obtain rfl : p = _ := Option.some.inj (hp.symm.trans hp')
    exact Or.inr h

lemma Anc.rank_lt (ht : IsTree children parent root rank) {a b : α} (h : Anc parent a b)
    (hne : a ≠ b) : rank a < rank b := by
  induction h with
  | refl => exact absurd rfl hne
  | @up b p hp h ih =>
    have hlt := ht.rank_lt b p hp
    by_cases hap : a = p
    · exact hap ▸ hlt
    · exact Nat.lt_trans (ih hap) hlt

lemma Anc.antisymm (ht : IsTree children parent root rank) {a b : α} (hab : Anc parent a b)
    (hba : Anc parent b a) : a = b := by
  by_contra hne
  exact absurd (hab.rank_lt ht hne) (Nat.lt_asymm (hba.rank_lt ht (Ne.symm hne)))

end Ancestors

/-! ### The walk -/

/-- The walk: the clock, the stack of nodes with the index of their next child, and the
times stamped so far. -/
def number [DecidableEq α] (children : α → List α) : ℕ → ℕ → List (α × ℕ) →
    (α → Option ℕ) → (α → Option ℕ) → Option ((α → Option ℕ) × (α → Option ℕ))
  | _, _, [], enter, exit => some (enter, exit)
  | 0, _, _ :: _, _, _ => none
  | fuel + 1, clock, (b, k) :: stack, enter, exit =>
    match (children b)[k]? with
    | some c =>
      number children fuel (clock + 1) ((c, 0) :: (b, k + 1) :: stack)
        (Function.update enter c (some (clock + 1))) exit
    | none =>
      number children fuel (clock + 1) stack enter (Function.update exit b (some (clock + 1)))

/-- The stack is a node with its ancestors, up to the root. -/
def Spine (parent : α → Option α) (root : α) : List (α × ℕ) → Prop
  | [] => True
  | [(b, _)] => b = root
  | (c, _) :: (p, k) :: rest => parent c = some p ∧ Spine parent root ((p, k) :: rest)

/-- What holds before every round. -/
structure Inv (children : α → List α) (parent : α → Option α) (root : α) (clock : ℕ)
    (stack : List (α × ℕ)) (enter exit : α → Option ℕ) : Prop where
  spine : Spine parent root stack
  next : ∀ p k, (p, k) ∈ stack → ∀ j c, (children p)[j]? = some c → ((enter c).isSome ↔ j < k)
  onStack : ∀ b, b ∈ stack.map Prod.fst ↔ (enter b).isSome ∧ exit b = none
  exited : ∀ b, (exit b).isSome → (enter b).isSome ∧ ∀ c ∈ children b, (enter c).isSome
  parent_entered : ∀ c p, (enter c).isSome → parent c = some p → (enter p).isSome
  root_entered : (enter root).isSome
  tree : ∀ b, (enter b).isSome → Anc parent root b
  enter_le : ∀ b t, enter b = some t → t ≤ clock
  exit_le : ∀ b t, exit b = some t → t ≤ clock
  lt_exit : ∀ b s t, enter b = some s → exit b = some t → s < t
  inside : ∀ a b s t, Anc parent a b → a ≠ b → enter a = some s → enter b = some t →
    s < t ∧ ∀ x, exit a = some x → ∃ y, exit b = some y ∧ y < x
  before : ∀ a b s t, ¬ Anc parent a b → enter a = some s → enter b = some t → s < t →
    ∃ x, exit a = some x ∧ x < t

section Steps

variable {children : α → List α} {parent : α → Option α} {root : α} {rank : α → ℕ} {clock : ℕ}
  {stack : List (α × ℕ)} {enter exit : α → Option ℕ}

/-- The nodes on the stack are the ancestors of the top. -/
lemma Spine.mem_iff (hroot : parent root = none) {b : α} {k : ℕ} (a : α) :
    Spine parent root ((b, k) :: stack) → (a ∈ ((b, k) :: stack).map Prod.fst ↔ Anc parent a b) := by
  induction stack generalizing b k with
  | nil =>
    intro h
    obtain rfl : b = root := h
    constructor
    · intro ha
      obtain rfl : a = b := by simpa using ha
      exact Anc.refl a
    · intro ha
      cases ha with
      | refl => simp
      | up hp _ => simp [hroot] at hp
  | cons top stack ih =>
    obtain ⟨p, k'⟩ := top
    rintro ⟨hp, hspine⟩
    rw [List.map_cons, List.mem_cons, ih hspine]
    constructor
    · rintro (rfl | ha)
      · exact Anc.refl _
      · exact Anc.up hp ha
    · intro ha
      exact ha.eq_or_parent hp

lemma Spine.tail {b : α} {k : ℕ} (h : Spine parent root ((b, k) :: stack)) :
    Spine parent root stack := by
  cases stack with
  | nil => trivial
  | cons top stack => exact h.2

/-- No node is on the stack below itself. -/
lemma Spine.notMem_tail (ht : IsTree children parent root rank) {b : α} {k : ℕ}
    (h : Spine parent root ((b, k) :: stack)) : b ∉ stack.map Prod.fst := by
  cases stack with
  | nil => simp
  | cons top stack =>
    obtain ⟨p, k'⟩ := top
    obtain ⟨hp, hspine⟩ := h
    rw [hspine.mem_iff ht.root b]
    intro hanc
    have hlt := ht.rank_lt b p hp
    by_cases hbp : b = p
    · exact absurd hlt (hbp ▸ Nat.lt_irrefl _)
    · exact absurd hlt (Nat.lt_asymm (hanc.rank_lt ht hbp))

lemma Inv.entered_of_anc (h : Inv children parent root clock stack enter exit) {a b : α}
    (hanc : Anc parent a b) (hb : (enter b).isSome) : (enter a).isSome := by
  induction hanc with
  | refl => exact hb
  | up hp _ ih => exact ih (h.parent_entered _ _ hb hp)

/-- A node that was entered and is not on the stack was left. -/
lemma Inv.exists_exit (h : Inv children parent root clock stack enter exit) {b : α}
    (hb : (enter b).isSome) (hstack : b ∉ stack.map Prod.fst) : ∃ x, exit b = some x := by
  cases hx : exit b with
  | some x => exact ⟨x, rfl⟩
  | none => exact absurd ((h.onStack b).mpr ⟨hb, hx⟩) hstack

variable [DecidableEq α]

/-- Stamping an entry leaves fewer nodes without one. -/
lemma countP_update_lt {nodes : List α} {enter : α → Option ℕ} {c : α} {t : ℕ} (hc : c ∈ nodes)
    (hfresh : enter c = none) :
    (nodes.countP fun x => (Function.update enter c (some t) x).isNone) + 1 ≤
      nodes.countP fun x => (enter x).isNone := by
  have hle : ∀ l : List α, (l.countP fun x => (Function.update enter c (some t) x).isNone) ≤
      l.countP fun x => (enter x).isNone := by
    intro l
    apply List.countP_mono_left
    intro x _ hx
    by_cases hxc : x = c
    · simp [hxc] at hx
    · simpa [hxc] using hx
  induction nodes with
  | nil => cases hc
  | cons x nodes ih =>
    rw [List.countP_cons, List.countP_cons]
    by_cases hxc : x = c
    · subst hxc
      have := hle nodes
      simp only [Function.update_self, hfresh, Option.isNone_none, Option.isNone_some, if_true,
        Bool.false_eq_true, if_false]
      omega
    · have := ih ((List.mem_cons.mp hc).resolve_left (Ne.symm hxc))
      simp only [Function.update_of_ne hxc]
      omega

/-- Entering a child. -/
lemma Inv.push (ht : IsTree children parent root rank) {b c : α} {k : ℕ}
    (h : Inv children parent root clock ((b, k) :: stack) enter exit)
    (hc : (children b)[k]? = some c) :
    Inv children parent root (clock + 1) ((c, 0) :: (b, k + 1) :: stack)
      (Function.update enter c (some (clock + 1))) exit := by
  have hpc : parent c = some b := (ht.mem_children b c).mp (List.mem_of_getElem? hc)
  have hfresh : enter c = none := by
    have := h.next b k List.mem_cons_self k c hc
    rw [← Option.not_isSome_iff_eq_none, this]
    exact Nat.lt_irrefl k
  have hb : (enter b).isSome ∧ exit b = none := (h.onStack b).mp (by simp)
  have hsome : ∀ x, (Function.update enter c (some (clock + 1)) x).isSome ↔
      x = c ∨ (enter x).isSome := by
    intro x
    by_cases hx : x = c
    · simp [hx]
    · simp [hx]
  have hne : ∀ {x}, (enter x).isSome → x ≠ c := by
    rintro x hx rfl
    simp [hfresh] at hx
  have hexit : exit c = none := by
    cases hx : exit c with
    | none => rfl
    | some y => exact absurd rfl (hne (h.exited c (by simp [hx])).1)
  have hval : ∀ {x t}, Function.update enter c (some (clock + 1)) x = some t →
      (x = c ∧ t = clock + 1) ∨ (x ≠ c ∧ enter x = some t) := by
    intro x t hx
    by_cases hxc : x = c
    · subst hxc
      rw [Function.update_self] at hx
      exact Or.inl ⟨rfl, (Option.some.inj hx).symm⟩
    · rw [Function.update_of_ne hxc] at hx
      exact Or.inr ⟨hxc, hx⟩
  have hstack : ∀ a, a ∈ ((b, k) :: stack).map Prod.fst ↔ Anc parent a b :=
    fun a => h.spine.mem_iff ht.root a
  refine ⟨⟨hpc, ?_⟩, ?_, ?_, ?_, ?_, (hsome _).mpr (Or.inr h.root_entered), ?_, ?_, ?_, ?_, ?_, ?_⟩
  · cases stack with
    | nil => exact h.spine
    | cons top stack => exact h.spine
  · intro p k' hmem j d hd
    have hpd : parent d = some p := (ht.mem_children p d).mp (List.mem_of_getElem? hd)
    rw [hsome]
    rcases List.mem_cons.mp hmem with heq | hmem₁
    · obtain ⟨rfl, rfl⟩ := Prod.mk.inj heq
      have hdc : d ≠ p := by
        rintro rfl
        exact Nat.lt_irrefl _ (ht.rank_lt d d hpd)
      have hnot : ¬ (enter d).isSome := fun hd' => by
        simpa [hfresh] using h.parent_entered d p hd' hpd
      simp [hdc, hnot]
    · rcases List.mem_cons.mp hmem₁ with heq | hmem₂
      · obtain ⟨rfl, rfl⟩ := Prod.mk.inj heq
        have hold := h.next p k List.mem_cons_self j d hd
        by_cases hjk : j = k
        · subst hjk
          have hdc : d = c := Option.some.inj (hd.symm.trans hc)
          simp [hdc]
        · have hdc : d ≠ c := by
            rintro rfl
            have hlt := (List.getElem?_eq_some_iff.mp hd).1
            exact hjk ((List.getElem?_inj hlt (ht.nodup p)).mp (hd.trans hc.symm))
          rw [hold]
          constructor
          · rintro (h' | h')
            · exact absurd h' hdc
            · omega
          · intro h'
            exact Or.inr (by omega)
      · have hdc : d ≠ c := by
          rintro rfl
          have hpb : p = b := Option.some.inj (hpd.symm.trans hpc)
          exact h.spine.notMem_tail ht (List.mem_map.mpr ⟨(p, k'), hmem₂, hpb⟩)
        have hold := h.next p k' (List.mem_cons_of_mem _ hmem₂) j d hd
        rw [← hold]
        exact or_iff_right hdc
  · intro x
    have hold := h.onStack x
    simp only [List.map_cons, List.mem_cons] at hold ⊢
    rw [hold, hsome]
    constructor
    · rintro (rfl | hx)
      · exact ⟨Or.inl rfl, hexit⟩
      · exact ⟨Or.inr hx.1, hx.2⟩
    · rintro ⟨rfl | hx, hx'⟩
      · exact Or.inl rfl
      · exact Or.inr ⟨hx, hx'⟩
  · intro x hx
    obtain ⟨hin, hch⟩ := h.exited x hx
    exact ⟨(hsome x).mpr (Or.inr hin), fun d hd => (hsome d).mpr (Or.inr (hch d hd))⟩
  · intro x p hx hp
    rcases (hsome x).mp hx with rfl | hx
    · obtain rfl : p = b := Option.some.inj (hp.symm.trans hpc)
      exact (hsome p).mpr (Or.inr hb.1)
    · exact (hsome p).mpr (Or.inr (h.parent_entered x p hx hp))
  · intro x hx
    rcases (hsome x).mp hx with rfl | hx
    · exact Anc.up hpc (h.tree b hb.1)
    · exact h.tree x hx
  · intro x t hx
    rcases hval hx with ⟨_, rfl⟩ | ⟨_, hx⟩
    · exact Nat.le_refl _
    · exact Nat.le_trans (h.enter_le x t hx) (Nat.le_succ _)
  · exact fun x t hx => Nat.le_trans (h.exit_le x t hx) (Nat.le_succ _)
  · intro x s t hx hx'
    rcases hval hx with ⟨rfl, _⟩ | ⟨_, hx⟩
    · rw [hexit] at hx'
      cases hx'
    · exact h.lt_exit x s t hx hx'
  · intro a x s t hanc hax ha hx
    rcases hval hx with ⟨rfl, rfl⟩ | ⟨_, hx₁⟩
    · -- the child: its proper ancestors are on the stack
      rcases hval ha with ⟨rfl, _⟩ | ⟨hac, ha₁⟩
      · exact absurd rfl hax
      · have hab : Anc parent a b := (hanc.eq_or_parent hpc).resolve_left hac
        have hopen := ((h.onStack a).mp ((hstack a).mpr hab)).2
        refine ⟨Nat.lt_succ_of_le (h.enter_le a s ha₁), fun y hy => ?_⟩
        rw [hopen] at hy
        cases hy
    · rcases hval ha with ⟨rfl, _⟩ | ⟨_, ha₁⟩
      · have hentered := h.entered_of_anc hanc (by rw [hx₁]; rfl)
        exact absurd rfl (hne hentered)
      · exact h.inside a x s t hanc hax ha₁ hx₁
  · intro a x s t hanc ha hx hst
    rcases hval hx with ⟨rfl, rfl⟩ | ⟨_, hx₁⟩
    · rcases hval ha with ⟨rfl, _⟩ | ⟨_, ha₁⟩
      · exact absurd (Anc.refl _) hanc
      · have hoff : a ∉ ((b, k) :: stack).map Prod.fst := fun hmem =>
          hanc (Anc.up hpc ((hstack a).mp hmem))
        obtain ⟨y, hy⟩ := h.exists_exit (by rw [ha₁]; rfl) hoff
        exact ⟨y, hy, Nat.lt_succ_of_le (h.exit_le a y hy)⟩
    · rcases hval ha with ⟨_, rfl⟩ | ⟨_, ha₁⟩
      · have := h.enter_le x t hx₁
        omega
      · exact h.before a x s t hanc ha₁ hx₁ hst

/-- Leaving a node whose children are all entered. -/
lemma Inv.pop (ht : IsTree children parent root rank) {b : α} {k : ℕ}
    (h : Inv children parent root clock ((b, k) :: stack) enter exit)
    (hend : (children b)[k]? = none) :
    Inv children parent root (clock + 1) stack enter
      (Function.update exit b (some (clock + 1))) := by
  have hb : (enter b).isSome ∧ exit b = none := (h.onStack b).mp (by simp)
  have hval : ∀ {x t}, Function.update exit b (some (clock + 1)) x = some t →
      (x = b ∧ t = clock + 1) ∨ (x ≠ b ∧ exit x = some t) := by
    intro x t hx
    by_cases hxb : x = b
    · subst hxb
      rw [Function.update_self] at hx
      exact Or.inl ⟨rfl, (Option.some.inj hx).symm⟩
    · rw [Function.update_of_ne hxb] at hx
      exact Or.inr ⟨hxb, hx⟩
  have hstack : ∀ a, a ∈ ((b, k) :: stack).map Prod.fst ↔ Anc parent a b :=
    fun a => h.spine.mem_iff ht.root a
  refine ⟨h.spine.tail, fun p k' hmem => h.next p k' (List.mem_cons_of_mem _ hmem), ?_, ?_,
    h.parent_entered, h.root_entered, h.tree, fun x t hx => Nat.le_trans (h.enter_le x t hx) (Nat.le_succ _), ?_, ?_, ?_, ?_⟩
  · intro x
    by_cases hxb : x = b
    · subst hxb
      simp [h.spine.notMem_tail ht]
    · have hold := h.onStack x
      rw [List.map_cons, List.mem_cons, or_iff_right hxb] at hold
      rw [hold, Function.update_of_ne hxb]
  · intro x hx
    by_cases hxb : x = b
    · subst hxb
      refine ⟨hb.1, fun c hc => ?_⟩
      obtain ⟨j, hj⟩ := List.mem_iff_getElem?.mp hc
      have hlt : j < (children x).length := (List.getElem?_eq_some_iff.mp hj).1
      have hlen : (children x).length ≤ k := List.getElem?_eq_none_iff.mp hend
      exact (h.next x k List.mem_cons_self j c hj).mpr (by omega)
    · rw [Function.update_of_ne hxb] at hx
      exact h.exited x hx
  · intro x t hx
    rcases hval hx with ⟨_, rfl⟩ | ⟨_, hx⟩
    · exact Nat.le_refl _
    · exact Nat.le_trans (h.exit_le x t hx) (Nat.le_succ _)
  · intro x s t hx hx'
    rcases hval hx' with ⟨rfl, rfl⟩ | ⟨_, hx'⟩
    · exact Nat.lt_succ_of_le (h.enter_le x s hx)
    · exact h.lt_exit x s t hx hx'
  · intro a x s t hanc hax ha hx
    refine ⟨(h.inside a x s t hanc hax ha hx).1, fun y hy => ?_⟩
    rcases hval hy with ⟨rfl, rfl⟩ | ⟨hab, hy⟩
    · -- a descendant of the node being left is not on the stack
      have hoff : x ∉ ((a, k) :: stack).map Prod.fst := fun hmem =>
        hax (hanc.antisymm ht ((hstack x).mp hmem))
      obtain ⟨z, hz⟩ := h.exists_exit (by simp [hx]) hoff
      exact ⟨z, by rw [Function.update_of_ne (Ne.symm hax), hz],
        Nat.lt_succ_of_le (h.exit_le x z hz)⟩
    · obtain ⟨z, hz, hlt⟩ := (h.inside a x s t hanc hax ha hx).2 y hy
      have hxb : x ≠ b := by
        rintro rfl
        rw [hb.2] at hz
        cases hz
      exact ⟨z, by rw [Function.update_of_ne hxb, hz], hlt⟩
  · intro a x s t hanc ha hx hst
    obtain ⟨y, hy, hlt⟩ := h.before a x s t hanc ha hx hst
    have hab : a ≠ b := by
      rintro rfl
      rw [hb.2] at hy
      cases hy
    exact ⟨y, by rw [Function.update_of_ne hab, hy], hlt⟩

/-- The start: the root entered at time zero. -/
lemma inv_init (ht : IsTree children parent root rank) :
    Inv children parent root 0 [(root, 0)] (Function.update (fun _ => none) root (some 0))
      (fun _ => none) := by
  have hval : ∀ {x t}, Function.update (fun _ => none) root (some 0) x = some t →
      x = root ∧ t = 0 := by
    intro x t hx
    by_cases hxr : x = root
    · subst hxr
      rw [Function.update_self] at hx
      exact ⟨rfl, (Option.some.inj hx).symm⟩
    · rw [Function.update_of_ne hxr] at hx
      cases hx
  have hsome : ∀ x, (Function.update (fun _ => none) root (some 0) x).isSome ↔ x = root := by
    intro x
    by_cases hxr : x = root
    · simp [hxr]
    · simp [hxr]
  refine ⟨rfl, ?_, ?_, by simp, ?_, (hsome root).mpr rfl, ?_, ?_, by simp, by simp, ?_, ?_⟩
  · intro p k hmem j c hc
    obtain ⟨rfl, rfl⟩ : p = root ∧ k = 0 := by simpa using hmem
    have hpc := (ht.mem_children p c).mp (List.mem_of_getElem? hc)
    rw [hsome]
    constructor
    · rintro rfl
      rw [ht.root] at hpc
      cases hpc
    · omega
  · intro x
    rw [hsome]
    simp
  · intro c p hc hp
    rw [hsome] at hc
    rw [hc, ht.root] at hp
    cases hp
  · intro x hx
    rw [(hsome x).mp hx]
    exact Anc.refl _
  · intro x t hx
    exact Nat.le_of_eq (hval hx).2
  · intro a x s t _ hax ha hx
    exact absurd ((hval ha).1.trans (hval hx).1.symm) hax
  · intro a x s t _ ha hx hst
    rw [(hval ha).2, (hval hx).2] at hst
    exact absurd hst (Nat.lt_irrefl 0)

/-- What the stamped times say of the tree. -/
structure IsNumbering (parent : α → Option α) (root : α) (enter exit : α → Option ℕ) : Prop where
  entered : ∀ b, (enter b).isSome ↔ Anc parent root b
  exited : ∀ b, (exit b).isSome ↔ (enter b).isSome
  encloses : ∀ a b s t x y, a ≠ b → enter a = some s → enter b = some t → exit a = some x →
    exit b = some y → ((s < t ∧ y < x) ↔ Anc parent a b)

omit [DecidableEq α] in
/-- At the end every node of the tree was entered and left. -/
lemma Inv.isNumbering (ht : IsTree children parent root rank)
    (h : Inv children parent root clock [] enter exit) :
    IsNumbering parent root enter exit := by
  have hexit : ∀ {b}, (enter b).isSome → ∃ x, exit b = some x :=
    fun hb => h.exists_exit hb (by simp)
  have hentered : ∀ {b}, Anc parent root b → (enter b).isSome := by
    intro b hb
    induction hb with
    | refl => exact h.root_entered
    | @up b p hp _ ih =>
      obtain ⟨x, hx⟩ := hexit ih
      exact (h.exited p (by rw [hx]; rfl)).2 b ((ht.mem_children p b).mpr hp)
  refine ⟨fun b => ⟨h.tree b, hentered⟩, fun b => ⟨fun hb => (h.exited b hb).1, fun hb => ?_⟩, ?_⟩
  · obtain ⟨x, hx⟩ := hexit hb
    rw [hx]
    rfl
  · intro a b s t x y hne ha hb hax hby
    constructor
    · rintro ⟨hst, hyx⟩
      by_contra hanc
      obtain ⟨z, hz, hlt⟩ := h.before a b s t hanc ha hb hst
      obtain rfl : z = x := Option.some.inj (hz.symm.trans hax)
      have := h.lt_exit b t y hb hby
      omega
    · intro hanc
      obtain ⟨hst, hall⟩ := h.inside a b s t hanc hne ha hb
      obtain ⟨z, hz, hlt⟩ := hall x hax
      obtain rfl : z = y := Option.some.inj (hz.symm.trans hby)
      exact ⟨hst, hlt⟩

/-- Enough rounds stamp the whole tree. -/
lemma number_spec (ht : IsTree children parent root rank) {nodes : List α}
    (hnodes : ∀ b, Anc parent root b → b ∈ nodes) (fuel : ℕ) :
    ∀ {clock : ℕ} {stack : List (α × ℕ)} {enter exit : α → Option ℕ},
      Inv children parent root clock stack enter exit →
      2 * (nodes.countP fun b => (enter b).isNone) + stack.length ≤ fuel →
      ∃ en ex, number children fuel clock stack enter exit = some (en, ex) ∧
        IsNumbering parent root en ex := by
  induction fuel with
  | zero =>
    intro clock stack enter exit h hfuel
    obtain rfl : stack = [] := List.length_eq_zero_iff.mp (by omega)
    exact ⟨enter, exit, rfl, h.isNumbering ht⟩
  | succ fuel ih =>
    intro clock stack enter exit h hfuel
    cases stack with
    | nil => exact ⟨enter, exit, rfl, h.isNumbering ht⟩
    | cons top stack =>
      obtain ⟨b, k⟩ := top
      rw [List.length_cons] at hfuel
      cases hc : (children b)[k]? with
      | some c =>
        have hpush := h.push ht hc
        have hfresh : enter c = none := by
          have := h.next b k List.mem_cons_self k c hc
          rw [← Option.not_isSome_iff_eq_none, this]
          exact Nat.lt_irrefl k
        have hcount : (nodes.countP fun x =>
              (Function.update enter c (some (clock + 1)) x).isNone) + 1 ≤
            nodes.countP fun x => (enter x).isNone := by
          have hmem : c ∈ nodes := hnodes c (hpush.tree c (by simp))
          refine countP_update_lt hmem hfresh
        obtain ⟨en, ex, hrun, hspec⟩ := ih hpush (by simp only [List.length_cons]; omega)
        exact ⟨en, ex, by rw [number, hc]; exact hrun, hspec⟩
      | none =>
        obtain ⟨en, ex, hrun, hspec⟩ := ih (h.pop ht hc) (by omega)
        exact ⟨en, ex, by rw [number, hc]; exact hrun, hspec⟩

/-- **The walk from the root numbers the tree.** -/
theorem number_root (ht : IsTree children parent root rank) {nodes : List α}
    (hnodes : ∀ b, Anc parent root b → b ∈ nodes) {fuel : ℕ} (hfuel : 2 * nodes.length + 1 ≤ fuel) :
    ∃ en ex, number children fuel 0 [(root, 0)] (Function.update (fun _ => none) root (some 0))
        (fun _ => none) = some (en, ex) ∧ IsNumbering parent root en ex := by
  refine number_spec ht hnodes fuel (inv_init ht) ?_
  have hle := List.countP_le_length (p := fun b =>
    (Function.update (fun _ => none) root (some 0) b).isNone) (l := nodes)
  simp only [List.length_singleton]
  omega

end Steps

end TreeNumbering
