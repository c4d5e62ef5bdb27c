import Mathlib.Data.List.Range
import ToraJs.Dominator.Idoms

/-!
# The dominator tree

`DominatorTree::build` and its queries: the positions' table of immediate dominators is
carried back to block ids, the children lists and the entry and exit times follow from it.
For a well-formed graph the build succeeds, and the queries answer dominance in the graph.

A per-block table of length `span` is a function; a read past its end finds nothing, as an
unset entry does.
-/

namespace Torajs.Dominator

open Dominance (Path Reachable Dominates StrictlyDominates IsImmediateDominator Renaming)
open TreeNumbering (Anc IsTree IsNumbering)

/-- `DominatorTree`. -/
structure Tree where
  span : ℕ
  idom : BlockId → Option BlockId
  rpo : List BlockId
  rpoIndex : BlockId → Option ℕ
  children : BlockId → List BlockId
  enter : BlockId → Option ℕ
  exit : BlockId → Option ℕ

/-- The table `rpo_index`. -/
def indexTable (rpo : List BlockId) : BlockId → Option ℕ :=
  rpo.zipIdx.foldl (fun index bk => Function.update index bk.1 (some bk.2)) fun _ => none

/-- The reachable predecessors of a position, as positions. -/
def posPreds (rpo : List BlockId) (index : BlockId → Option ℕ) (preds : BlockId → List BlockId)
    (k : ℕ) : List ℕ :=
  match rpo[k]? with
  | some b => (preds b).filterMap index
  | none => []

/-- The last loop of `compute_idoms`: the positions' entries as block ids. -/
def idomTable (rpo : List BlockId) (doms : Doms) : Option (BlockId → Option BlockId) :=
  rpo.zipIdx.foldlM
    (fun idom bk => do
      let d ← doms bk.2
      let c ← rpo[d]?
      some (Function.update idom bk.1 (some c)))
    fun _ => none

/-- `compute_idoms`. -/
def computeIdoms (rpo : List BlockId) (index : BlockId → Option ℕ)
    (preds : BlockId → List BlockId) : Option (BlockId → Option BlockId) := do
  let doms ← domsLoop (posPreds rpo index preds) rpo.length (rpo.length * rpo.length + 1) initDoms
  idomTable rpo doms

/-- `lists::build_children`. -/
def buildChildren (idom : BlockId → Option BlockId) (n : ℕ) (p : BlockId) : List BlockId :=
  (List.range n).filter fun i => idom i = some p ∧ p ≠ i ∧ p < n

/-- `lists::tree_intervals`. -/
def treeIntervals (children : BlockId → List BlockId) (entry : BlockId) (n : ℕ) :
    Option ((BlockId → Option ℕ) × (BlockId → Option ℕ)) :=
  TreeNumbering.number children (2 * n + 1) 0 [(entry, 0)]
    (Function.update (fun _ => none) entry (some 0)) fun _ => none

/-- The tree of a function without blocks. -/
def emptyTree : Tree where
  span := 0
  idom _ := none
  rpo := []
  rpoIndex _ := none
  children _ := []
  enter _ := none
  exit _ := none

/-- `DominatorTree::build`. -/
def build (f : Function) : Option Tree :=
  let n := idSpan f
  if n = 0 then some emptyTree
  else do
    let rpo ← reversePostorder f (successorTable f n) (entryId f)
    let index := indexTable rpo
    let idom ← computeIdoms rpo index (predecessors f n)
    let children := buildChildren idom n
    let times ← treeIntervals children (entryId f) n
    some ⟨n, idom, rpo, index, children, times.1, times.2⟩

/-- `immediate_dominator`: the entry's loop is no dominator. -/
def Tree.immediateDominator (t : Tree) (b : BlockId) : Option BlockId :=
  match t.idom b with
  | some d => if d = b then none else some d
  | none => none

/-- `dominates`. -/
def Tree.dominates (t : Tree) (a b : BlockId) : Bool :=
  if a = b then true
  else
    match t.enter a, t.enter b, t.exit a, t.exit b with
    | some ea, some eb, some xa, some xb => ea < eb && xb < xa
    | _, _, _, _ => false

/-- `is_reachable`. -/
def Tree.isReachable (t : Tree) (b : BlockId) : Bool := (t.rpoIndex b).isSome

/-! ### Tables over the reverse postorder -/

/-- A fold of writes at different keys leaves what was written at each. -/
lemma foldl_update {ι β : Type} (key : ι → BlockId) (val : ι → β) :
    ∀ (l : List ι) (init : BlockId → β), (l.map key).Nodup →
      (∀ x ∈ l, l.foldl (fun (t : BlockId → β) x => Function.update t (key x) (val x)) init
          (key x) = val x) ∧
        ∀ b, b ∉ l.map key →
          l.foldl (fun (t : BlockId → β) x => Function.update t (key x) (val x)) init b =
            init b := by
  intro l
  induction l with
  | nil => exact fun init _ => ⟨fun _ h => (by cases h), fun _ _ => rfl⟩
  | cons x l ih =>
    intro init hnd
    obtain ⟨hx, hnd'⟩ := List.nodup_cons.mp hnd
    obtain ⟨hin, hout⟩ := ih (Function.update init (key x) (val x)) hnd'
    refine ⟨fun y hy => ?_, fun b hb => ?_⟩
    · rw [List.foldl_cons]
      rcases List.mem_cons.mp hy with rfl | hy
      · rw [hout (key y) hx, Function.update_self]
      · exact hin y hy
    · rw [List.foldl_cons]
      rw [List.map_cons, List.mem_cons, not_or] at hb
      rw [hout b hb.2, Function.update_of_ne hb.1]

lemma zipIdx_map_fst (rpo : List BlockId) : rpo.zipIdx.map Prod.fst = rpo := by
  rw [List.zipIdx_map_fst]

lemma mem_zipIdx {rpo : List BlockId} {b : BlockId} {k : ℕ} :
    (b, k) ∈ rpo.zipIdx ↔ rpo[k]? = some b := List.mk_mem_zipIdx_iff_getElem?

lemma indexTable_eq_some {rpo : List BlockId} (hnd : rpo.Nodup) {b : BlockId} {k : ℕ} :
    indexTable rpo b = some k ↔ rpo[k]? = some b := by
  obtain ⟨hin, hout⟩ := foldl_update Prod.fst (fun bk : BlockId × ℕ => some bk.2) rpo.zipIdx
    (fun _ => none) (by rwa [zipIdx_map_fst])
  rw [zipIdx_map_fst] at hout
  constructor
  · intro hk
    by_cases hb : b ∈ rpo
    · obtain ⟨j, hj⟩ := List.mem_iff_getElem?.mp hb
      have := hin (b, j) (mem_zipIdx.mpr hj)
      dsimp only at this
      rw [indexTable, this] at hk
      rwa [← Option.some.inj hk]
    · rw [indexTable, hout b hb] at hk
      cases hk
  · exact fun hk => hin (b, k) (mem_zipIdx.mpr hk)

/-- The immediate dominators by block: an unfolding of the three lookups. -/
lemma idomTable_eq {rpo : List BlockId} (hnd : rpo.Nodup) {doms : Doms}
    (hlt : ∀ k, k < rpo.length → ∃ d, doms k = some d ∧ d < rpo.length) :
    ∃ idom, idomTable rpo doms = some idom ∧ ∀ b c, idom b = some c ↔
      ∃ k d, rpo[k]? = some b ∧ doms k = some d ∧ rpo[d]? = some c := by
  let entry : BlockId × ℕ → BlockId := fun bk => ((doms bk.2).bind fun d => rpo[d]?).getD 0
  have hentry : ∀ b k, (b, k) ∈ rpo.zipIdx → ∃ d c, doms k = some d ∧ rpo[d]? = some c := by
    intro b k hbk
    have hk : k < rpo.length := (List.getElem?_eq_some_iff.mp (mem_zipIdx.mp hbk)).1
    obtain ⟨d, hd, hdlt⟩ := hlt k hk
    exact ⟨d, rpo[d], hd, List.getElem?_eq_getElem hdlt⟩
  have hfold : ∀ (l : List (BlockId × ℕ)) (init : BlockId → Option BlockId),
      (∀ b k, (b, k) ∈ l → (b, k) ∈ rpo.zipIdx) →
      l.foldlM (fun idom bk => do
        let d ← doms bk.2
        let c ← rpo[d]?
        some (Function.update idom bk.1 (some c))) init =
      some (l.foldl
        (fun (t : BlockId → Option BlockId) bk => Function.update t bk.1 (some (entry bk))) init) := by
    intro l
    induction l with
    | nil => exact fun _ _ => rfl
    | cons x l ih =>
      obtain ⟨b, k⟩ := x
      intro init hsub
      obtain ⟨d, c, hd, hc⟩ := hentry b k (hsub b k List.mem_cons_self)
      rw [List.foldlM_cons, List.foldl_cons]
      simp only [hd, hc, Option.bind_eq_bind, Option.bind_some, entry, Option.getD_some]
      exact ih _ fun b' k' h => hsub b' k' (List.mem_cons_of_mem _ h)
  obtain ⟨hin, hout⟩ := foldl_update Prod.fst (fun bk => some (entry bk)) rpo.zipIdx
    (fun _ => none) (by rwa [zipIdx_map_fst])
  rw [zipIdx_map_fst] at hout
  refine ⟨_, hfold rpo.zipIdx _ fun _ _ h => h, fun b c => ?_⟩
  constructor
  · intro hc
    by_cases hb : b ∈ rpo
    · obtain ⟨k, hk⟩ := List.mem_iff_getElem?.mp hb
      have hbk := mem_zipIdx.mpr hk
      obtain ⟨d, c', hd, hc'⟩ := hentry b k hbk
      have hbind : ((doms k).bind fun d => rpo[d]?) = some c' := by
        rw [hd, Option.bind_some, hc']
      have hbk' := hin (b, k) hbk
      dsimp only at hbk'
      rw [hbk'] at hc
      have hcc : c' = c := by simpa [entry, hbind] using hc
      exact ⟨k, d, hk, hd, hcc ▸ hc'⟩
    · rw [hout b hb] at hc
      cases hc
  · rintro ⟨k, d, hk, hd, hc⟩
    have hbind : ((doms k).bind fun d => rpo[d]?) = some c := by rw [hd, Option.bind_some, hc]
    have hbk' := hin (b, k) (mem_zipIdx.mpr hk)
    dsimp only at hbk'
    rw [hbk']
    simp [entry, hbind]

/-! ### The graph of positions -/

/-- The predecessor lists that `compute_idoms` walks, as positions. -/
abbrev posGraph (f : Function) (rpo : List BlockId) : ℕ → List ℕ :=
  posPreds rpo (indexTable rpo) (predecessors f (idSpan f))

section Positions

variable {f : Function} {rpo : List BlockId}

lemma mem_posGraph (hwf : WellFormed f) (h : IsRpo f rpo) {q k : ℕ} :
    q ∈ posGraph f rpo k ↔ ∃ b c, rpo[q]? = some b ∧ rpo[k]? = some c ∧ Edge f b c := by
  rw [posGraph, posPreds]
  cases hk : rpo[k]? with
  | none => simp
  | some c =>
    rw [List.mem_filterMap]
    constructor
    · rintro ⟨b, hb, hq⟩
      exact ⟨b, c, (indexTable_eq_some h.nodup).mp hq, rfl, (mem_predecessors_iff hwf).mp hb⟩
    · rintro ⟨b, c', hq, hc', he⟩
      obtain rfl : c = c' := Option.some.inj hc'
      exact ⟨b, (mem_predecessors_iff hwf).mpr he, (indexTable_eq_some h.nodup).mpr hq⟩

lemma IsRpo.getElem?_zero (h : IsRpo f rpo) : rpo[0]? = some (entryId f) := by
  rw [← List.head?_eq_getElem?, h.head]

lemma IsRpo.reachable (h : IsRpo f rpo) {b : BlockId} {k : ℕ} (hk : rpo[k]? = some b) :
    Reachable (Edge f) (entryId f) b :=
  (h.mem_iff b).mp (List.mem_of_getElem? hk)

lemma IsRpo.exists_position (h : IsRpo f rpo) {b : BlockId}
    (hb : Reachable (Edge f) (entryId f) b) : ∃ k : ℕ, rpo[k]? = some b :=
  List.mem_iff_getElem?.mp ((h.mem_iff b).mpr hb)

lemma IsRpo.position_inj (h : IsRpo f rpo) {b : BlockId} {j k : ℕ} (hj : rpo[j]? = some b)
    (hk : rpo[k]? = some b) : j = k :=
  Option.some.inj (((indexTable_eq_some h.nodup).mpr hj).symm.trans
    ((indexTable_eq_some h.nodup).mpr hk))

lemma lt_of_position {b : BlockId} {k : ℕ} (hk : rpo[k]? = some b) : k < rpo.length :=
  (List.getElem?_eq_some_iff.mp hk).1

lemma IsRpo.positions (hwf : WellFormed f) (h : IsRpo f rpo) :
    Positions (posGraph f rpo) rpo.length where
  pos := lt_of_position h.getElem?_zero
  lt k q hq := by
    obtain ⟨b, _, hb, _⟩ := (mem_posGraph hwf h).mp hq
    exact lt_of_position hb
  earlier k hk hkn := by
    have hsplit : rpo = rpo.take k ++ rpo[k] :: rpo.drop (k + 1) := by
      rw [← List.drop_eq_getElem_cons hkn, List.take_append_drop]
    have hne : rpo.take k ≠ [] := by
      intro hnil
      have := congrArg List.length hnil
      rw [List.length_take, List.length_nil] at this
      omega
    obtain ⟨b, hb, he⟩ := h.pred _ _ _ hsplit hne
    obtain ⟨q, hq⟩ := List.mem_iff_getElem?.mp hb
    have hqk : q < k := by
      have := lt_of_position hq
      rw [List.length_take] at this
      omega
    refine ⟨q, (mem_posGraph hwf h).mpr ⟨b, rpo[k], ?_, List.getElem?_eq_getElem hkn, he⟩, hqk⟩
    rwa [List.getElem?_take_of_lt hqk] at hq

/-- Position and block name each other. -/
lemma IsRpo.renaming (hwf : WellFormed f) (h : IsRpo f rpo) :
    Renaming (PosEdge (posGraph f rpo)) 0 (Edge f) (entryId f) (fun k => (rpo[k]?).getD 0)
      (fun b => (indexTable rpo b).getD 0) := by
  have hpos : ∀ {k}, Reachable (PosEdge (posGraph f rpo)) 0 k → ∃ b, rpo[k]? = some b := by
    intro k hk
    refine Reachable.rec_on_step (P := fun k => ∃ b, rpo[k]? = some b) ?_ ?_ hk
    · exact ⟨_, h.getElem?_zero⟩
    · intro q k _ _ he
      obtain ⟨_, c, _, hc, _⟩ := (mem_posGraph hwf h).mp he
      exact ⟨c, hc⟩
  have hindex : ∀ {b k}, rpo[k]? = some b → (indexTable rpo b).getD 0 = k := by
    intro b k hk
    rw [(indexTable_eq_some h.nodup).mpr hk, Option.getD_some]
  refine ⟨?_, fun q k _ he => ?_, fun b c hb he => ?_, fun k hk => ?_, fun b hb => ?_⟩
  · rw [h.getElem?_zero, Option.getD_some]
  · obtain ⟨b, c, hb, hc, he⟩ := (mem_posGraph hwf h).mp he
    rwa [hb, hc]
  · obtain ⟨q, hq⟩ := h.exists_position hb
    obtain ⟨k, hk⟩ := h.exists_position (hb.step he)
    rw [hindex hq, hindex hk]
    exact (mem_posGraph hwf h).mpr ⟨b, c, hq, hk, he⟩
  · obtain ⟨b, hb⟩ := hpos hk
    rw [hb, Option.getD_some, hindex hb]
  · obtain ⟨k, hk⟩ := h.exists_position hb
    rw [hindex hk, hk, Option.getD_some]

/-- Dominance of blocks is dominance of their positions. -/
lemma IsRpo.dominates_iff (hwf : WellFormed f) (h : IsRpo f rpo) {a b : BlockId} {j k : ℕ}
    (hj : rpo[j]? = some a) (hk : rpo[k]? = some b) :
    Dominates (Edge f) (entryId f) a b ↔ Dominates (PosEdge (posGraph f rpo)) 0 j k := by
  have hren := (h.renaming hwf).symm
  have hindex : ∀ {b k}, rpo[k]? = some b → (indexTable rpo b).getD 0 = k := by
    intro b k hk
    rw [(indexTable_eq_some h.nodup).mpr hk, Option.getD_some]
  rw [hren.dominates (h.reachable hj) (h.reachable hk), hindex hj, hindex hk]

end Positions

/-! ### The tree over the blocks -/

/-- A block's parent: the entry has none. -/
def treeParent (idom : BlockId → Option BlockId) (b : BlockId) : Option BlockId :=
  if idom b = some b then none else idom b

lemma treeParent_eq_some {idom : BlockId → Option BlockId} {b p : BlockId} :
    treeParent idom b = some p ↔ idom b = some p ∧ p ≠ b := by
  rw [treeParent]
  constructor
  · intro h
    split_ifs at h with hself
    refine ⟨h, fun hpb => hself ?_⟩
    rw [h, hpb]
  · rintro ⟨hp, hne⟩
    rw [if_neg, hp]
    rw [hp]
    exact fun h => hne (Option.some.inj h)

/-- What the parts of a built tree are. -/
structure Built (f : Function) (doms : Doms) (t : Tree) : Prop where
  span : t.span = idSpan f
  rpo : reversePostorder f (successorTable f (idSpan f)) (entryId f) = some t.rpo
  isRpo : IsRpo f t.rpo
  index : t.rpoIndex = indexTable t.rpo
  isDoms : IsDoms (posGraph f t.rpo) t.rpo.length doms
  idom : ∀ b c, t.idom b = some c ↔
    ∃ k d, t.rpo[k]? = some b ∧ doms k = some d ∧ t.rpo[d]? = some c
  children : t.children = buildChildren t.idom (idSpan f)
  times : treeIntervals t.children (entryId f) (idSpan f) = some (t.enter, t.exit)
  numbering : IsNumbering (treeParent t.idom) (entryId f) t.enter t.exit

section Blocks

variable {f : Function} {rpo : List BlockId} {doms : Doms} {idom : BlockId → Option BlockId}

lemma IsRpo.lt_idSpan (hwf : WellFormed f) (h : IsRpo f rpo) {b : BlockId} {k : ℕ}
    (hk : rpo[k]? = some b) : b < idSpan f := by
  refine Dominator.lt_idSpan ?_
  refine Reachable.rec_on_step (P := fun b => b ∈ f.blocks.map Block.id) hwf.entry_mem ?_
    (h.reachable hk)
  rintro _ c _ _ ⟨blk, hblk, _, hc⟩
  exact hwf.target blk hblk c hc

/-- The parents over blocks are those over positions. -/
lemma treeParent_iff (h : IsRpo f rpo) (hdoms : IsDoms (posGraph f rpo) rpo.length doms)
    (hidom : ∀ b c, idom b = some c ↔
      ∃ k d, rpo[k]? = some b ∧ doms k = some d ∧ rpo[d]? = some c) {b p : BlockId} {k : ℕ}
    (hk : rpo[k]? = some b) :
    treeParent idom b = some p ↔ ∃ d, parentOf doms k = some d ∧ rpo[d]? = some p := by
  rw [treeParent_eq_some, hidom]
  constructor
  · rintro ⟨⟨k', d, hk', hd, hp⟩, hne⟩
    obtain rfl := h.position_inj hk hk'
    refine ⟨d, ?_, hp⟩
    rw [Shape.parentOf_eq, hd]
    by_contra hzero
    obtain rfl : k = 0 := by omega
    obtain rfl : 0 = d := Option.some.inj (hdoms.shape.zero.symm.trans hd)
    exact hne (Option.some.inj (hp.symm.trans hk))
  · rintro ⟨d, hd, hp⟩
    by_cases hk0 : k = 0
    · simp [parentOf, hk0] at hd
    · rw [Shape.parentOf_eq (by omega)] at hd
      refine ⟨⟨k, d, hk, hd, hp⟩, ?_⟩
      rintro rfl
      have := hdoms.shape.lt k d (by omega) hd
      have := h.position_inj hk hp
      omega

/-- Ancestors over blocks are ancestors over positions. -/
lemma anc_blocks_iff (h : IsRpo f rpo) (hdoms : IsDoms (posGraph f rpo) rpo.length doms)
    (hidom : ∀ b c, idom b = some c ↔
      ∃ k d, rpo[k]? = some b ∧ doms k = some d ∧ rpo[d]? = some c) {a b : BlockId} {j k : ℕ}
    (hj : rpo[j]? = some a) (hk : rpo[k]? = some b) :
    Anc (treeParent idom) a b ↔ Anc (parentOf doms) j k := by
  constructor
  · intro hanc
    induction hanc generalizing k with
    | refl =>
      rw [h.position_inj hj hk]
      exact Anc.refl _
    | up hp _ ih =>
      obtain ⟨d, hd, hpd⟩ := (treeParent_iff h hdoms hidom hk).mp hp
      exact Anc.up hd (ih hpd)
  · intro hanc
    induction hanc generalizing b with
    | refl =>
      rw [Option.some.inj (hj.symm.trans hk)]
      exact Anc.refl _
    | @up k d hd hanc ih =>
      have hk0 : 0 < k := by
        by_contra hzero
        obtain rfl : k = 0 := by omega
        simp [parentOf] at hd
      have hdk := (Shape.parentOf_eq hk0).symm.trans hd
      have hlt := (hdoms.isSome_iff d).mp (hdoms.shape.set k d hdk ▸ rfl)
      have hpd : rpo[d]? = some rpo[d] := List.getElem?_eq_getElem hlt
      exact Anc.up ((treeParent_iff h hdoms hidom hk).mpr ⟨d, hd, hpd⟩) (ih hpd)

/-- The children lists and the parents are one tree, ranked by position. -/
lemma isTree_blocks (hwf : WellFormed f) (h : IsRpo f rpo)
    (hdoms : IsDoms (posGraph f rpo) rpo.length doms)
    (hidom : ∀ b c, idom b = some c ↔
      ∃ k d, rpo[k]? = some b ∧ doms k = some d ∧ rpo[d]? = some c) :
    IsTree (buildChildren idom (idSpan f)) (treeParent idom) (entryId f)
      (fun b => (indexTable rpo b).getD 0) where
  mem_children p c := by
    rw [buildChildren, List.mem_filter, List.mem_range, treeParent_eq_some]
    constructor
    · rintro ⟨_, hcond⟩
      have hcond : idom c = some p ∧ p ≠ c ∧ p < idSpan f := by simpa using hcond
      exact ⟨hcond.1, hcond.2.1⟩
    · rintro ⟨hp, hne⟩
      obtain ⟨k, d, hk, _, hd⟩ := (hidom c p).mp hp
      exact ⟨h.lt_idSpan hwf hk, by simpa using ⟨hp, hne, h.lt_idSpan hwf hd⟩⟩
  nodup p := List.Nodup.filter _ List.nodup_range
  rank_lt c p hp := by
    have hidomc := (treeParent_eq_some.mp hp).1
    obtain ⟨k, _, hk, _, _⟩ := (hidom c p).mp hidomc
    obtain ⟨d, hd, hpd⟩ := (treeParent_iff h hdoms hidom hk).mp hp
    rw [(indexTable_eq_some h.nodup).mpr hk, (indexTable_eq_some h.nodup).mpr hpd]
    have hk0 : 0 < k := by
      by_contra hzero
      obtain rfl : k = 0 := by omega
      simp [parentOf] at hd
    rw [Shape.parentOf_eq hk0] at hd
    exact hdoms.shape.lt k d hk0 hd
  root := by
    have hentry : idom (entryId f) = some (entryId f) :=
      (hidom _ _).mpr ⟨0, 0, h.getElem?_zero, hdoms.shape.zero, h.getElem?_zero⟩
    rw [treeParent, if_pos hentry]

end Blocks

/-! ### The build and the queries -/

lemma idSpan_ne_zero {f : Function} (hwf : WellFormed f) : idSpan f ≠ 0 :=
  Nat.ne_of_gt (Nat.lt_of_le_of_lt (Nat.zero_le _) (lt_idSpan hwf.entry_mem))

/-- **The build succeeds on a well-formed graph whose ids leave the mark's bit free.** -/
theorem build_spec {f : Function} (hwf : WellFormed f) (hfit : IdsFit f) :
    ∃ doms t, build f = some t ∧ Built f doms t := by
  obtain ⟨rpo, hrpo, hisRpo⟩ := reversePostorder_spec hwf hfit
  obtain ⟨doms, hloop, hdoms⟩ := domsLoop_spec (hisRpo.positions hwf)
  have hlt : ∀ k, k < rpo.length → ∃ d, doms k = some d ∧ d < rpo.length := by
    intro k hk
    obtain ⟨d, hd⟩ := Option.isSome_iff_exists.mp ((hdoms.isSome_iff k).mpr hk)
    exact ⟨d, hd, (hdoms.isSome_iff d).mp (hdoms.shape.set k d hd)⟩
  obtain ⟨idom, htable, hidom⟩ := idomTable_eq hisRpo.nodup hlt
  have htree := isTree_blocks hwf hisRpo hdoms hidom
  have hnodes : ∀ b, Anc (treeParent idom) (entryId f) b → b ∈ List.range (idSpan f) := by
    intro b hb
    rw [List.mem_range]
    cases hb with
    | refl => exact hisRpo.lt_idSpan hwf hisRpo.getElem?_zero
    | up hp _ =>
      obtain ⟨k, _, hk, _, _⟩ := (hidom b _).mp (treeParent_eq_some.mp hp).1
      exact hisRpo.lt_idSpan hwf hk
  obtain ⟨enter, exit, htimes, hnum⟩ := TreeNumbering.number_root htree hnodes
    (by rw [List.length_range] : 2 * (List.range (idSpan f)).length + 1 ≤ 2 * idSpan f + 1)
  refine ⟨doms, ⟨idSpan f, idom, rpo, indexTable rpo, buildChildren idom (idSpan f), enter, exit⟩,
    ?_, ⟨rfl, hrpo, hisRpo, rfl, hdoms, hidom, rfl, htimes, hnum⟩⟩
  have hcompute : computeIdoms rpo (indexTable rpo) (predecessors f (idSpan f)) = some idom := by
    rw [computeIdoms, hloop]
    exact htable
  have htimes' : treeIntervals (buildChildren idom (idSpan f)) (entryId f) (idSpan f) =
      some (enter, exit) := htimes
  rw [build]
  simp only [idSpan_ne_zero hwf, if_false, hrpo, hcompute, htimes', Option.bind_eq_bind,
    Option.bind_some]

section Queries

variable {f : Function} {doms : Doms} {t : Tree}

lemma Built.anc_iff (hwf : WellFormed f) (h : Built f doms t) {a b : BlockId}
    (ha : Reachable (Edge f) (entryId f) a) (hb : Reachable (Edge f) (entryId f) b) :
    Anc (treeParent t.idom) a b ↔ Dominates (Edge f) (entryId f) a b := by
  obtain ⟨j, hj⟩ := h.isRpo.exists_position ha
  obtain ⟨k, hk⟩ := h.isRpo.exists_position hb
  rw [anc_blocks_iff h.isRpo h.isDoms h.idom hj hk,
    h.isDoms.anc_iff j k (lt_of_position hk), h.isRpo.dominates_iff hwf hj hk]

lemma Built.exists_times (hwf : WellFormed f) (h : Built f doms t) {b : BlockId}
    (hb : Reachable (Edge f) (entryId f) b) : ∃ s x, t.enter b = some s ∧ t.exit b = some x := by
  have hanc := (h.anc_iff hwf Reachable.root hb).mpr (Dominates.root b)
  have henter := (h.numbering.entered b).mpr hanc
  obtain ⟨s, hs⟩ := Option.isSome_iff_exists.mp henter
  obtain ⟨x, hx⟩ := Option.isSome_iff_exists.mp ((h.numbering.exited b).mpr henter)
  exact ⟨s, x, hs, hx⟩

/-- **`dominates` decides dominance.** -/
lemma Built.dominates_iff (hwf : WellFormed f) (h : Built f doms t) {a b : BlockId}
    (ha : Reachable (Edge f) (entryId f) a) (hb : Reachable (Edge f) (entryId f) b) :
    t.dominates a b = true ↔ Dominates (Edge f) (entryId f) a b := by
  rw [Tree.dominates]
  by_cases hab : a = b
  · subst hab
    rw [if_pos rfl]
    exact ⟨fun _ => Dominates.refl a, fun _ => rfl⟩
  · obtain ⟨ea, xa, hea, hxa⟩ := h.exists_times hwf ha
    obtain ⟨eb, xb, heb, hxb⟩ := h.exists_times hwf hb
    rw [if_neg hab, hea, heb, hxa, hxb, ← h.anc_iff hwf ha hb,
      ← h.numbering.encloses a b ea eb xa xb hab hea heb hxa hxb]
    simp

/-- Only reachable blocks carry times. -/
lemma Built.reachable_of_enter (h : Built f doms t) {b : BlockId} (hb : (t.enter b).isSome) :
    Reachable (Edge f) (entryId f) b := by
  cases (h.numbering.entered b).mp hb with
  | refl => exact Reachable.root
  | @up _ p hp _ =>
    obtain ⟨k, _, hk, _⟩ := (h.idom b p).mp (treeParent_eq_some.mp hp).1
    exact h.isRpo.reachable hk

/-- Different blocks of which one dominates the other are reachable. -/
lemma Built.reachable_of_dominates (h : Built f doms t) {a b : BlockId}
    (hab : t.dominates a b = true) (hne : a ≠ b) :
    Reachable (Edge f) (entryId f) a ∧ Reachable (Edge f) (entryId f) b := by
  rw [Tree.dominates, if_neg hne] at hab
  split at hab
  · rename_i ea eb _ _ hea heb _ _
    exact ⟨h.reachable_of_enter (by rw [hea]; rfl), h.reachable_of_enter (by rw [heb]; rfl)⟩
  · cases hab

lemma Tree.immediateDominator_eq (t : Tree) (b : BlockId) :
    t.immediateDominator b = treeParent t.idom b := by
  rw [Tree.immediateDominator, treeParent]
  cases t.idom b with
  | none => rw [if_neg (by simp)]
  | some d =>
    by_cases hd : d = b
    · simp [hd]
    · simp [hd]

/-- The parent of a block is its closest strict dominator. -/
lemma Built.isImmediateDominator (hwf : WellFormed f) (h : Built f doms t) {b d : BlockId}
    (hb : Reachable (Edge f) (entryId f) b) (hd : treeParent t.idom b = some d) :
    IsImmediateDominator (Edge f) (entryId f) d b := by
  have hreach : ∀ {x}, Dominates (Edge f) (entryId f) x b → Reachable (Edge f) (entryId f) x := by
    intro x hx
    obtain ⟨p, hp⟩ := hb
    exact hp.reachable_of_mem (hx p hp)
  have hdb : Anc (treeParent t.idom) d b := Anc.up hd (Anc.refl d)
  obtain ⟨k, e, hk, _, he⟩ := (h.idom b d).mp (treeParent_eq_some.mp hd).1
  have hdreach := h.isRpo.reachable he
  refine ⟨⟨(h.anc_iff hwf hdreach hb).mp hdb, (treeParent_eq_some.mp hd).2⟩, ?_⟩
  rintro x ⟨hx, hne⟩
  have hanc := (h.anc_iff hwf (hreach hx) hb).mpr hx
  rcases hanc.eq_or_parent hd with rfl | hanc
  · exact absurd rfl hne
  · exact (h.anc_iff hwf (hreach hx) hdreach).mp hanc

/-- **`immediate_dominator` returns the closest strict dominator.** -/
lemma Built.immediateDominator_iff (hwf : WellFormed f) (h : Built f doms t) {b d : BlockId}
    (hb : Reachable (Edge f) (entryId f) b) :
    t.immediateDominator b = some d ↔ IsImmediateDominator (Edge f) (entryId f) d b := by
  rw [t.immediateDominator_eq]
  constructor
  · exact h.isImmediateDominator hwf hb
  · intro hd
    have hdreach : Reachable (Edge f) (entryId f) d := by
      obtain ⟨p, hp⟩ := hb
      exact hp.reachable_of_mem (hd.1.1 p hp)
    have hanc := (h.anc_iff hwf hdreach hb).mpr hd.1.1
    cases hanc with
    | refl => exact absurd rfl hd.1.2
    | @up _ p hp _ =>
      rw [hp, IsImmediateDominator.unique hb hd (h.isImmediateDominator hwf hb hp)]

/-- Every reachable block but the entry has an immediate dominator. -/
lemma Built.exists_immediateDominator (hwf : WellFormed f) (h : Built f doms t) {b : BlockId}
    (hb : Reachable (Edge f) (entryId f) b) (hne : b ≠ entryId f) :
    ∃ d, t.immediateDominator b = some d := by
  rw [t.immediateDominator_eq]
  cases (h.anc_iff hwf Reachable.root hb).mpr (Dominates.root b) with
  | refl => exact absurd rfl hne
  | @up _ p hp _ => exact ⟨p, hp⟩

/-- The blocks the tree calls reachable are the reachable ones. -/
lemma Built.isReachable_iff (h : Built f doms t) {b : BlockId} :
    t.isReachable b = true ↔ Reachable (Edge f) (entryId f) b := by
  rw [Tree.isReachable, h.index, Option.isSome_iff_exists]
  constructor
  · rintro ⟨k, hk⟩
    exact h.isRpo.reachable ((indexTable_eq_some h.isRpo.nodup).mp hk)
  · intro hb
    obtain ⟨k, hk⟩ := h.isRpo.exists_position hb
    exact ⟨k, (indexTable_eq_some h.isRpo.nodup).mpr hk⟩

end Queries

end Torajs.Dominator
