import Mathlib.Data.List.Dedup
import Mathlib.Data.List.Sort
import ToraJs.Dominator.Tree
import ToraJs.Egraph.Ir

/-!
# Natural loops

`loop_analysis::LoopAnalysis::build`: back edges grouped by their header, and for each
header the blocks that reach a back edge's source without passing the header.

A loop's body holds its header and its back edges' sources, and every edge into the body
from outside enters at the header.  Different loops have different headers.
-/

namespace Torajs.Egraph

/-! ### The control flow graph -/

/-- A terminator without its operands. -/
def Terminator.skeleton : Terminator → Dominator.Terminator
  | .br b => .br b
  | .condBr _ thenBlk elseBlk => .condBr thenBlk elseBlk
  | .ret _ => .ret
  | .unreachable => .unreachable

/-- What the dominator and loop analyses read of a function. -/
def Func.cfg (f : Func) : Dominator.Function :=
  ⟨f.name, f.blocks.map fun b => ⟨b.id, b.term.skeleton⟩⟩

@[simp]
lemma Terminator.targets_skeleton (term : Terminator) :
    Dominator.targets term.skeleton = successors term := by
  cases term <;> rfl

/-- The graph of a well-formed function is well formed. -/
lemma Func.WellFormed.cfg {f : Func} (h : f.WellFormed) : Dominator.WellFormed f.cfg := by
  have hids : f.cfg.blocks.map Dominator.Block.id = List.range f.blocks.length := by
    refine List.ext_getElem? fun i => ?_
    rw [Func.cfg, List.map_map, List.getElem?_map]
    cases hi : f.blocks[i]? with
    | none =>
      rw [List.getElem?_eq_none (by rw [List.length_range]; exact List.getElem?_eq_none_iff.mp hi)]
      rfl
    | some blk =>
      rw [List.getElem?_range (List.getElem?_eq_some_iff.mp hi).1, ← h.id_eq i blk hi]
      rfl
  refine ⟨?_, ?_, ?_⟩
  · rw [Func.cfg]
    exact fun hnil => h.nonempty (List.map_eq_nil_iff.mp hnil)
  · rw [hids]
    exact List.nodup_range
  · intro blk hblk t ht
    obtain ⟨blk', hblk', rfl⟩ := List.mem_map.mp hblk
    obtain ⟨b, hb⟩ := Func.exists_blockAt hblk'
    rw [hids, List.mem_range]
    exact h.target b blk' hb t (by rwa [Terminator.targets_skeleton] at ht)

/-! ### The analysis -/

/-- `loop_analysis::NaturalLoop`. -/
structure NaturalLoop where
  header : BlockId
  body : List BlockId
  backEdgeSources : List BlockId

/-- `NaturalLoop::contains`; the body is sorted, so the binary search finds what it
holds. -/
def NaturalLoop.contains (l : NaturalLoop) (b : BlockId) : Bool := b ∈ l.body

/-- A back edge joins its header's group, the first one starts it. -/
def addBackEdge (n : ℕ) (groups : List (BlockId × List BlockId)) (e : BlockId × BlockId) :
    List (BlockId × List BlockId) :=
  if e.1 < n ∧ (groups.any fun g => g.1 = e.1) then
    groups.map fun g => if g.1 = e.1 then (g.1, g.2 ++ [e.2]) else g
  else groups ++ [(e.1, [e.2])]

/-- The edges in layout order, target first. -/
def edgeList (f : Dominator.Function) : List (BlockId × BlockId) :=
  f.blocks.flatMap fun blk => (Dominator.targets blk.term).map fun t => (t, blk.id)

/-- `loop_analysis::back_edges`. -/
def backEdges (f : Dominator.Function) (dom : Dominator.Tree) (n : ℕ) :
    List (BlockId × List BlockId) :=
  ((edgeList f).filter fun e => dom.dominates e.1 e.2).foldl (addBackEdge n) []

/-- Mark a block and remember it to visit. -/
def mark (n : ℕ) (s : List BlockId × List BlockId) (p : BlockId) : List BlockId × List BlockId :=
  if p < n ∧ p ∉ s.1 then (s.1 ++ [p], p :: s.2) else s

/-- The loop of `collect_loop_body`: marked blocks, and a stack of blocks to visit. -/
def bodyLoop (preds : BlockId → List BlockId) (n : ℕ) :
    ℕ → List BlockId × List BlockId → Option (List BlockId)
  | _, (marked, []) => some marked
  | 0, (_, _ :: _) => none
  | fuel + 1, (marked, b :: stack) =>
    bodyLoop preds n fuel ((preds b).foldl (mark n) (marked, stack))

/-- `loop_analysis::collect_loop_body`.  A block is pushed at most once. -/
def collectLoopBody (preds : BlockId → List BlockId) (n : ℕ) (header : BlockId)
    (sources : List BlockId) : Option (List BlockId) :=
  (bodyLoop preds n n
    (sources.foldl (mark n) (if header < n then [header] else [], []))).map
    fun marked => marked.insertionSort (· ≤ ·)

/-- The loop of a group of back edges. -/
def loopOf (f : Dominator.Function) (g : BlockId × List BlockId) : Option NaturalLoop :=
  (collectLoopBody (Dominator.predecessors f (Dominator.idSpan f)) (Dominator.idSpan f) g.1 g.2).map
    fun body => ⟨g.1, body, (g.2.insertionSort (· ≤ ·)).dedup⟩

/-- `LoopAnalysis::build`: the loops, by header. -/
def buildLoops (f : Dominator.Function) (dom : Dominator.Tree) : Option (List NaturalLoop) :=
  ((backEdges f dom (Dominator.idSpan f)).mapM (loopOf f)).map fun loops =>
    loops.insertionSort fun a b => a.header ≤ b.header

/-! ### Back edges -/

/-- Every source of a group is a block with an edge to the header that dominates it. -/
lemma mem_foldl_addBackEdge {n : ℕ} {es : List (BlockId × BlockId)} :
    ∀ {groups : List (BlockId × List BlockId)} {g : BlockId × List BlockId} {src : BlockId},
      g ∈ es.foldl (addBackEdge n) groups → src ∈ g.2 →
      (g.1, src) ∈ es ∨ ∃ g' ∈ groups, g'.1 = g.1 ∧ src ∈ g'.2 := by
  induction es with
  | nil => exact fun {_ g _} hg hsrc => Or.inr ⟨g, hg, rfl, hsrc⟩
  | cons e es ih =>
    intro groups g src hg hsrc
    rcases ih hg hsrc with hmem | ⟨g', hg', hkey, hsrc'⟩
    · exact Or.inl (List.mem_cons_of_mem _ hmem)
    · rw [addBackEdge] at hg'
      split at hg'
      · obtain ⟨g₀, hg₀, rfl⟩ := List.mem_map.mp hg'
        split at hkey
        · next heq =>
          rw [if_pos heq] at hsrc'
          rcases List.mem_append.mp hsrc' with h | h
          · exact Or.inr ⟨g₀, hg₀, hkey, h⟩
          · obtain rfl := List.mem_singleton.mp h
            refine Or.inl (List.mem_cons.mpr (Or.inl ?_))
            rw [← hkey, heq]
        · next hne =>
          rw [if_neg hne] at hsrc'
          exact Or.inr ⟨g₀, hg₀, hkey, hsrc'⟩
      · rcases List.mem_append.mp hg' with h | h
        · exact Or.inr ⟨g', h, hkey, hsrc'⟩
        · obtain rfl := List.mem_singleton.mp h
          obtain rfl := List.mem_singleton.mp hsrc'
          refine Or.inl (List.mem_cons.mpr (Or.inl ?_))
          rw [← hkey]

/-- A header has one group. -/
lemma nodup_foldl_addBackEdge {n : ℕ} {es : List (BlockId × BlockId)} (hes : ∀ e ∈ es, e.1 < n) :
    ∀ {groups : List (BlockId × List BlockId)}, (groups.map Prod.fst).Nodup →
      ((es.foldl (addBackEdge n) groups).map Prod.fst).Nodup := by
  induction es with
  | nil => exact fun h => h
  | cons e es ih =>
    intro groups h
    refine ih (fun e' he' => hes e' (List.mem_cons_of_mem _ he')) ?_
    rw [addBackEdge]
    split
    · have hmap : (groups.map fun g => if g.1 = e.1 then (g.1, g.2 ++ [e.2]) else g).map Prod.fst =
          groups.map Prod.fst := by
        rw [List.map_map]
        refine List.map_congr_left fun g _ => ?_
        rw [Function.comp_apply]
        split <;> rfl
      rwa [hmap]
    · next hno =>
      rw [List.map_append, List.nodup_append]
      refine ⟨h, List.nodup_singleton _, ?_⟩
      rintro a ha b hb rfl
      obtain rfl := List.mem_singleton.mp hb
      obtain ⟨g, hg, hkey⟩ := List.mem_map.mp ha
      exact hno ⟨hes e List.mem_cons_self, List.any_eq_true.mpr ⟨g, hg, by simpa using hkey⟩⟩

lemma mem_edgeList {f : Dominator.Function} {t b : BlockId} :
    (t, b) ∈ edgeList f ↔ Dominator.Edge f b t := by
  rw [edgeList, List.mem_flatMap]
  constructor
  · rintro ⟨blk, hblk, hmem⟩
    obtain ⟨t', ht', heq⟩ := List.mem_map.mp hmem
    obtain ⟨rfl, rfl⟩ := Prod.mk.inj heq
    exact ⟨blk, hblk, rfl, ht'⟩
  · rintro ⟨blk, hblk, rfl, ht⟩
    exact ⟨blk, hblk, List.mem_map.mpr ⟨t, ht, rfl⟩⟩

/-! ### Bodies -/

section Body

variable {n : ℕ}

/-- What marking a list of blocks does. -/
structure Marked (n : ℕ) (ps : List BlockId) (s s' : List BlockId × List BlockId) : Prop where
  keep : s.1 ⊆ s'.1
  stack : s.2 ⊆ s'.2
  mem : ∀ p ∈ ps, p < n → p ∈ s'.1
  fresh : ∀ p ∈ s'.1, p ∈ s.1 ∨ p ∈ s'.2
  stack_mem : ∀ p ∈ s'.2, p ∈ s.2 ∨ p ∈ s'.1
  /-- A block is pushed when it is marked. -/
  length : s'.2.length + s.1.length = s.2.length + s'.1.length
  nodup : s.1.Nodup → (∀ p ∈ s.1, p < n) → s'.1.Nodup ∧ ∀ p ∈ s'.1, p < n

lemma marked_foldl (ps : List BlockId) :
    ∀ s : List BlockId × List BlockId, Marked n ps s (ps.foldl (mark n) s) := by
  induction ps with
  | nil =>
    exact fun s => ⟨fun _ h => h, fun _ h => h, nofun, fun _ h => Or.inl h, fun _ h => Or.inl h,
      rfl, fun h h' => ⟨h, h'⟩⟩
  | cons p ps ih =>
    intro s
    obtain ⟨hkeep, hstack, hmem, hfresh, hsm, hlen, hnd⟩ := ih (mark n s p)
    rw [List.foldl_cons]
    by_cases hp : p < n ∧ p ∉ s.1
    · have hmark : mark n s p = (s.1 ++ [p], p :: s.2) := if_pos hp
      rw [hmark] at hkeep hstack hmem hfresh hsm hlen hnd ⊢
      refine ⟨fun a ha => hkeep (List.mem_append_left _ ha),
        fun a ha => hstack (List.mem_cons_of_mem _ ha), ?_, ?_, ?_, ?_, ?_⟩
      · intro q hq hqn
        rcases List.mem_cons.mp hq with rfl | hq
        · exact hkeep (List.mem_append_right _ (List.mem_singleton_self q))
        · exact hmem q hq hqn
      · intro q hq
        rcases hfresh q hq with h | h
        · rcases List.mem_append.mp h with h | h
          · exact Or.inl h
          · obtain rfl := List.mem_singleton.mp h
            exact Or.inr (hstack List.mem_cons_self)
        · exact Or.inr h
      · intro q hq
        rcases hsm q hq with h | h
        · rcases List.mem_cons.mp h with rfl | h
          · exact Or.inr (hkeep (List.mem_append_right _ (List.mem_singleton_self q)))
          · exact Or.inl h
        · exact Or.inr h
      · simp only [List.length_append, List.length_cons, List.length_nil] at hlen
        omega
      · intro hnodup hlt
        refine hnd ?_ ?_
        · rw [List.nodup_append]
          refine ⟨hnodup, List.nodup_singleton _, ?_⟩
          rintro a ha b hb rfl
          exact hp.2 (by rwa [List.mem_singleton.mp hb] at ha)
        · intro q hq
          rcases List.mem_append.mp hq with h | h
          · exact hlt q h
          · rw [List.mem_singleton.mp h]
            exact hp.1
    · have hmark : mark n s p = s := if_neg hp
      rw [hmark] at hkeep hstack hmem hfresh hsm hlen hnd ⊢
      refine ⟨hkeep, hstack, ?_, hfresh, hsm, hlen, hnd⟩
      intro q hq hqn
      rcases List.mem_cons.mp hq with rfl | hq
      · exact hkeep (not_not.mp fun hnot => hp ⟨hqn, hnot⟩)
      · exact hmem q hq hqn

variable {preds : BlockId → List BlockId} {header : BlockId}

/-- A marked block other than the header is still to visit, or its predecessors are
marked. -/
def Explored (preds : BlockId → List BlockId) (n : ℕ) (header : BlockId)
    (s : List BlockId × List BlockId) : Prop :=
  (∀ b ∈ s.2, b ∈ s.1) ∧
    ∀ b ∈ s.1, b = header ∨ b ∈ s.2 ∨ ∀ p ∈ preds b, p < n → p ∈ s.1

lemma Explored.visit {marked stack : List BlockId} {b : BlockId}
    (h : Explored preds n header (marked, b :: stack)) :
    Explored preds n header ((preds b).foldl (mark n) (marked, stack)) := by
  obtain ⟨hkeep, hstack, hmem, hfresh, hsm, -, -⟩ := marked_foldl (n := n) (preds b) (marked, stack)
  refine ⟨fun q hq => ?_, fun q hq => ?_⟩
  · rcases hsm q hq with h' | h'
    · exact hkeep (h.1 q (List.mem_cons_of_mem _ h'))
    · exact h'
  · rcases hfresh q hq with h' | h'
    · rcases h.2 q h' with heq | hst | hpreds
      · exact Or.inl heq
      · rcases List.mem_cons.mp hst with rfl | hst
        · exact Or.inr (Or.inr hmem)
        · exact Or.inr (Or.inl (hstack hst))
      · exact Or.inr (Or.inr fun p hp hpn => hkeep (hpreds p hp hpn))
    · exact Or.inr (Or.inl h')

/-- What the loop marks in the end: all it started with, and closed under predecessors but
for the header's. -/
lemma bodyLoop_spec (fuel : ℕ) :
    ∀ {s : List BlockId × List BlockId} {body : List BlockId}, Explored preds n header s →
      bodyLoop preds n fuel s = some body →
      s.1 ⊆ body ∧ ∀ b ∈ body, b = header ∨ ∀ p ∈ preds b, p < n → p ∈ body := by
  induction fuel with
  | zero =>
    rintro ⟨marked, stack⟩ body hexp hrun
    cases stack with
    | nil =>
      obtain rfl := Option.some.inj hrun
      exact ⟨fun _ h => h, fun b hb => (hexp.2 b hb).imp_right fun h => h.resolve_left nofun⟩
    | cons b stack => cases hrun
  | succ fuel ih =>
    rintro ⟨marked, stack⟩ body hexp hrun
    cases stack with
    | nil =>
      obtain rfl := Option.some.inj hrun
      exact ⟨fun _ h => h, fun b hb => (hexp.2 b hb).imp_right fun h => h.resolve_left nofun⟩
    | cons b stack =>
      obtain ⟨hsub, hclosed⟩ := ih hexp.visit hrun
      exact ⟨fun q hq => hsub ((marked_foldl (preds b) (marked, stack)).keep hq), hclosed⟩

/-- The loop ends: a block is marked once and pushed only then. -/
lemma bodyLoop_isSome (fuel : ℕ) :
    ∀ {s : List BlockId × List BlockId}, s.1.Nodup → (∀ p ∈ s.1, p < n) →
      s.2.length + n ≤ fuel + s.1.length → (bodyLoop preds n fuel s).isSome := by
  have hcard : ∀ l : List BlockId, l.Nodup → (∀ p ∈ l, p < n) → l.length ≤ n := by
    intro l hnd hlt
    have hsub : l ⊆ List.range n := fun p hp => List.mem_range.mpr (hlt p hp)
    have := (hnd.subperm hsub).length_le
    rwa [List.length_range] at this
  induction fuel with
  | zero =>
    rintro ⟨marked, stack⟩ hnd hlt hfuel
    cases stack with
    | nil => rfl
    | cons b stack =>
      have := hcard marked hnd hlt
      simp only [List.length_cons] at hfuel
      omega
  | succ fuel ih =>
    rintro ⟨marked, stack⟩ hnd hlt hfuel
    cases stack with
    | nil => rfl
    | cons b stack =>
      have hm := marked_foldl (n := n) (preds b) (marked, stack)
      obtain ⟨hnd', hlt'⟩ := hm.nodup hnd hlt
      refine ih hnd' hlt' ?_
      have hlen := hm.length
      simp only [List.length_cons] at hfuel hlen ⊢
      omega

end Body

/-! ### Loops -/

/-- A loop of the analysis, by what the passes rely on. -/
structure NaturalLoop.OfFunction (f : Dominator.Function) (dom : Dominator.Tree) (l : NaturalLoop) :
    Prop where
  header_mem : l.header ∈ l.body
  source_mem : ∀ b ∈ l.backEdgeSources, b ∈ l.body
  source_edge : ∀ b ∈ l.backEdgeSources, Dominator.Edge f b l.header ∧ dom.dominates l.header b
  /-- An edge into the body enters at the header or from inside. -/
  closed : ∀ b ∈ l.body, b ≠ l.header → ∀ p, Dominator.Edge f p b → p ∈ l.body

variable {f : Dominator.Function} {dom : Dominator.Tree}

lemma mem_backEdges (hwf : Dominator.WellFormed f) {g : BlockId × List BlockId}
    (hg : g ∈ backEdges f dom (Dominator.idSpan f)) {src : BlockId} (hsrc : src ∈ g.2) :
    Dominator.Edge f src g.1 ∧ dom.dominates g.1 src ∧ g.1 < Dominator.idSpan f ∧
      src < Dominator.idSpan f := by
  rcases mem_foldl_addBackEdge hg hsrc with hmem | ⟨g', hg', _⟩
  · obtain ⟨hedge, hdom⟩ := List.mem_filter.mp hmem
    have hedge := mem_edgeList.mp hedge
    obtain ⟨blk, hblk, hid, ht⟩ := hedge
    exact ⟨⟨blk, hblk, hid, ht⟩, hdom, Dominator.lt_idSpan (hwf.target blk hblk _ ht),
      hid ▸ Dominator.lt_idSpan (List.mem_map.mpr ⟨blk, hblk, rfl⟩)⟩
  · cases hg'

/-- A group has a source. -/
lemma exists_source {n : ℕ} {es : List (BlockId × BlockId)} :
    ∀ {groups : List (BlockId × List BlockId)}, (∀ g ∈ groups, g.2 ≠ []) →
      ∀ g ∈ es.foldl (addBackEdge n) groups, g.2 ≠ [] := by
  induction es with
  | nil => exact fun h => h
  | cons e es ih =>
    intro groups h
    refine ih fun g hg => ?_
    rw [addBackEdge] at hg
    split at hg
    · obtain ⟨g₀, hg₀, rfl⟩ := List.mem_map.mp hg
      split
      · exact List.append_ne_nil_of_right_ne_nil _ (List.cons_ne_nil _ _)
      · exact h g₀ hg₀
    · rcases List.mem_append.mp hg with hg | hg
      · exact h g hg
      · rw [List.mem_singleton.mp hg]
        exact List.cons_ne_nil _ _

/-- What `collect_loop_body` collects. -/
lemma collectLoopBody_spec {n : ℕ} {preds : BlockId → List BlockId} {header : BlockId}
    {sources body : List BlockId} (hheader : header < n) (hsources : ∀ b ∈ sources, b < n)
    (h : collectLoopBody preds n header sources = some body) :
    header ∈ body ∧ (∀ b ∈ sources, b ∈ body) ∧
      ∀ b ∈ body, b ≠ header → ∀ p ∈ preds b, p < n → p ∈ body := by
  obtain ⟨marked, hrun, rfl⟩ := Option.map_eq_some_iff.mp h
  rw [if_pos hheader] at hrun
  have hm := marked_foldl (n := n) sources ([header], [])
  have hexp : Explored preds n header (sources.foldl (mark n) ([header], [])) := by
    refine ⟨fun b hb => (hm.stack_mem b hb).resolve_left nofun, fun b hb => ?_⟩
    rcases hm.fresh b hb with h' | h'
    · exact Or.inl (List.mem_singleton.mp h')
    · exact Or.inr (Or.inl h')
  obtain ⟨hsub, hclosed⟩ := bodyLoop_spec n hexp hrun
  have hperm : ∀ b, b ∈ marked.insertionSort (· ≤ ·) ↔ b ∈ marked := fun b =>
    (List.perm_insertionSort _ marked).mem_iff
  simp only [hperm]
  refine ⟨hsub (hm.keep (List.mem_singleton_self header)),
    fun b hb => hsub (hm.mem b hb (hsources b hb)), fun b hb hne => (hclosed b hb).resolve_left hne⟩

lemma collectLoopBody_isSome {n : ℕ} {preds : BlockId → List BlockId} {header : BlockId}
    {sources : List BlockId} (hheader : header < n) :
    (collectLoopBody preds n header sources).isSome := by
  rw [collectLoopBody, Option.isSome_map, if_pos hheader]
  have hm := marked_foldl (n := n) sources ([header], [])
  obtain ⟨hnd, hlt⟩ := hm.nodup (List.nodup_singleton _) fun p hp => by
    rwa [List.mem_singleton.mp hp]
  have hlen := hm.length
  simp only [List.length_cons, List.length_nil] at hlen
  exact bodyLoop_isSome n hnd hlt (by omega)

/-- A result of a map comes from an element. -/
lemma exists_of_mem_mapM {α β : Type} {g : α → Option β} :
    ∀ {xs : List α} {ys : List β}, xs.mapM g = some ys → ∀ y ∈ ys, ∃ x ∈ xs, g x = some y := by
  intro xs
  induction xs with
  | nil =>
    rintro ys h y hy
    obtain rfl : [] = ys := Option.some.inj h
    cases hy
  | cons x xs ih =>
    intro ys h y hy
    rw [List.mapM_cons] at h
    obtain ⟨y', hy', h⟩ := Option.bind_eq_some_iff.mp h
    obtain ⟨ys', hys', h⟩ := Option.bind_eq_some_iff.mp h
    obtain rfl : y' :: ys' = ys := Option.some.inj h
    rcases List.mem_cons.mp hy with rfl | hy
    · exact ⟨x, List.mem_cons_self, hy'⟩
    · obtain ⟨x', hx', hgx⟩ := ih hys' y hy
      exact ⟨x', List.mem_cons_of_mem _ hx', hgx⟩

/-- A key that results share with their elements. -/
lemma map_of_mapM {α β γ : Type} {g : α → Option β} {key : α → γ} {key' : β → γ}
    (hkey : ∀ x y, g x = some y → key' y = key x) :
    ∀ {xs : List α} {ys : List β}, xs.mapM g = some ys → ys.map key' = xs.map key := by
  intro xs
  induction xs with
  | nil =>
    rintro ys h
    obtain rfl : [] = ys := Option.some.inj h
    rfl
  | cons x xs ih =>
    intro ys h
    rw [List.mapM_cons] at h
    obtain ⟨y', hy', h⟩ := Option.bind_eq_some_iff.mp h
    obtain ⟨ys', hys', h⟩ := Option.bind_eq_some_iff.mp h
    obtain rfl : y' :: ys' = ys := Option.some.inj h
    rw [List.map_cons, List.map_cons, hkey x y' hy', ih hys']

/-- A map whose elements all have results has one. -/
lemma isSome_mapM {α β : Type} {g : α → Option β} :
    ∀ {xs : List α}, (∀ x ∈ xs, (g x).isSome) → (xs.mapM g).isSome := by
  intro xs
  induction xs with
  | nil => exact fun _ => rfl
  | cons x xs ih =>
    intro h
    obtain ⟨y, hy⟩ := Option.isSome_iff_exists.mp (h x List.mem_cons_self)
    obtain ⟨ys, hys⟩ := Option.isSome_iff_exists.mp (ih fun x' hx' => h x' (List.mem_cons_of_mem _ hx'))
    rw [List.mapM_cons, hy, Option.bind_eq_bind, Option.bind_some, hys]
    rfl

lemma header_lt (hwf : Dominator.WellFormed f) {g : BlockId × List BlockId}
    (hg : g ∈ backEdges f dom (Dominator.idSpan f)) : g.1 < Dominator.idSpan f := by
  obtain ⟨src, hsrc⟩ := List.exists_mem_of_ne_nil _ (exists_source (List.forall_mem_nil _) g hg)
  exact (mem_backEdges hwf hg hsrc).2.2.1

lemma loopOf_spec (hwf : Dominator.WellFormed f) {g : BlockId × List BlockId}
    (hg : g ∈ backEdges f dom (Dominator.idSpan f)) {l : NaturalLoop} (hl : loopOf f g = some l) :
    l.OfFunction f dom := by
  obtain ⟨body, hbody, rfl⟩ := Option.map_eq_some_iff.mp hl
  have hback := fun {src} (hsrc : src ∈ g.2) => mem_backEdges hwf hg hsrc
  have hsources : ∀ b, b ∈ (g.2.insertionSort (· ≤ ·)).dedup ↔ b ∈ g.2 := fun b =>
    List.mem_dedup.trans (List.perm_insertionSort _ g.2).mem_iff
  obtain ⟨hhead, hsrc, hclosed⟩ :=
    collectLoopBody_spec (header_lt hwf hg) (fun b hb => (hback hb).2.2.2) hbody
  refine ⟨hhead, fun b hb => hsrc b ((hsources b).mp hb), fun b hb => ?_, ?_⟩
  · exact ⟨(hback ((hsources b).mp hb)).1, (hback ((hsources b).mp hb)).2.1⟩
  · rintro b hb hne p hedge
    refine hclosed b hb hne p ((Dominator.mem_predecessors_iff hwf).mpr hedge) ?_
    obtain ⟨blk, hblk, hid, _⟩ := hedge
    exact hid ▸ Dominator.lt_idSpan (List.mem_map.mpr ⟨blk, hblk, rfl⟩)

/-- **The loops of a well-formed function**: what the passes rely on holds of each, and no
two share a header. -/
theorem buildLoops_spec (hwf : Dominator.WellFormed f) {loops : List NaturalLoop}
    (h : buildLoops f dom = some loops) :
    (∀ l ∈ loops, l.OfFunction f dom) ∧ (loops.map NaturalLoop.header).Nodup := by
  obtain ⟨unsorted, hunsorted, rfl⟩ := Option.map_eq_some_iff.mp h
  have hperm := List.perm_insertionSort (fun a b : NaturalLoop => a.header ≤ b.header) unsorted
  constructor
  · intro l hl
    obtain ⟨g, hg, hgl⟩ := exists_of_mem_mapM hunsorted l (hperm.mem_iff.mp hl)
    exact loopOf_spec hwf hg hgl
  · refine (hperm.map NaturalLoop.header).nodup_iff.mpr ?_
    have hkey : ∀ g l, loopOf f g = some l → l.header = g.1 := by
      intro g l hl
      obtain ⟨body, _, rfl⟩ := Option.map_eq_some_iff.mp hl
      rfl
    rw [map_of_mapM hkey hunsorted]
    refine nodup_foldl_addBackEdge (fun e he => ?_) List.nodup_nil
    obtain ⟨hmem, _⟩ := List.mem_filter.mp he
    obtain ⟨blk, hblk, _, ht⟩ := mem_edgeList.mp hmem
    exact Dominator.lt_idSpan (hwf.target blk hblk _ ht)

/-- The analysis ends. -/
lemma buildLoops_isSome (hwf : Dominator.WellFormed f) : (buildLoops f dom).isSome := by
  rw [buildLoops, Option.isSome_map]
  refine isSome_mapM fun g hg => ?_
  rw [loopOf, Option.isSome_map]
  exact collectLoopBody_isSome (header_lt hwf hg)

/-! ### Walks and the graph -/

section Graph

open Dominance

variable {f : Func}

/-- The block ids of a function with few enough blocks leave the mark's bit free. -/
lemma Func.WellFormed.idsFit (hwf : f.WellFormed) (hfit : f.blocks.length ≤ Dominator.finalMark) :
    Dominator.IdsFit f.cfg := by
  intro blk hblk
  obtain ⟨blk', hblk', rfl⟩ := List.mem_map.mp hblk
  exact lt_of_lt_of_le (hwf.blockAt_id hblk').lt hfit

lemma Func.WellFormed.entryId_cfg (hwf : f.WellFormed) : Dominator.entryId f.cfg = 0 := by
  obtain ⟨blk, hblk⟩ := Func.exists_blockAt_of_lt (List.length_pos_iff.mpr hwf.nonempty)
  have hid := hwf.id_eq 0 blk hblk
  rw [Dominator.entryId, Func.cfg, List.head?_map, List.head?_eq_getElem?,
    show f.blocks[0]? = some blk from hblk]
  exact hid

/-- A branch of a block is an edge of the graph. -/
lemma Func.WellFormed.edge_cfg (hwf : f.WellFormed) {b t : BlockId} {blk : Block}
    (hblk : f.BlockAt b blk) (ht : t ∈ successors blk.term) : Dominator.Edge f.cfg b t := by
  refine ⟨⟨blk.id, blk.term.skeleton⟩, List.mem_map.mpr ⟨blk, hblk.mem, rfl⟩, hwf.id_eq b blk hblk, ?_⟩
  rwa [Terminator.targets_skeleton]

/-- An edge of the graph is a branch of a block. -/
lemma Func.WellFormed.exists_of_edge (hwf : f.WellFormed) {b t : BlockId}
    (h : Dominator.Edge f.cfg b t) : ∃ blk, f.BlockAt b blk ∧ t ∈ successors blk.term := by
  obtain ⟨skel, hskel, rfl, ht⟩ := h
  obtain ⟨blk, hblk, rfl⟩ := List.mem_map.mp hskel
  rw [Terminator.targets_skeleton] at ht
  exact ⟨blk, hwf.blockAt_id hblk, ht⟩

/-- Walks reach the blocks the graph reaches. -/
lemma Func.WellFormed.exists_walk (hwf : f.WellFormed) {b : BlockId}
    (h : Reachable (Dominator.Edge f.cfg) (Dominator.entryId f.cfg) b) :
    ∃ defs, f.Walk b 0 defs := by
  refine Reachable.rec_on_step (P := fun b => ∃ defs, f.Walk b 0 defs) ?_ ?_ h
  · rw [hwf.entryId_cfg]
    exact ⟨f.params, Func.Walk.entry⟩
  · rintro b c _ ⟨defs, hwalk⟩ hedge
    obtain ⟨blk, hblk, hc⟩ := hwf.exists_of_edge hedge
    obtain ⟨defs', hwalk'⟩ := hwalk.within hblk blk.insts.length le_rfl
    exact ⟨_, hwalk'.branch hblk hc⟩

end Graph

end Torajs.Egraph
