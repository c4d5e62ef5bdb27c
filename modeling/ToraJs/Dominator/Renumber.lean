import Mathlib.Data.List.Perm.Basic
import ToraJs.Dominator.Tree

/-!
# Renumbered trees and the kept ones

`keep_renumbered` renames the tree of a function whose blocks were renumbered, and `memo`
hands the tree built last for a name out again while the control flow is unchanged.  The
renamed tree is the tree a build of the renumbered function finds, so over every run of
builds, renumberings and `forget`s, `compute` returns what `build` does.
-/

namespace Torajs.Dominator

open Dominance (Reachable Dominates IsImmediateDominator)
open TreeNumbering (Anc)

/-! ### Renumbering -/

/-- A terminator with its targets renamed. -/
def renameTerm (remap : BlockId → BlockId) : Terminator → Terminator
  | .br b => .br (remap b)
  | .condBr thenBlk elseBlk => .condBr (remap thenBlk) (remap elseBlk)
  | .ret => .ret
  | .unreachable => .unreachable

/-- A block with its id and targets renamed. -/
def renameBlock (remap : BlockId → BlockId) (b : Block) : Block :=
  ⟨remap b.id, renameTerm remap b.term⟩

/-- What block layout does: the blocks in another order under new ids, the entry first. -/
structure Renumbers (f f' : Function) (remap : BlockId → BlockId) : Prop where
  blocks : f'.blocks.Perm (f.blocks.map (renameBlock remap))
  entry : entryId f' = remap (entryId f)
  inj : ∀ b ∈ f.blocks.map Block.id, ∀ c ∈ f.blocks.map Block.id, remap b = remap c → b = c

/-- `renumbered`. -/
def renumbered (t : Tree) (f' : Function) (remap : BlockId → BlockId) : Option Tree := do
  let n := idSpan f'
  let idom : BlockId → Option BlockId := t.rpo.foldl
    (fun idom b => Function.update idom (remap b) ((t.idom b).map remap)) fun _ => none
  let index : BlockId → Option ℕ := t.rpo.zipIdx.foldl
    (fun index bk => Function.update index (remap bk.1) (some bk.2)) fun _ => none
  let children := buildChildren idom n
  let times ← treeIntervals children (entryId f') n
  some ⟨n, idom, t.rpo.map remap, index, children, times.1, times.2⟩

lemma targets_renameTerm (remap : BlockId → BlockId) (term : Terminator) :
    targets (renameTerm remap term) = (targets term).map remap := by
  cases term <;> rfl

namespace Renumbers

variable {f f' : Function} {remap : BlockId → BlockId}

lemma mem_blocks (h : Renumbers f f' remap) {blk' : Block} :
    blk' ∈ f'.blocks ↔ ∃ blk ∈ f.blocks, renameBlock remap blk = blk' := by
  rw [h.blocks.mem_iff, List.mem_map]

lemma ids_perm (h : Renumbers f f' remap) :
    (f'.blocks.map Block.id).Perm ((f.blocks.map Block.id).map remap) := by
  have := h.blocks.map Block.id
  rwa [List.map_map, show Block.id ∘ renameBlock remap = remap ∘ Block.id from rfl,
    ← List.map_map] at this

lemma wellFormed (h : Renumbers f f' remap) (hwf : WellFormed f) : WellFormed f' where
  nonempty hnil := by
    have := h.blocks.length_eq
    rw [hnil, List.length_map, List.length_nil, eq_comm, List.length_eq_zero_iff] at this
    exact hwf.nonempty this
  nodup := h.ids_perm.nodup_iff.mpr (hwf.nodup.map_on h.inj)
  target blk' hblk' t ht := by
    obtain ⟨blk, hblk, rfl⟩ := h.mem_blocks.mp hblk'
    have ht : t ∈ targets (renameTerm remap blk.term) := ht
    rw [targets_renameTerm] at ht
    obtain ⟨s, hs, rfl⟩ := List.mem_map.mp ht
    exact h.ids_perm.mem_iff.mpr (List.mem_map_of_mem (hwf.target blk hblk s hs))

/-- Edges are those of the old function under the new names. -/
lemma edge_iff (h : Renumbers f f' remap) (hwf : WellFormed f) {b c : BlockId}
    (hb : b ∈ f.blocks.map Block.id) (hc : c ∈ f.blocks.map Block.id) :
    Edge f' (remap b) (remap c) ↔ Edge f b c := by
  constructor
  · rintro ⟨blk', hblk', hid, ht⟩
    obtain ⟨blk, hblk, rfl⟩ := h.mem_blocks.mp hblk'
    have ht : remap c ∈ targets (renameTerm remap blk.term) := ht
    rw [targets_renameTerm] at ht
    obtain ⟨s, hs, hsc⟩ := List.mem_map.mp ht
    have hbid : blk.id = b := h.inj _ (List.mem_map_of_mem hblk) _ hb hid
    have hsc : s = c := h.inj _ (hwf.target blk hblk s hs) _ hc hsc
    exact ⟨blk, hblk, hbid, hsc ▸ hs⟩
  · rintro ⟨blk, hblk, rfl, ht⟩
    refine ⟨renameBlock remap blk, h.mem_blocks.mpr ⟨blk, hblk, rfl⟩, rfl, ?_⟩
    change remap c ∈ targets (renameTerm remap blk.term)
    rw [targets_renameTerm]
    exact List.mem_map_of_mem ht

/-- The walk from the entry visits the same blocks in the same order. -/
lemma reversePostorder_eq (h : Renumbers f f' remap) (hwf : WellFormed f) (hfit : IdsFit f)
    (hfit' : IdsFit f') :
    reversePostorder f' (successorTable f' (idSpan f')) (entryId f') =
      (reversePostorder f (successorTable f (idSpan f)) (entryId f)).map (List.map remap) := by
  have hwf' := h.wellFormed hwf
  have hlt : ∀ {f : Function}, WellFormed f → IdsFit f → ∀ b,
      ∀ t ∈ slotList (successorTable f (idSpan f) b), t < finalMark := by
    intro f hwf hfit b t ht
    obtain ⟨blk, hblk, _, ht⟩ := (mem_successors_iff hwf).mp ht
    obtain ⟨blk', hblk', rfl⟩ := List.mem_map.mp (hwf.target blk hblk t ht)
    exact hfit blk' hblk'
  have hentry : ∀ {f : Function}, WellFormed f → IdsFit f → entryId f < finalMark := by
    intro f hwf hfit
    obtain ⟨blk, hblk, hid⟩ := List.mem_map.mp hwf.entry_mem
    exact hid ▸ hfit blk hblk
  have hsearch : ∀ {f : Function}, WellFormed f → IdsFit f →
      reversePostorder f (successorTable f (idSpan f)) (entryId f) =
        DepthFirst.search (fun b => slotList (successorTable f (idSpan f) b))
          (3 * f.blocks.length + 1) [.visit (entryId f)] (fun _ => false) [] := by
    intro f hwf hfit
    refine rpoLoop_eq_search (hlt hwf hfit) _ [.visit (entryId f)] _ [] fun x hx => ?_
    obtain rfl := List.mem_singleton.mp hx
    exact hentry hwf hfit
  have hlen : f'.blocks.length = f.blocks.length := by
    rw [h.blocks.length_eq, List.length_map]
  rw [hsearch hwf' hfit', hsearch hwf hfit, hlen, h.entry]
  refine DepthFirst.search_map (N := fun b => b ∈ f.blocks.map Block.id)
    (fun a b ha hb => h.inj a ha b hb) (fun a _ t ht => ?_) (fun a ha => ?_) _
    [.visit (entryId f)] _ _ [] (fun x hx => ?_) fun _ _ => rfl
  · obtain ⟨blk, hblk, _, ht⟩ := (mem_successors_iff hwf).mp ht
    exact hwf.target blk hblk t ht
  · obtain ⟨blk, hblk, rfl⟩ := List.mem_map.mp ha
    have hblk' := h.mem_blocks.mpr ⟨blk, hblk, rfl⟩
    have hslots := slotList_successorTable hwf' hblk'
    dsimp only [renameBlock] at hslots
    rw [hslots, slotList_successorTable hwf hblk, targets_renameTerm]
  · obtain rfl := List.mem_singleton.mp hx
    exact hwf.entry_mem

end Renumbers

/-- The table of immediate dominators is determined by the graph. -/
lemma IsDoms.unique {preds preds' : ℕ → List ℕ} {n : ℕ} {doms doms' : Doms}
    (hedge : ∀ q k, q ∈ preds k ↔ q ∈ preds' k) (h : IsDoms preds n doms)
    (h' : IsDoms preds' n doms') : doms = doms' := by
  have hgraph : PosEdge preds = PosEdge preds' := by
    funext q k
    exact propext (hedge q k)
  have hanc : ∀ {x k}, k < n → (Anc (parentOf doms) x k ↔ Anc (parentOf doms') x k) := by
    intro x k hk
    rw [h.anc_iff x k hk, h'.anc_iff x k hk, hgraph]
  have hle : ∀ {doms doms' : Doms} {k d d' : ℕ}, Shape doms → Shape doms' → 0 < k →
      doms k = some d → doms' k = some d' →
      (∀ x, Anc (parentOf doms) x k → Anc (parentOf doms') x k) → d ≤ d' := by
    intro doms doms' k d d' hs hs' hk hd hd' hsub
    have hdk : Anc (parentOf doms) d k := (hs.anc_iff hd).mpr (Or.inr (Anc.refl d))
    rcases (hs'.anc_iff hd').mp (hsub d hdk) with rfl | hdd
    · exact absurd (hs.lt d d hk hd) (Nat.lt_irrefl d)
    · exact hs'.anc_le hdd
  funext k
  by_cases hk : k < n
  · obtain ⟨d, hd⟩ := Option.isSome_iff_exists.mp ((h.isSome_iff k).mpr hk)
    obtain ⟨d', hd'⟩ := Option.isSome_iff_exists.mp ((h'.isSome_iff k).mpr hk)
    by_cases hk0 : k = 0
    · rw [hk0, h.shape.zero, h'.shape.zero]
    · have hpos : 0 < k := Nat.pos_of_ne_zero hk0
      rw [hd, hd', Nat.le_antisymm
        (hle h.shape h'.shape hpos hd hd' fun x => (hanc hk).mp)
        (hle h'.shape h.shape hpos hd' hd fun x => (hanc hk).mpr)]
  · have hnone : ∀ {preds : ℕ → List ℕ} {doms : Doms}, IsDoms preds n doms → doms k = none :=
      fun h => by rw [← Option.not_isSome_iff_eq_none, h.isSome_iff]; exact hk
    rw [hnone h, hnone h']

/-- **The renamed tree is the tree of the renumbered function.** -/
theorem renumbered_eq_build {f f' : Function} {remap : BlockId → BlockId} {t : Tree}
    (hwf : WellFormed f) (hfit : IdsFit f) (hfit' : IdsFit f') (h : Renumbers f f' remap)
    (ht : build f = some t) : renumbered t f' remap = build f' := by
  obtain ⟨doms, t₀, ht₀, hbuilt⟩ := build_spec hwf hfit
  obtain rfl : t = t₀ := Option.some.inj (ht.symm.trans ht₀)
  have hwf' := h.wellFormed hwf
  obtain ⟨doms', t', ht', hbuilt'⟩ := build_spec hwf' hfit'
  have hids : ∀ {b}, b ∈ t.rpo → b ∈ f.blocks.map Block.id := by
    intro b hb
    refine Reachable.rec_on_step (P := fun b => b ∈ f.blocks.map Block.id) hwf.entry_mem ?_
      ((hbuilt.isRpo.mem_iff b).mp hb)
    rintro _ c _ _ ⟨blk, hblk, _, hc⟩
    exact hwf.target blk hblk c hc
  have hrpo : t'.rpo = t.rpo.map remap := by
    have heq := h.reversePostorder_eq hwf hfit hfit'
    rw [hbuilt'.rpo, hbuilt.rpo, Option.map_some] at heq
    exact Option.some.inj heq
  have hget : ∀ k, t'.rpo[k]? = (t.rpo[k]?).map remap := fun k => by rw [hrpo, List.getElem?_map]
  have hlen : t'.rpo.length = t.rpo.length := by rw [hrpo, List.length_map]
  have hdoms : doms' = doms := by
    have hd' := hbuilt'.isDoms
    rw [hlen] at hd'
    refine (IsDoms.unique (fun q k => ?_) hbuilt.isDoms hd').symm
    rw [mem_posGraph hwf hbuilt.isRpo, mem_posGraph hwf' hbuilt'.isRpo]
    constructor
    · rintro ⟨b, c, hb, hc, he⟩
      refine ⟨remap b, remap c, by rw [hget, hb]; rfl, by rw [hget, hc]; rfl, ?_⟩
      exact (h.edge_iff hwf (hids (List.mem_of_getElem? hb)) (hids (List.mem_of_getElem? hc))).mpr he
    · rintro ⟨b', c', hb', hc', he⟩
      rw [hget] at hb' hc'
      obtain ⟨b, hb, rfl⟩ := Option.map_eq_some_iff.mp hb'
      obtain ⟨c, hc, rfl⟩ := Option.map_eq_some_iff.mp hc'
      refine ⟨b, c, hb, hc, ?_⟩
      exact (h.edge_iff hwf (hids (List.mem_of_getElem? hb)) (hids (List.mem_of_getElem? hc))).mp he
  have hnd : (t.rpo.map remap).Nodup := hrpo ▸ hbuilt'.isRpo.nodup
  have hindex : t.rpo.zipIdx.foldl
      (fun (index : BlockId → Option ℕ) bk => Function.update index (remap bk.1) (some bk.2))
      (fun _ => none) = t'.rpoIndex := by
    rw [hbuilt'.index, hrpo, indexTable, List.zipIdx_map, List.foldl_map]
    rfl
  have hidom : t.rpo.foldl (fun (idom : BlockId → Option BlockId) b =>
      Function.update idom (remap b) ((t.idom b).map remap)) (fun _ => none) = t'.idom := by
    obtain ⟨hin, hout⟩ := foldl_update remap (fun b => (t.idom b).map remap) t.rpo
      (fun _ => none) hnd
    funext b'
    by_cases hb' : b' ∈ t.rpo.map remap
    · obtain ⟨b, hb, rfl⟩ := List.mem_map.mp hb'
      rw [hin b hb]
      obtain ⟨k, hk⟩ := List.mem_iff_getElem?.mp hb
      obtain ⟨d, hd⟩ := Option.isSome_iff_exists.mp
        ((hbuilt.isDoms.isSome_iff k).mpr (lt_of_position hk))
      have hdlt := (hbuilt.isDoms.isSome_iff d).mp (hbuilt.isDoms.shape.set k d hd)
      have hc : t.rpo[d]? = some t.rpo[d] := List.getElem?_eq_getElem hdlt
      rw [(hbuilt.idom b _).mpr ⟨k, d, hk, hd, hc⟩, Option.map_some]
      refine ((hbuilt'.idom _ _).mpr ⟨k, d, by rw [hget, hk]; rfl, hdoms ▸ hd, ?_⟩).symm
      rw [hget, hc, Option.map_some]
    · rw [hout b' hb']
      cases hnone : t'.idom b' with
      | none => rfl
      | some c' =>
        obtain ⟨k, _, hk, _, _⟩ := (hbuilt'.idom b' c').mp hnone
        exact absurd (hrpo ▸ List.mem_of_getElem? hk) hb'
  have htimes : treeIntervals (buildChildren t'.idom (idSpan f')) (entryId f') (idSpan f') =
      some (t'.enter, t'.exit) := by
    rw [← hbuilt'.children]
    exact hbuilt'.times
  rw [ht', renumbered]
  simp only [hidom, hindex, htimes, Option.bind_eq_bind, Option.bind_some]
  rw [← hrpo, ← hbuilt'.children, ← hbuilt'.span]

/-! ### The kept trees -/

/-- `CfgKey`: per block its id, its number of targets and the targets. -/
abbrev CfgKey := List ℕ

/-- `CfgKey::of`. -/
def cfgKey (f : Function) : CfgKey :=
  f.blocks.flatMap fun b => b.id :: (targets b.term).length :: targets b.term

/-- `TREES`: the tree kept for each function name. -/
abbrev Memo := String → Option (CfgKey × Tree)

/-- `DominatorTree::compute` with `memo::tree`: the tree, and the table after it. -/
def compute (f : Function) (m : Memo) : Option (Tree × Memo) :=
  if f.blocks.isEmpty then (build f).map fun t => (t, m)
  else
    match (m f.name).filter fun kept => kept.1 = cfgKey f with
    | some kept => some (kept.2, m)
    | none => (build f).map fun t => (t, Function.update m f.name (some (cfgKey f, t)))

/-- `keep_renumbered` with `memo::keep`. -/
def keepRenumbered (t : Tree) (f' : Function) (remap : BlockId → BlockId) (m : Memo) :
    Option Memo :=
  (renumbered t f' remap).map fun t' => Function.update m f'.name (some (cfgKey f', t'))

/-- `memo::forget`. -/
def forget : Memo := fun _ => none

/-- The tables of a run: builds, renumberings of a function's own tree, and `forget`s in
any order. -/
inductive Memo.Run : Memo → Prop
  | forget : Memo.Run forget
  | compute {m m' : Memo} {f : Function} {t : Tree} :
      Memo.Run m → compute f m = some (t, m') → Memo.Run m'
  | keepRenumbered {m m' : Memo} {f f' : Function} {remap : BlockId → BlockId} {t : Tree} :
      Memo.Run m → WellFormed f → IdsFit f → IdsFit f' → build f = some t →
      Renumbers f f' remap → keepRenumbered t f' remap m = some m' → Memo.Run m'

/-- Every kept tree is what a build of any function with its key finds. -/
def Memo.Sound (m : Memo) : Prop :=
  ∀ name key t, m name = some (key, t) → ∀ f, cfgKey f = key → build f = some t

/-- What a build reads of a block. -/
def view (b : Block) : BlockId × List BlockId := (b.id, targets b.term)

/-- The key determines what it was made of. -/
lemma cfgKey_inj {f g : Function} (h : cfgKey f = cfgKey g) :
    f.blocks.map view = g.blocks.map view := by
  have key : ∀ bs cs : List Block,
      (bs.flatMap fun b => b.id :: (targets b.term).length :: targets b.term) =
        (cs.flatMap fun b => b.id :: (targets b.term).length :: targets b.term) →
      bs.map view = cs.map view := by
    intro bs
    induction bs with
    | nil =>
      intro cs h
      cases cs with
      | nil => rfl
      | cons c cs => simp at h
    | cons b bs ih =>
      intro cs h
      cases cs with
      | nil => simp at h
      | cons c cs =>
        rw [List.flatMap_cons, List.flatMap_cons, List.cons_append, List.cons_append,
          List.cons_append, List.cons_append, List.cons.injEq, List.cons.injEq] at h
        obtain ⟨hid, hlen, hrest⟩ := h
        obtain ⟨hts, hrest⟩ := List.append_inj hrest hlen
        rw [List.map_cons, List.map_cons, ih cs hrest, view, view, hid, hts]
  exact key f.blocks g.blocks h

/-- A build reads ids and targets only. -/
lemma build_congr {f g : Function} (h : f.blocks.map view = g.blocks.map view) :
    build f = build g := by
  have hspan : idSpan f = idSpan g := by
    have hview : ∀ f : Function, idSpan f = ((f.blocks.map view).map fun v => v.1 + 1).foldr max 0 :=
      fun f => by rw [idSpan, List.map_map]; rfl
    rw [hview, hview, h]
  have hsucc : ∀ n, successorTable f n = successorTable g n := by
    intro n
    have hview : ∀ f : Function, successorTable f n = (f.blocks.map view).foldl
        (fun (succ : BlockId → Slots) v => Function.update succ v.1 (fillSlots n (succ v.1) v.2))
        fun _ => (none, none) := fun f => by rw [successorTable, List.foldl_map]; rfl
    rw [hview, hview, h]
  have hpreds : ∀ n, predecessors f n = predecessors g n := by
    intro n
    have hview : ∀ f : Function, predecessors f n = fun i => (f.blocks.map view).flatMap fun v =>
        (v.2.filter fun t => t < n ∧ t = i).map fun _ => v.1 := fun f => by
      funext i
      rw [predecessors, List.flatMap_map]
      rfl
    rw [hview, hview, h]
  have hlen : f.blocks.length = g.blocks.length := by
    have := congrArg List.length h
    rwa [List.length_map, List.length_map] at this
  have hentry : entryId f = entryId g := by
    have hview : ∀ f : Function, entryId f = (((f.blocks.map view).head?).map Prod.fst).getD 0 :=
      fun f => by rw [entryId, List.head?_map, Option.map_map]; rfl
    rw [hview, hview, h]
  rw [build, build, hspan]
  simp only [reversePostorder, hsucc, hpreds, hlen, hentry]

lemma Memo.Sound.update {m : Memo} (hm : m.Sound) {f : Function} {t : Tree}
    (ht : build f = some t) : Memo.Sound (Function.update m f.name (some (cfgKey f, t))) := by
  intro name key t' hkept g hg
  by_cases hname : name = f.name
  · subst hname
    rw [Function.update_self] at hkept
    obtain ⟨rfl, rfl⟩ := Prod.mk.inj (Option.some.inj hkept)
    rw [build_congr (cfgKey_inj hg), ht]
  · rw [Function.update_of_ne hname] at hkept
    exact hm name key t' hkept g hg

/-- Under a sound table `compute` answers with a fresh build, and the table stays sound. -/
lemma Memo.Sound.compute_eq {m : Memo} (hm : m.Sound) (f : Function) :
    (compute f m).map Prod.fst = build f ∧
      ∀ t m', compute f m = some (t, m') → Memo.Sound m' := by
  rw [compute]
  by_cases hempty : f.blocks.isEmpty
  · rw [if_pos hempty]
    refine ⟨by rw [Option.map_map]; exact Option.map_id', ?_⟩
    intro t m' h
    obtain ⟨t', _, heq⟩ := Option.map_eq_some_iff.mp h
    obtain ⟨rfl, rfl⟩ := Prod.mk.inj heq
    exact hm
  · rw [if_neg hempty]
    cases hkept : (m f.name).filter fun kept => kept.1 = cfgKey f with
    | some kept =>
      obtain ⟨hin, hkey⟩ := Option.filter_eq_some_iff.mp hkept
      have hkey : kept.1 = cfgKey f := by simpa using hkey
      refine ⟨(hm f.name kept.1 kept.2 hin f hkey.symm).symm, ?_⟩
      intro t m' h
      obtain ⟨rfl, rfl⟩ := Prod.mk.inj (Option.some.inj h)
      exact hm
    | none =>
      refine ⟨by simp only [Option.map_map, Function.comp_def]; exact Option.map_id', ?_⟩
      intro t m' h
      obtain ⟨t', ht', heq⟩ := Option.map_eq_some_iff.mp h
      obtain ⟨rfl, rfl⟩ := Prod.mk.inj heq
      exact hm.update ht'

/-- **Every table of a run is sound.** -/
theorem Memo.Run.sound {m : Memo} (h : Memo.Run m) : m.Sound := by
  induction h with
  | forget =>
    intro name key t hkept
    cases hkept
  | compute _ hrun ih => exact (ih.compute_eq _).2 _ _ hrun
  | keepRenumbered _ hwf hfit hfit' ht hren hrun ih =>
    rw [Dominator.keepRenumbered, renumbered_eq_build hwf hfit hfit' hren ht] at hrun
    obtain ⟨t', ht', rfl⟩ := Option.map_eq_some_iff.mp hrun
    exact ih.update ht'

lemma Memo.Run.compute_eq_build {m : Memo} (h : Memo.Run m) (f : Function) :
    (Dominator.compute f m).map Prod.fst = build f := (h.sound.compute_eq f).1

/-! ### The main results -/

/-- **The dominator tree.**  At any point of a run `compute` ends and returns a tree; on
reachable blocks `dominates` decides dominance, `immediate_dominator` is the one closest
strict dominator, and the tree renamed after a renumbering is what `compute` returns on
the renumbered function. -/
theorem compute_correct {f : Function} (hwf : WellFormed f) (hfit : IdsFit f) {m : Memo}
    (hm : Memo.Run m) :
    ∃ t m', compute f m = some (t, m') ∧
      (∀ a b, Reachable (Edge f) (entryId f) a → Reachable (Edge f) (entryId f) b →
        (t.dominates a b = true ↔ Dominates (Edge f) (entryId f) a b)) ∧
      (∀ b, Reachable (Edge f) (entryId f) b → ∀ d,
        t.immediateDominator b = some d ↔ IsImmediateDominator (Edge f) (entryId f) d b) ∧
      (∀ b, Reachable (Edge f) (entryId f) b → b ≠ entryId f →
        ∃! d, IsImmediateDominator (Edge f) (entryId f) d b) ∧
      (∀ f' remap m'', Renumbers f f' remap → IdsFit f' → Memo.Run m'' →
        (renumbered t f' remap).isSome ∧
          renumbered t f' remap = (compute f' m'').map Prod.fst) := by
  obtain ⟨doms, t, ht, hbuilt⟩ := build_spec hwf hfit
  have hcompute := (hm.compute_eq_build f).trans ht
  obtain ⟨⟨t', m'⟩, hrun, rfl⟩ := Option.map_eq_some_iff.mp hcompute
  refine ⟨t', m', hrun, fun a b ha hb => hbuilt.dominates_iff hwf ha hb,
    fun b hb d => hbuilt.immediateDominator_iff hwf hb, fun b hb hne => ?_,
    fun f' remap m'' hren hfit' hm'' => ?_⟩
  · obtain ⟨d, hd⟩ := hbuilt.exists_immediateDominator hwf hb hne
    have hdom := (hbuilt.immediateDominator_iff hwf hb).mp hd
    exact ⟨d, hdom, fun d' hd' => IsImmediateDominator.unique hb hd' hdom⟩
  · have heq := renumbered_eq_build hwf hfit hfit' hren ht
    obtain ⟨_, t₁, ht₁, _⟩ := build_spec (hren.wellFormed hwf) hfit'
    rw [hm''.compute_eq_build f', heq]
    exact ⟨by rw [ht₁]; rfl, rfl⟩

/-- A loop with two entries, a self loop and a block nothing reaches. -/
def irreducibleFn : Function :=
  ⟨"irreducible", [⟨0, .condBr 1 2⟩, ⟨1, .condBr 1 2⟩, ⟨2, .condBr 1 3⟩, ⟨3, .ret⟩, ⟨4, .br 3⟩]⟩

theorem compute_correct_irreducible :
    ∃ t m', compute irreducibleFn forget = some (t, m') ∧
      ∃! d, IsImmediateDominator (Edge irreducibleFn) 0 d 2 := by
  have hwf : WellFormed irreducibleFn := ⟨by simp [irreducibleFn], by decide, by decide⟩
  have h1 : Reachable (Edge irreducibleFn) 0 2 :=
    Reachable.root.step ⟨⟨0, .condBr 1 2⟩, by decide, rfl, by decide⟩
  have hfit : IdsFit irreducibleFn := by
    unfold IdsFit
    decide
  obtain ⟨t, m', hrun, _, _, hunique, _⟩ := compute_correct hwf hfit Memo.Run.forget
  exact ⟨t, m', hrun, hunique 2 h1 (by decide)⟩

/-- A block whose id is the mark: visiting it is taken for finishing block 0 again. -/
def markedFn : Function := ⟨"marked", [⟨0, .br (1 <<< 31)⟩, ⟨1 <<< 31, .ret⟩]⟩

/-- The build of a well-formed graph with an id of 2³¹ fails, though both blocks are
reachable. -/
theorem compute_markedFn : WellFormed markedFn ∧
    Reachable (Edge markedFn) (entryId markedFn) (1 <<< 31) ∧
    compute markedFn forget = none := by
  refine ⟨⟨by simp [markedFn], by decide, by decide⟩, ?_, ?_⟩
  · exact Reachable.root.step ⟨⟨0, .br (1 <<< 31)⟩, by decide, rfl, by decide⟩
  · have hnone : (compute markedFn forget).isNone = true := by decide +kernel
    exact Option.isNone_iff_eq_none.mp hnone

end Torajs.Dominator
