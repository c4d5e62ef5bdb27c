import Mathlib.Algebra.BigOperators.Group.List.Basic
import ToraJs.Egraph.CtpopIdiom

/-!
# What a matched population count loop is

Where the five instructions of the body stand, and in which order: a value with one
definition is read behind it, so the `sub` comes before the `and`, and each copy behind
what it copies.  The loop's blocks are entered at the header alone, and its intermediate
values are dead at the exit.
-/

namespace Torajs.Egraph

open Dominance

/-! ### Definitions counted once -/

lemma two_le_countP {α : Type} {p : α → Bool} {l : List α} {i j : ℕ} (hij : i < j) {x y : α}
    (hi : l[i]? = some x) (hj : l[j]? = some y) (hx : p x = true) (hy : p y = true) :
    2 ≤ l.countP p := by
  have hlow : 0 < (l.take j).countP p := by
    refine List.countP_pos_iff.mpr ⟨x, List.mem_of_getElem? (i := i) ?_, hx⟩
    rwa [List.getElem?_take_of_lt hij]
  have hhigh : 0 < (l.drop j).countP p := by
    refine List.countP_pos_iff.mpr ⟨y, List.mem_of_getElem? (i := 0) ?_, hy⟩
    rwa [List.getElem?_drop, Nat.add_zero]
  rw [← List.take_append_drop j l, List.countP_append]
  omega

lemma add_le_sum {l : List ℕ} {i j a b : ℕ} (hij : i < j) (hi : l[i]? = some a)
    (hj : l[j]? = some b) : a + b ≤ l.sum := by
  have hlow : a ≤ (l.take j).sum := by
    refine List.le_sum_of_mem (List.mem_of_getElem? (i := i) ?_)
    rwa [List.getElem?_take_of_lt hij]
  have hhigh : b ≤ (l.drop j).sum := by
    refine List.le_sum_of_mem (List.mem_of_getElem? (i := 0) ?_)
    rwa [List.getElem?_drop, Nat.add_zero]
  rw [← List.take_append_drop j l, List.sum_append]
  exact Nat.add_le_add hlow hhigh

variable {f : Func}

/-- A value counted once is defined at one place. -/
lemma eq_of_defCounts {v : ValueId} (h : defCounts f v = 1) {b b' i i' : ℕ} {blk blk' : Block}
    {inst inst' : Inst} (hblk : f.BlockAt b blk) (hi : blk.insts[i]? = some inst)
    (hv : inst.result = some v) (hblk' : f.BlockAt b' blk') (hi' : blk'.insts[i']? = some inst')
    (hv' : inst'.result = some v) : b = b' ∧ i = i' := by
  have hpos : ∀ {blk : Block} {i : ℕ} {inst : Inst}, blk.insts[i]? = some inst →
      inst.result = some v → 0 < blk.insts.countP fun inst => inst.result = some v :=
    fun hi hv => List.countP_pos_iff.mpr ⟨_, List.mem_of_getElem? hi, decide_eq_true hv⟩
  have hcount : ∀ {b : ℕ} {blk : Block}, f.BlockAt b blk →
      (f.blocks.map fun block => block.insts.countP fun inst => inst.result = some v)[b]? =
        some (blk.insts.countP fun inst => inst.result = some v) := by
    intro b blk hblk
    rw [List.getElem?_map, show f.blocks[b]? = some blk from hblk]
    rfl
  have hb : b = b' := by
    by_contra hne
    have := hpos hi hv
    have := hpos hi' hv'
    rw [defCounts] at h
    rcases Nat.lt_or_gt_of_ne hne with hlt | hlt
    · have := add_le_sum hlt (hcount hblk) (hcount hblk')
      omega
    · have := add_le_sum hlt (hcount hblk') (hcount hblk)
      omega
  subst hb
  obtain rfl := hblk.unique hblk'
  refine ⟨rfl, ?_⟩
  by_contra hne
  have hle := List.le_sum_of_mem (List.mem_of_getElem? (hcount hblk))
  rw [← defCounts, h] at hle
  have htwo : ∀ {i j : ℕ} {x y : Inst}, i < j → blk.insts[i]? = some x → blk.insts[j]? = some y →
      x.result = some v → y.result = some v →
      2 ≤ blk.insts.countP fun inst => inst.result = some v := fun hij hi hj hx hy =>
    two_le_countP hij hi hj (decide_eq_true hx) (decide_eq_true hy)
  rcases Nat.lt_or_gt_of_ne hne with hlt | hlt
  · have := htwo hlt hi hi' hv hv'
    omega
  · have := htwo hlt hi' hi hv' hv
    omega

/-- A value counted once that no copy defines has that one definition. -/
lemma onlyDef_of_defCounts (hwf : f.WellFormed) {v : ValueId} (h : defCounts f v = 1) {b i : ℕ}
    {blk : Block} {inst : Inst} (hblk : f.BlockAt b blk) (hi : blk.insts[i]? = some inst)
    (hv : inst.result = some v) (hcopy : inst.kind.isCopy = false) : f.OnlyDef v b i := by
  constructor
  · intro hparam
    have := hwf.param_copy b inst ⟨blk, hblk, List.mem_of_getElem? hi⟩ v hparam hv
    rw [hcopy] at this
    cases this
  · intro b' i' blk' inst' hblk' hi' hv'
    exact eq_of_defCounts h hblk' hi' hv' hblk hi hv

/-! ### What the matcher finds -/

lemma InstKind.copyI64?_eq_some {kind : InstKind} {src : ValueId} :
    kind.copyI64? = some src ↔ kind = .copy .i64 (.value src) := by
  constructor
  · intro h
    unfold InstKind.copyI64? at h
    split at h
    · rw [Option.some.inj h]
    · cases h
  · rintro rfl
    rfl

lemma findCopy_spec {insts : List Inst} {n : ValueId} {r : ℕ × ValueId}
    (h : findCopy insts n = some r) : insts[r.1]? = some ⟨some n, .copy .i64 (.value r.2)⟩ := by
  obtain ⟨e, he, hr⟩ := List.exists_of_findSome?_eq_some h
  obtain ⟨⟨result, kind⟩, i⟩ := e
  split at hr
  · rename_i hres
    obtain ⟨src, hsrc, rfl⟩ := Option.map_eq_some_iff.mp hr
    have hat := List.mem_zipIdx_iff_getElem?.mp he
    rw [hat]
    obtain rfl : result = some n := hres
    rw [show kind = _ from InstKind.copyI64?_eq_some.mp hsrc]
  · cases hr

lemma findDef_spec {insts : List Inst} {v : ValueId} {r : ℕ × Inst}
    (h : findDef insts v = some r) : insts[r.1]? = some ⟨some v, r.2.kind⟩ := by
  obtain ⟨e, he, hr⟩ := List.exists_of_findSome?_eq_some h
  obtain ⟨⟨result, kind⟩, i⟩ := e
  split at hr
  · rename_i hres
    obtain rfl := Option.some.inj hr
    have hat := List.mem_zipIdx_iff_getElem?.mp he
    rw [hat]
    obtain rfl : result = some v := hres
    rfl
  · cases hr

/-- The `and` of two values in either order. -/
def IsAnd (n t : ValueId) (kind : InstKind) : Prop :=
  kind = .binOp .and (.value n) (.value t) ∨ kind = .binOp .and (.value t) (.value n)

lemma andOther_spec {n t : ValueId} {kind : InstKind} (h : andOther n kind = some t) :
    IsAnd n t kind ∧ t ≠ n := by
  unfold andOther at h
  split at h
  · split at h
    · rename_i hx
      obtain rfl := Option.some.inj h
      exact ⟨Or.inl (by rw [hx.1]), hx.2⟩
    · split at h
      · rename_i hy
        obtain rfl := Option.some.inj h
        exact ⟨Or.inr (by rw [hy.1]), hy.2⟩
      · cases h
  · cases h

/-- Where the body's instructions stand. -/
structure Places where
  sub : ℕ
  and : ℕ
  copyN : ℕ
  add : ℕ
  copyC : ℕ

def Places.toList (p : Places) : List ℕ := [p.sub, p.and, p.copyN, p.add, p.copyC]

/-- The body of a matched loop. -/
structure IsKernighan (bb : Block) (header : BlockId) (n t m c2 c : ValueId) (p : Places) :
    Prop where
  term : bb.term = .br header
  length : bb.insts.length = 5
  sub : bb.insts[p.sub]? = some ⟨some t, .binOp .sub (.value n) (.constI64 1)⟩
  and : ∃ kind, bb.insts[p.and]? = some ⟨some m, kind⟩ ∧ IsAnd n t kind
  copyN : bb.insts[p.copyN]? = some ⟨some n, .copy .i64 (.value m)⟩
  add : ∃ kind, bb.insts[p.add]? = some ⟨some c2, kind⟩ ∧ countUp c kind = true
  copyC : bb.insts[p.copyC]? = some ⟨some c, .copy .i64 (.value c2)⟩
  nodup : p.toList.Nodup
  t_ne : t ≠ n
  c_ne : c ≠ n

/-- Different instructions stand at different places. -/
lemma place_ne {insts : List Inst} {i j : ℕ} {x y : Inst} (hi : insts[i]? = some x)
    (hj : insts[j]? = some y) (hne : x.kind ≠ y.kind) : i ≠ j := by
  rintro rfl
  exact hne (congrArg Inst.kind (Option.some.inj (hi.symm.trans hj)))

lemma IsAnd.ne {n t : ValueId} {kind : InstKind} (h : IsAnd n t kind) :
    (∀ op a b, kind = .binOp op a b → op = .and) ∧ kind.isCopy = false := by
  rcases h with rfl | rfl <;> exact ⟨fun _ _ _ h => (InstKind.binOp.inj h).1.symm, rfl⟩

lemma countUp_eq {c : ValueId} {kind : InstKind} (h : countUp c kind = true) :
    kind = .binOp .add (.value c) (.constI64 1) ∨ kind = .binOp .add (.constI64 1) (.value c) := by
  simpa [countUp] using h

/-- **What `match_loop` establishes of the body.** -/
lemma matchBody_spec {bb : Block} {header : BlockId} {n t m c2 c : ValueId}
    (h : matchBody bb header n = some (t, m, c2, c)) :
    ∃ p, IsKernighan bb header n t m c2 c p := by
  unfold matchBody at h
  obtain ⟨⟨hterm, hlen⟩, h⟩ := Option.ite_none_right_eq_some.mp h
  simp only [Option.bind_eq_bind, Option.bind_eq_some_iff] at h
  obtain ⟨copyN, hcopyN, andDef, hand, t', ht', subDef, hsub, r0, hr0, r1, hr1, inst0, hinst0,
    inst1, hinst1, c2', hc2, cCell, hc, h⟩ := h
  obtain ⟨⟨hsubKind, hcopyC, hup, hcn⟩, h⟩ := Option.ite_none_right_eq_some.mp h
  cases h
  obtain ⟨hisAnd, htn⟩ := andOther_spec ht'
  have hcopyNAt := findCopy_spec hcopyN
  have handAt := findDef_spec hand
  have hsubAt := findDef_spec hsub
  rw [hsubKind] at hsubAt
  -- the two places left
  have hmem : ∀ {r k : ℕ}, ((List.range 5).filter fun i => i ∉ [copyN.1, andDef.1, subDef.1])[k]? =
      some r → r ∉ [copyN.1, andDef.1, subDef.1] := fun hr => by
    simpa using (List.mem_filter.mp (List.mem_of_getElem? hr)).2
  have hne : r0 ≠ r1 := by
    have hnd : ((List.range 5).filter fun i => i ∉ [copyN.1, andDef.1, subDef.1]).Nodup :=
      List.nodup_range.filter _
    rintro rfl
    have hlt := (List.getElem?_eq_some_iff.mp hr0).1
    exact absurd ((List.getElem?_inj hlt hnd).mp (hr0.trans hr1.symm)) (by decide)
  have hbuild : ∀ {ra rc : ℕ} {addInst copyC : Inst}, bb.insts[ra]? = some addInst →
      bb.insts[rc]? = some copyC → ra ∉ [copyN.1, andDef.1, subDef.1] →
      rc ∉ [copyN.1, andDef.1, subDef.1] → ra ≠ rc → addInst.result = some c2 →
      copyC.result = some c → copyC.kind.copyI64? = some c2 → countUp c addInst.kind = true →
      ∃ p, IsKernighan bb header n t copyN.2 c2 c p := by
    rintro ra rc ⟨ares, akind⟩ ⟨cres, ckind⟩ ha hcAt hra hrc hne rfl rfl hck hup
    rw [show ckind = _ from InstKind.copyI64?_eq_some.mp hck] at hcAt
    refine ⟨⟨subDef.1, andDef.1, copyN.1, ra, rc⟩, hterm, hlen, hsubAt, ⟨_, handAt, hisAnd⟩,
      hcopyNAt, ⟨_, ha, hup⟩, hcAt, ?_, htn, hcn⟩
    have h₁ : subDef.1 ≠ andDef.1 := place_ne hsubAt handAt fun heq =>
      absurd (hisAnd.ne.1 _ _ _ heq.symm) (by decide)
    have h₂ : subDef.1 ≠ copyN.1 := place_ne hsubAt hcopyNAt (by simp)
    have h₃ : andDef.1 ≠ copyN.1 := place_ne handAt hcopyNAt fun heq => by
      have := hisAnd.ne.2
      rw [show andDef.2.kind = _ from heq] at this
      cases this
    simp only [List.mem_cons, List.not_mem_nil, or_false, not_or] at hra hrc
    simp only [Places.toList, List.nodup_cons, List.mem_cons, List.not_mem_nil, or_false, not_or,
      not_false_eq_true, List.nodup_nil, and_true]
    exact ⟨⟨h₁, h₂, Ne.symm hra.2.2, Ne.symm hrc.2.2⟩, ⟨h₃, Ne.symm hra.2.1, Ne.symm hrc.2.1⟩,
      ⟨Ne.symm hra.1, Ne.symm hrc.1⟩, hne⟩
  by_cases hcopy : inst0.kind.isCopy = true
  · rw [if_pos hcopy] at hc2 hc hcopyC hup
    exact hbuild hinst1 hinst0 (hmem hr1) (hmem hr0) (Ne.symm hne) hc2 hc hcopyC hup
  · rw [if_neg hcopy] at hc2 hc hcopyC hup
    exact hbuild hinst0 hinst1 (hmem hr0) (hmem hr1) hne hc2 hc hcopyC hup

/-- A matched loop with its blocks, its intermediate values and their places. -/
structure Kernighan (f : Func) (l : MatchedLoop) (cmp t m c2 : ValueId) (hb bb : Block)
    (p : Places) : Prop where
  headerAt : f.BlockAt l.header hb
  bodyAt : f.BlockAt l.body bb
  header_insts : hb.insts = [⟨some cmp, .iCmp .ne (.value l.nCell) (.constI64 0)⟩]
  header_term : hb.term = .condBr (.value cmp) l.body l.exit
  exit_ne : l.exit ≠ l.header ∧ l.exit ≠ l.body
  ne : l.body ≠ l.header
  body : IsKernighan bb l.header l.nCell t m c2 l.cCell p
  single : ∀ v ∈ [cmp, t, m, c2], defCounts f v = 1
  inside : ∀ v ∈ [cmp, t, m, c2], v ∉ readsOutside f l.header l.body
  used : l.nUsedAfter = true ↔ l.nCell ∈ readsOutside f l.header l.body

/-- Every way into the loop is through its header. -/
structure MatchedLoop.Entered (f : Func) (l : MatchedLoop) : Prop where
  reachable : ∃ defs, f.Walk l.header 0 defs
  entry_ne : l.body ≠ 0
  pred : ∀ b blk, f.BlockAt b blk → l.body ∈ successors blk.term → b = l.header ∨ b = l.body

lemma matchHeader_spec {hb : Block} {header body exit : BlockId} {cmp n : ValueId}
    (h : matchHeader hb header body = some (cmp, n, exit)) :
    hb.insts = [⟨some cmp, .iCmp .ne (.value n) (.constI64 0)⟩] ∧
      hb.term = .condBr (.value cmp) body exit ∧ exit ≠ header ∧ exit ≠ body := by
  unfold matchHeader at h
  split at h
  · rename_i hinsts hterm
    obtain ⟨⟨rfl, rfl, rfl, hne⟩, heq⟩ := Option.ite_none_right_eq_some.mp h
    cases heq
    exact ⟨hinsts, hterm, hne⟩
  · cases h

/-- **What `match_loop` establishes.** -/
lemma matchLoop_spec (hwf : f.WellFormed) {header body : BlockId} {l : MatchedLoop}
    (h : matchLoop f header body = some l) (hne : body ≠ header) :
    (l.header = header ∧ l.body = body) ∧
      ∃ cmp t m c2 hb bb p, Kernighan f l cmp t m c2 hb bb p := by
  unfold matchLoop at h
  simp only [Option.bind_eq_bind, Option.bind_eq_some_iff] at h
  obtain ⟨hb, hhb, bb, hbb, ⟨cmp, n, exit⟩, hheader, ⟨t, m, c2, c⟩, hbody, h⟩ := h
  obtain ⟨hall, h⟩ := Option.ite_none_right_eq_some.mp h
  cases h
  obtain ⟨hinsts, hterm, hexit⟩ := matchHeader_spec hheader
  obtain ⟨p, hp⟩ := matchBody_spec hbody
  have hat : ∀ {b : BlockId} {blk : Block}, f.blocks.find? (fun b' => b'.id = b) = some blk →
      f.BlockAt b blk := by
    intro b blk hfind
    have hid : blk.id = b := by simpa using List.find?_some hfind
    exact hid ▸ hwf.blockAt_id (List.mem_of_find?_eq_some hfind)
  simp only [List.all_eq_true, Bool.and_eq_true, decide_eq_true_eq] at hall
  exact ⟨⟨rfl, rfl⟩, cmp, t, m, c2, hb, bb, p, hat hhb, hat hbb, hinsts, hterm, hexit, hne, hp,
    fun v hv => (hall v hv).1, fun v hv => (hall v hv).2, decide_eq_true_iff⟩

/-- **What a matched loop is**: the idiom, entered at its header, and no other matched loop
has its header. -/
theorem matchedLoops_spec (hwf : f.WellFormed) (hfit : f.blocks.length ≤ Dominator.finalMark)
    {ls : List MatchedLoop} (h : matchedLoops f = some ls) :
    (∀ l ∈ ls, (∃ cmp t m c2 hb bb p, Kernighan f l cmp t m c2 hb bb p) ∧ l.Entered f) ∧
      (ls.map MatchedLoop.header).Nodup := by
  obtain ⟨doms, dom, hdom, hbuilt⟩ := Dominator.build_spec hwf.cfg (hwf.idsFit hfit)
  rw [matchedLoops, hdom, Option.bind_eq_bind, Option.bind_some] at h
  obtain ⟨loops, hloops, h⟩ := Option.bind_eq_some_iff.mp h
  cases h
  obtain ⟨hof, hnd⟩ := buildLoops_spec hwf.cfg hloops
  have hmatch : ∀ {lp : NaturalLoop} {l : MatchedLoop}, matchNaturalLoop f lp = some l →
      ∃ body, lp.backEdgeSources = [body] ∧ (lp.body.length = 2 ∧ body ≠ lp.header ∧
        lp.contains body) ∧ matchLoop f lp.header body = some l := by
    intro lp l hl
    unfold matchNaturalLoop at hl
    split at hl
    · rename_i body hbody
      obtain ⟨hcond, hl⟩ := Option.ite_none_right_eq_some.mp hl
      exact ⟨body, hbody, hcond, hl⟩
    · cases hl
  constructor
  · intro l hl
    obtain ⟨lp, hlp, hl⟩ := List.mem_filterMap.mp hl
    obtain ⟨body, hbody, ⟨hlen, hne, hcont⟩, hl⟩ := hmatch hl
    obtain ⟨⟨hlh, rfl⟩, hk⟩ := matchLoop_spec hwf hl hne
    refine ⟨hk, ?_⟩
    obtain ⟨cmp, t, m, c2, hb, bb, p, hk⟩ := hk
    have hlp' := hof lp hlp
    rw [← hlh] at hne
    have hmem : l.body ∈ lp.body := of_decide_eq_true hcont
    obtain ⟨_, hdominates⟩ := hlp'.source_edge l.body (by rw [hbody]; exact List.mem_singleton_self _)
    rw [← hlh] at hdominates
    obtain ⟨hreach, hreach'⟩ := hbuilt.reachable_of_dominates hdominates (Ne.symm hne)
    have hdom' := (hbuilt.dominates_iff hwf.cfg hreach hreach').mp hdominates
    refine ⟨hwf.exists_walk hreach, ?_, ?_⟩
    · intro hzero
      rw [hzero, ← hwf.entryId_cfg] at hdom'
      rw [hzero, hdom'.eq_root, hwf.entryId_cfg] at hne
      exact hne rfl
    · intro b blk hblk hmem'
      have hb := hlp'.closed l.body hmem (hlh ▸ hne) b (hwf.edge_cfg hblk hmem')
      -- the loop's two blocks are all its body
      have hpair : lp.body ⊆ [l.header, l.body] := by
        have hnodup : [l.header, l.body].Nodup := by simp [Ne.symm hne]
        have hsub : [l.header, l.body].Subperm lp.body := by
          refine hnodup.subperm fun x hx => ?_
          rcases List.mem_cons.mp hx with rfl | hx
          · exact hlh ▸ hlp'.header_mem
          · rw [List.mem_singleton] at hx
            exact hx ▸ hmem
        exact (hsub.perm_of_length_le (by rw [hlen]; rfl)).symm.subset
      rcases List.mem_cons.mp (hpair hb) with hb | hb
      · exact Or.inl hb
      · exact Or.inr (List.mem_singleton.mp hb)
  · have hkey : ∀ lp l, matchNaturalLoop f lp = some l → l.header = lp.header := by
      intro lp l hl
      obtain ⟨body, _, ⟨_, hne, _⟩, hl⟩ := hmatch hl
      exact (matchLoop_spec hwf hl hne).1.1
    clear h hof hloops
    induction loops with
    | nil => exact List.nodup_nil
    | cons lp loops ih =>
      rw [List.map_cons, List.nodup_cons] at hnd
      rw [List.filterMap_cons]
      cases hl : matchNaturalLoop f lp with
      | none => exact ih hnd.2
      | some l =>
        refine List.nodup_cons.mpr ⟨fun hmem => hnd.1 ?_, ih hnd.2⟩
        obtain ⟨l', hl', heq⟩ := List.mem_map.mp hmem
        obtain ⟨lp', hlp', hl'⟩ := List.mem_filterMap.mp hl'
        rw [← hkey lp l hl, ← heq, hkey lp' l' hl']
        exact List.mem_map_of_mem hlp'

/-- The analyses end. -/
lemma matchedLoops_isSome (hwf : f.WellFormed) (hfit : f.blocks.length ≤ Dominator.finalMark) :
    (matchedLoops f).isSome := by
  obtain ⟨_, dom, hdom, _⟩ := Dominator.build_spec hwf.cfg (hwf.idsFit hfit)
  have hsome : (buildLoops f.cfg dom).isSome := buildLoops_isSome hwf.cfg
  obtain ⟨loops, hloops⟩ := Option.isSome_iff_exists.mp hsome
  rw [matchedLoops, hdom, Option.bind_eq_bind, Option.bind_some, hloops]
  rfl

/-! ### The order of the body -/

namespace IsKernighan

variable {bb : Block} {header : BlockId} {n t m c2 c : ValueId} {p : Places}

/-- The five places are all the body has. -/
lemma mem_places (hk : IsKernighan bb header n t m c2 c p) {k : ℕ} (hlt : k < 5) :
    k ∈ p.toList := by
  have hbound : ∀ {i : ℕ} {inst : Inst}, bb.insts[i]? = some inst → i ∈ List.range 5 := fun h => by
    rw [List.mem_range, ← hk.length]
    exact (List.getElem?_eq_some_iff.mp h).1
  obtain ⟨_, hand, _⟩ := hk.and
  obtain ⟨_, hadd, _⟩ := hk.add
  have hsub : p.toList.Subperm (List.range 5) := by
    refine hk.nodup.subperm fun x hx => ?_
    simp only [Places.toList, List.mem_cons, List.not_mem_nil, or_false] at hx
    rcases hx with rfl | rfl | rfl | rfl | rfl
    · exact hbound hk.sub
    · exact hbound hand
    · exact hbound hk.copyN
    · exact hbound hadd
    · exact hbound hk.copyC
  exact (hsub.perm_of_length_le le_rfl).symm.subset (List.mem_range.mpr hlt)

/-- The body reads its own values. -/
lemma mem_of_readsAt (hk : IsKernighan bb header n t m c2 c p) {k : ℕ} {v : ValueId}
    (hv : v ∈ bb.readsAt k) : v ∈ [n, t, m, c2, c] := by
  rw [Block.readsAt] at hv
  split at hv
  · rename_i inst hinst
    have hlt : k < 5 := hk.length ▸ (List.getElem?_eq_some_iff.mp hinst).1
    have hplace := hk.mem_places hlt
    simp only [Places.toList, List.mem_cons, List.not_mem_nil, or_false] at hplace
    obtain ⟨andKind, hand, hisAnd⟩ := hk.and
    obtain ⟨addKind, hadd, hup⟩ := hk.add
    rcases hplace with rfl | rfl | rfl | rfl | rfl
    · rw [Option.some.inj (hinst.symm.trans hk.sub)] at hv
      change v ∈ [n] at hv
      exact List.mem_cons.mpr (Or.inl (List.mem_singleton.mp hv))
    · rw [Option.some.inj (hinst.symm.trans hand)] at hv
      have hpair : v = n ∨ v = t := by
        rcases hisAnd with rfl | rfl
        · change v ∈ [n, t] at hv
          simpa using hv
        · change v ∈ [t, n] at hv
          simpa [or_comm] using hv
      rcases hpair with rfl | rfl <;> simp
    · rw [Option.some.inj (hinst.symm.trans hk.copyN)] at hv
      change v ∈ [m] at hv
      rw [List.mem_singleton.mp hv]
      simp
    · rw [Option.some.inj (hinst.symm.trans hadd)] at hv
      have hc : v = c := by
        rcases countUp_eq hup with rfl | rfl <;>
        · change v ∈ [c] at hv
          exact List.mem_singleton.mp hv
      rw [hc]
      simp
    · rw [Option.some.inj (hinst.symm.trans hk.copyC)] at hv
      change v ∈ [c2] at hv
      rw [List.mem_singleton.mp hv]
      simp
  · rw [hk.term] at hv
    split at hv <;> cases hv

end IsKernighan

/-- The places in an order that computes, and the values apart. -/
structure Ordered (n t m c2 c : ValueId) (p : Places) : Prop where
  sub_and : p.sub < p.and
  and_copyN : p.and < p.copyN
  add_copyC : p.add < p.copyC
  values : [n, t, m, c2, c].Nodup

namespace Kernighan

variable {l : MatchedLoop} {cmp t m c2 : ValueId} {hb bb : Block} {p : Places}

/-- The test's value is defined by the test. -/
lemma onlyDef_cmp (hk : Kernighan f l cmp t m c2 hb bb p) (hwf : f.WellFormed) :
    f.OnlyDef cmp l.header 0 := by
  have hinst : hb.insts[0]? = some ⟨some cmp, .iCmp .ne (.value l.nCell) (.constI64 0)⟩ := by
    rw [hk.header_insts]
    rfl
  exact onlyDef_of_defCounts hwf (hk.single cmp (by simp)) hk.headerAt hinst rfl rfl

lemma onlyDef_t (hk : Kernighan f l cmp t m c2 hb bb p) (hwf : f.WellFormed) :
    f.OnlyDef t l.body p.sub :=
  onlyDef_of_defCounts hwf (hk.single t (by simp)) hk.bodyAt hk.body.sub rfl rfl

lemma onlyDef_m (hk : Kernighan f l cmp t m c2 hb bb p) (hwf : f.WellFormed) :
    f.OnlyDef m l.body p.and := by
  obtain ⟨kind, hand, hkind⟩ := hk.body.and
  exact onlyDef_of_defCounts hwf (hk.single m (by simp)) hk.bodyAt hand rfl hkind.ne.2

lemma onlyDef_c2 (hk : Kernighan f l cmp t m c2 hb bb p) (hwf : f.WellFormed) :
    f.OnlyDef c2 l.body p.add := by
  obtain ⟨kind, hadd, hup⟩ := hk.body.add
  refine onlyDef_of_defCounts hwf (hk.single c2 (by simp)) hk.bodyAt hadd rfl ?_
  rcases countUp_eq hup with rfl | rfl <;> rfl

/-- Walks reach every point of the body. -/
lemma walk_body (hk : Kernighan f l cmp t m c2 hb bb p) (hent : l.Entered f) (k : ℕ) (hle : k ≤ 5) :
    ∃ defs, f.Walk l.body k defs := by
  obtain ⟨_, hwalk⟩ := hent.reachable
  obtain ⟨_, hwalk⟩ := hwalk.within hk.headerAt hb.insts.length le_rfl
  have hbody : l.body ∈ successors hb.term := by
    rw [hk.header_term]
    exact List.mem_cons_self
  exact (hwalk.branch hk.headerAt hbody).within hk.bodyAt k (hk.body.length.symm ▸ hle)

/-- **Each value of the body is computed ahead of its use.** -/
lemma ordered (hk : Kernighan f l cmp t m c2 hb bb p) (hwf : f.WellFormed) (hent : l.Entered f) :
    Ordered l.nCell t m c2 l.cCell p := by
  have hlt : ∀ {i : ℕ} {inst : Inst}, bb.insts[i]? = some inst → i ≤ 5 := fun h =>
    hk.body.length ▸ (List.getElem?_eq_some_iff.mp h).1.le
  have hbefore : ∀ {v : ValueId} {i j : ℕ} {inst : Inst}, f.OnlyDef v l.body i →
      bb.insts[j]? = some inst → v ∈ visitValueOperands inst.kind → i < j := by
    intro v i j inst hdef hinst hv
    obtain ⟨_, hwalk⟩ := hk.walk_body hent j (hlt hinst)
    exact hwf.lt_of_read hdef hwalk hk.bodyAt (by rwa [Block.readsAt_inst hinst])
  have hplace : ∀ {v w : ValueId} {i j : ℕ} {inst : Inst}, f.OnlyDef v l.body i →
      bb.insts[j]? = some inst → inst.result = some w → i ≠ j → w ≠ v := by
    rintro v w i j inst hdef hinst hw hij rfl
    exact hij (hdef.2 l.body j bb inst hk.bodyAt hinst hw).2.symm
  obtain ⟨andKind, hand, hisAnd⟩ := hk.body.and
  obtain ⟨addKind, hadd, hup⟩ := hk.body.add
  have hnd := hk.body.nodup
  simp only [Places.toList, List.nodup_cons, List.mem_cons, List.not_mem_nil, or_false, not_or,
    not_false_eq_true, List.nodup_nil, and_true] at hnd
  obtain ⟨⟨h₁, h₂, h₃, h₄⟩, ⟨h₅, h₆, h₇⟩, ⟨h₈, h₉⟩, h₁₀⟩ := hnd
  refine ⟨hbefore (hk.onlyDef_t hwf) hand ?_, hbefore (hk.onlyDef_m hwf) hk.body.copyN ?_,
    hbefore (hk.onlyDef_c2 hwf) hk.body.copyC ?_, ?_⟩
  · rcases hisAnd with rfl | rfl <;> simp [visitValueOperands, InstKind.operands, Operand.value?]
  · simp [visitValueOperands, InstKind.operands, Operand.value?]
  · simp [visitValueOperands, InstKind.operands, Operand.value?]
  · have ht := hk.onlyDef_t hwf
    have hm := hk.onlyDef_m hwf
    have hc2 := hk.onlyDef_c2 hwf
    simp only [List.nodup_cons, List.mem_cons, List.not_mem_nil, or_false, not_or,
      not_false_eq_true, List.nodup_nil, and_true]
    exact ⟨⟨Ne.symm hk.body.t_ne, hplace hm hk.body.copyN rfl h₅, hplace hc2 hk.body.copyN rfl (Ne.symm h₈),
        Ne.symm hk.body.c_ne⟩,
      ⟨(hplace ht hand rfl h₁).symm, (hplace ht hadd rfl h₃).symm,
        (hplace ht hk.body.copyC rfl h₄).symm⟩,
      ⟨(hplace hm hadd rfl h₆).symm, (hplace hm hk.body.copyC rfl h₇).symm⟩,
      (hplace hc2 hk.body.copyC rfl h₁₀).symm⟩

/-- The body does not define the test's value. -/
lemma result_ne_cmp (hk : Kernighan f l cmp t m c2 hb bb p) (hwf : f.WellFormed) {i : ℕ}
    {inst : Inst} (hinst : bb.insts[i]? = some inst) : inst.result ≠ some cmp :=
  fun hres => hk.ne ((hk.onlyDef_cmp hwf).2 l.body _ bb _ hk.bodyAt hinst hres).1

lemma cmp_notMem (hk : Kernighan f l cmp t m c2 hb bb p) (hwf : f.WellFormed) :
    cmp ∉ [l.nCell, t, m, c2, l.cCell] := by
  obtain ⟨_, hand, _⟩ := hk.body.and
  obtain ⟨_, hadd, _⟩ := hk.body.add
  intro hmem
  simp only [List.mem_cons, List.not_mem_nil, or_false] at hmem
  rcases hmem with rfl | rfl | rfl | rfl | rfl
  · exact hk.result_ne_cmp hwf hk.body.copyN rfl
  · exact hk.result_ne_cmp hwf hk.body.sub rfl
  · exact hk.result_ne_cmp hwf hand rfl
  · exact hk.result_ne_cmp hwf hadd rfl
  · exact hk.result_ne_cmp hwf hk.body.copyC rfl

/-- A value read at a point is read by the block. -/
lemma mem_reads {blk : Block} {k : ℕ} {v : ValueId} (hv : v ∈ blk.readsAt k) :
    v ∈ blk.reads := by
  rw [Block.readsAt] at hv
  rw [Block.reads, List.mem_append]
  split at hv
  · rename_i inst hinst
    exact Or.inl (List.mem_flatMap.mpr ⟨inst, List.mem_of_getElem? hinst, hv⟩)
  · split at hv
    · exact Or.inr hv
    · cases hv

/-- **The intermediate values are dead outside the places behind their definition.** -/
lemma not_liveAt_exit (hk : Kernighan f l cmp t m c2 hb bb p) (hwf : f.WellFormed)
    (hent : l.Entered f) : ∀ v ∈ [cmp, t, m, c2], ¬ f.LiveAt v l.exit 0 := by
  have hvalues := (hk.ordered hwf hent).values
  simp only [List.nodup_cons, List.mem_cons, List.not_mem_nil, or_false, not_or] at hvalues
  -- the values the header and the body read
  have hheader : ∀ {k : ℕ} {v : ValueId}, v ∈ hb.readsAt k → v = l.nCell ∨ v = cmp := by
    intro k v hv
    have hv' := mem_reads hv
    rw [Block.reads, hk.header_insts, hk.header_term] at hv'
    change v ∈ [l.nCell, cmp] at hv'
    simpa using hv'
  obtain ⟨_, hwalk⟩ := hent.reachable
  obtain ⟨_, hwalk'⟩ := hk.walk_body hent 0 (Nat.zero_le _)
  -- a block that reads one of them is the header or the body
  have hread : ∀ {v : ValueId}, v ∈ [cmp, t, m, c2] → ∀ b blk k, f.BlockAt b blk →
      v ∈ blk.readsAt k → b = l.header ∨ b = l.body := by
    intro v hv b blk k hblk hmem
    by_contra hne
    rw [not_or] at hne
    refine hk.inside v hv (List.mem_flatMap.mpr ⟨blk, List.mem_filter.mpr ⟨hblk.mem, ?_⟩,
      mem_reads hmem⟩)
    simp [hwf.id_eq b blk hblk, hne]
  have hbody : ∀ {v : ValueId} {j : ℕ} {inst : Inst}, v ∈ [cmp, t, m, c2] → f.OnlyDef v l.body j →
      bb.insts[j]? = some inst → inst.result = some v → v ≠ l.nCell → ¬ f.LiveAt v l.exit 0 := by
    intro v j inst hv hdef hj hres hne hlive
    refine hk.exit_ne.2 (hlive.behind hwf hdef hk.bodyAt hj hres hwalk' ?_).1
    intro b blk k hblk hmem
    rcases hread hv b blk k hblk hmem with rfl | rfl
    · obtain rfl := hblk.unique hk.headerAt
      rcases hheader hmem with rfl | rfl
      · exact absurd rfl hne
      · exact absurd hres (hk.result_ne_cmp hwf hj)
    · rfl
  obtain ⟨_, hand, _⟩ := hk.body.and
  obtain ⟨_, hadd, _⟩ := hk.body.add
  intro v hv
  have hv' := hv
  simp only [List.mem_cons, List.not_mem_nil, or_false] at hv'
  rcases hv' with rfl | rfl | rfl | rfl
  · have hinst : hb.insts[0]? = some ⟨some v, .iCmp .ne (.value l.nCell) (.constI64 0)⟩ := by
      rw [hk.header_insts]
      rfl
    intro hlive
    refine hk.exit_ne.1
      (hlive.behind hwf (hk.onlyDef_cmp hwf) hk.headerAt hinst rfl hwalk ?_).1
    intro b blk k hblk hmem
    rcases hread hv b blk k hblk hmem with rfl | rfl
    · rfl
    · obtain rfl := hblk.unique hk.bodyAt
      exact absurd (hk.body.mem_of_readsAt hmem) (hk.cmp_notMem hwf)
  · exact hbody hv (hk.onlyDef_t hwf) hk.body.sub rfl hk.body.t_ne
  · exact hbody hv (hk.onlyDef_m hwf) hand rfl (Ne.symm hvalues.1.2.1)
  · exact hbody hv (hk.onlyDef_c2 hwf) hadd rfl (Ne.symm hvalues.1.2.2.1)

/-- `n` and `c` are live at the header. -/
lemma liveAt_header (hk : Kernighan f l cmp t m c2 hb bb p) (hwf : f.WellFormed)
    (hent : l.Entered f) : f.LiveAt l.nCell l.header 0 ∧ f.LiveAt l.cCell l.header 0 := by
  have hord := hk.ordered hwf hent
  have hvalues := hord.values
  simp only [List.nodup_cons, List.mem_cons, List.not_mem_nil, or_false, not_or] at hvalues
  have hinst : hb.insts[0]? = some ⟨some cmp, .iCmp .ne (.value l.nCell) (.constI64 0)⟩ := by
    rw [hk.header_insts]
    rfl
  refine ⟨.use hk.headerAt ?_, ?_⟩
  · rw [Block.readsAt_inst hinst]
    exact List.mem_singleton_self _
  obtain ⟨andKind, hand, _⟩ := hk.body.and
  obtain ⟨addKind, hadd, hup⟩ := hk.body.add
  -- nothing ahead of the `add` defines `c`
  have hbody : ∀ d k, k + d = p.add → f.LiveAt l.cCell l.body k := by
    intro d
    induction d with
    | zero =>
      intro k hkd
      rw [show k = p.add from hkd]
      refine .use hk.bodyAt ?_
      rw [Block.readsAt_inst hadd]
      rcases countUp_eq hup with rfl | rfl <;> exact List.mem_singleton_self _
    | succ d ih =>
      intro k hkd
      have hlt : k < p.add := by omega
      have hadd5 := (List.getElem?_eq_some_iff.mp hadd).1
      have hget : bb.insts[k]? = some bb.insts[k] := List.getElem?_eq_getElem (by omega)
      refine .next hk.bodyAt hget (fun hres => ?_) (ih (k + 1) (by omega))
      have hplace := hk.body.mem_places (k := k) (by rw [← hk.body.length]; omega)
      simp only [Places.toList, List.mem_cons, List.not_mem_nil, or_false] at hplace
      have hresult : ∀ {i : ℕ} {inst : Inst}, bb.insts[i]? = some inst → k = i →
          inst.result = some l.cCell := by
        rintro i inst hi rfl
        rw [← Option.some.inj (hget.symm.trans hi)]
        exact hres
      have hcc := hord.add_copyC
      rcases hplace with hp | hp | hp | hp | hp
      · exact hvalues.2.1.2.2 (Option.some.inj (hresult hk.body.sub hp))
      · exact hvalues.2.2.1.2 (Option.some.inj (hresult hand hp))
      · exact hvalues.1.2.2.2 (Option.some.inj (hresult hk.body.copyN hp))
      · omega
      · omega
  have hne : l.cCell ≠ cmp := fun h => hk.cmp_notMem hwf (by simp [← h])
  refine .next hk.headerAt hinst (fun h => hne (Option.some.inj h).symm) ?_
  have hlen : 0 + 1 = hb.insts.length := by rw [hk.header_insts]; rfl
  rw [hlen]
  refine .branch hk.headerAt ?_ (hbody p.add 0 (Nat.zero_add _))
  rw [hk.header_term]
  exact List.mem_cons_self

/-- What is live at the exit is live at the header, but for the test's value. -/
lemma liveAt_header_of_exit (hk : Kernighan f l cmp t m c2 hb bb p) {v : ValueId} (hne : v ≠ cmp)
    (h : f.LiveAt v l.exit 0) : f.LiveAt v l.header 0 := by
  have hinst : hb.insts[0]? = some ⟨some cmp, .iCmp .ne (.value l.nCell) (.constI64 0)⟩ := by
    rw [hk.header_insts]
    rfl
  refine .next hk.headerAt hinst (fun h => hne (Option.some.inj h).symm) ?_
  have hlen : 0 + 1 = hb.insts.length := by rw [hk.header_insts]; rfl
  rw [hlen]
  refine .branch hk.headerAt ?_ h
  rw [hk.header_term]
  exact List.mem_cons_of_mem _ List.mem_cons_self

end Kernighan

end Torajs.Egraph
