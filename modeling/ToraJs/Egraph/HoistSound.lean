import ToraJs.Egraph.OptimizeSound

/-!
# Where invariant values may move

A loop's header dominates the blocks of its body, and a block outside the body that
dominates one inside dominates the header's immediate dominator too.  So when the operands
of a value all come from outside, they are there at the end of that block, and the value
may be computed there.

The second pass notes nothing else: every value that is to move has its operands ahead of
the block it moves to, whatever other values have moved before.
-/

namespace Torajs.Egraph

open Dominance (Path Reachable Dominates IsImmediateDominator)

/-! ### The body of a loop -/

section Body

variable {n : ℕ} {preds : BlockId → List BlockId} {header : BlockId} {Q : BlockId → Prop}

/-- Marking blocks keeps what holds of every marked block, and the header off the stack. -/
lemma foldl_mark_forall (ps : List BlockId) (hps : ∀ p ∈ ps, Q p) :
    ∀ s : List BlockId × List BlockId, header ∈ s.1 → (∀ b ∈ s.1, Q b) →
      (∀ b ∈ s.2, b ≠ header ∧ Q b) → header ∈ (ps.foldl (mark n) s).1 ∧
        (∀ b ∈ (ps.foldl (mark n) s).1, Q b) ∧
        ∀ b ∈ (ps.foldl (mark n) s).2, b ≠ header ∧ Q b := by
  induction ps with
  | nil => exact fun s hheader hmarked hstack => ⟨hheader, hmarked, hstack⟩
  | cons p ps ih =>
    intro s hheader hmarked hstack
    rw [List.foldl_cons]
    have hp := hps p List.mem_cons_self
    refine ih (fun q hq => hps q (List.mem_cons_of_mem _ hq)) (mark n s p) ?_ ?_ ?_
    all_goals
      rw [mark]
      split
    · exact List.mem_append_left _ hheader
    · exact hheader
    · intro b hb
      rcases List.mem_append.mp hb with hb | hb
      · exact hmarked b hb
      · rwa [List.mem_singleton.mp hb]
    · exact hmarked
    · next hnew =>
      intro b hb
      rcases List.mem_cons.mp hb with rfl | hb
      · exact ⟨fun heq => hnew.2 (heq ▸ hheader), hp⟩
      · exact hstack b hb
    · exact hstack

/-- What holds of the marked blocks and along predecessors, but for the header's, holds of the
body. -/
lemma bodyLoop_forall (hstep : ∀ b, b ≠ header → Q b → ∀ p ∈ preds b, Q p) (fuel : ℕ) :
    ∀ {s : List BlockId × List BlockId} {body : List BlockId}, header ∈ s.1 → (∀ b ∈ s.1, Q b) →
      (∀ b ∈ s.2, b ≠ header ∧ Q b) → bodyLoop preds n fuel s = some body → ∀ b ∈ body, Q b := by
  induction fuel with
  | zero =>
    rintro ⟨marked, stack⟩ body _ hmarked _ hrun
    cases stack with
    | nil =>
      obtain rfl := Option.some.inj hrun
      exact hmarked
    | cons b stack => cases hrun
  | succ fuel ih =>
    rintro ⟨marked, stack⟩ body hheader hmarked hstack hrun
    cases stack with
    | nil =>
      obtain rfl := Option.some.inj hrun
      exact hmarked
    | cons b stack =>
      obtain ⟨hne, hb⟩ := hstack b List.mem_cons_self
      obtain ⟨h₁, h₂, h₃⟩ := foldl_mark_forall (n := n) (preds b) (hstep b hne hb) (marked, stack)
        hheader hmarked fun c hc => hstack c (List.mem_cons_of_mem _ hc)
      exact ih h₁ h₂ h₃ hrun

end Body

section Loops

variable {f : Dominator.Function} {doms : Dominator.Doms} {dom : Dominator.Tree}

/-- **The header of a loop dominates its body.** -/
lemma header_dominates (hwf : Dominator.WellFormed f) (hbuilt : Dominator.Built f doms dom)
    {loops : List NaturalLoop} (h : buildLoops f dom = some loops) {l : NaturalLoop}
    (hl : l ∈ loops) :
    ∀ b ∈ l.body, Dominates (Dominator.Edge f) (Dominator.entryId f) l.header b := by
  obtain ⟨unsorted, hunsorted, rfl⟩ := Option.map_eq_some_iff.mp h
  have hl' : l ∈ unsorted := (List.perm_insertionSort _ unsorted).mem_iff.mp hl
  obtain ⟨g, hg, hgl⟩ := exists_of_mem_mapM hunsorted l hl'
  obtain ⟨body, hbody, rfl⟩ := Option.map_eq_some_iff.mp hgl
  rw [collectLoopBody, if_pos (header_lt hwf hg)] at hbody
  obtain ⟨marked, hrun, rfl⟩ := Option.map_eq_some_iff.mp hbody
  -- the source of a back edge is dominated by the header
  have hsource : ∀ src ∈ g.2, Dominates (Dominator.Edge f) (Dominator.entryId f) g.1 src := by
    intro src hsrc
    have hdom := (mem_backEdges hwf hg hsrc).2.1
    by_cases heq : g.1 = src
    · exact heq ▸ Dominates.refl g.1
    · obtain ⟨hreach, hreach'⟩ := hbuilt.reachable_of_dominates hdom heq
      exact (hbuilt.dominates_iff hwf hreach hreach').mp hdom
  have hself : ∀ b ∈ [g.1], Dominates (Dominator.Edge f) (Dominator.entryId f) g.1 b :=
    fun b hb => by
      rw [List.mem_singleton.mp hb]
      exact Dominates.refl g.1
  obtain ⟨h₁, h₂, h₃⟩ := foldl_mark_forall (n := Dominator.idSpan f) g.2 hsource ([g.1], [])
    (List.mem_singleton_self g.1) hself fun b hb => absurd hb List.not_mem_nil
  intro b hb
  refine bodyLoop_forall (fun c hne hc p hp => ?_) _ h₁ h₂ h₃ hrun b
    ((List.perm_insertionSort _ marked).mem_iff.mp hb)
  exact hc.pred (Ne.symm hne) ((Dominator.mem_predecessors_iff hwf).mp hp)

/-- What the second pass relies on of a loop. -/
structure NaturalLoop.Headed (f : Dominator.Function) (l : NaturalLoop) : Prop where
  closed : ∀ b ∈ l.body, b ≠ l.header → ∀ p, Dominator.Edge f p b → p ∈ l.body
  dominates : ∀ b ∈ l.body, Dominates (Dominator.Edge f) (Dominator.entryId f) l.header b
  header_mem : l.header ∈ l.body

/-- A walk to the header goes on inside the body to each of its blocks. -/
lemma NaturalLoop.Headed.exists_path {l : NaturalLoop} (hl : l.Headed f) {q : List BlockId}
    (hq : Path (Dominator.Edge f) (Dominator.entryId f) l.header q) {a : BlockId}
    {p : List BlockId} (hp : Path (Dominator.Edge f) (Dominator.entryId f) a p)
    (ha : a ∈ l.body) : ∃ p', Path (Dominator.Edge f) (Dominator.entryId f) a p' ∧
      ∀ x ∈ p', x ∈ q ∨ x ∈ l.body := by
  induction hp with
  | root =>
    have hheader := (hl.dominates _ ha).eq_root
    exact ⟨q, hheader ▸ hq, fun x hx => Or.inl hx⟩
  | @step b c p hp hedge ih =>
    by_cases hc : c = l.header
    · exact ⟨q, hc ▸ hq, fun x hx => Or.inl hx⟩
    · obtain ⟨p', hp', hsub⟩ := ih (hl.closed c ha hc b hedge)
      refine ⟨c :: p', hp'.step hedge, fun x hx => ?_⟩
      rcases List.mem_cons.mp hx with rfl | hx
      · exact Or.inr ha
      · exact hsub x hx

/-- **A block outside the body that dominates one inside dominates the block ahead of the
loop.** -/
lemma NaturalLoop.Headed.dominates_target {l : NaturalLoop} (hl : l.Headed f) {a x target : BlockId}
    (ha : a ∈ l.body) (hreach : Reachable (Dominator.Edge f) (Dominator.entryId f) a)
    (hx : x ∉ l.body) (hxa : Dominates (Dominator.Edge f) (Dominator.entryId f) x a)
    (htarget : IsImmediateDominator (Dominator.Edge f) (Dominator.entryId f) target l.header) :
    Dominates (Dominator.Edge f) (Dominator.entryId f) x target := by
  refine htarget.2 x ⟨fun q hq => ?_, fun heq => hx (heq ▸ hl.header_mem)⟩
  obtain ⟨p, hp⟩ := hreach
  obtain ⟨p', hp', hsub⟩ := hl.exists_path hq hp ha
  exact (hsub x (hxa p' hp')).resolve_right hx

end Loops

/-! ### Moves -/

variable {V World : Type} {f : Func} {I : Interp V World} {enc : OtherKind → List V → V}
  {e₀ e : Graph} {canon : ValueId → ValueId} {key : ValueId → InstKind}

/-- The block a canonical value is written to, by the one it is defined in. -/
def Graph.placeOf (e : Graph) (v : ValueId) (d : BlockId) : BlockId := (e.availableBlock v).getD d

/-- **Values may move to the blocks noted for them**: each of these dominates the value's own
block, and the operands are parameters or are written to a block that dominates it. -/
structure Hoisted (f : Func) (e₀ : Graph) (canon : ValueId → ValueId) (e : Graph) : Prop where
  same : e = { e₀ with availableBlock := e.availableBlock }
  none_iff : ∀ v, e.availableBlock v = none ↔ e₀.availableBlock v = none
  placed : ∀ d j inst c t, f.Reached d → f.InstAt d j inst → inst.result = some c →
    e.availableBlock c = some t → f.Dom t d ∧ ∀ v ∈ visitValueOperands (e₀.baseKind inst),
      canon v ∈ f.params ∨ ∃ i m, f.DefAt (canon v) i m ∧ f.Dom (e.placeOf (canon v) i) t

lemma Graph.placeOf_some {v : ValueId} {d t : BlockId} (h : e.availableBlock v = some t) :
    e.placeOf v d = t := by
  rw [Graph.placeOf, h]
  rfl

lemma Graph.placeOf_none {v : ValueId} {d : BlockId} (h : e.availableBlock v = none) :
    e.placeOf v d = d := by
  rw [Graph.placeOf, h]
  rfl

/-- Before the second pass every value stays where it is. -/
lemma Walked.hoisted (hf : f.Lowered) (h : Walked f I enc (fun d _ => f.Reached d) e canon key) :
    Hoisted f e canon e where
  same := rfl
  none_iff _ := Iff.rfl
  placed d j inst c t hd hinst hres hc := by
    have hs := h.settled d j inst c hinst hres hd
    obtain ⟨rfl, _⟩ := hs.available t hc
    refine ⟨Func.Dom.refl t, fun v hv => ?_⟩
    have hv : f.Avail v t j := by
      rw [Graph.baseKind, hres, Option.bind_some] at hv
      cases hkind : e.rewrittenKind c with
      | none =>
        rw [hkind] at hv
        exact hf.avail hd hinst hv
      | some kind =>
        rw [hkind] at hv
        exact (hs.rewritten kind hkind).2.2.2.1 v hv
    have hahead : Ahead f (fun d _ => f.Reached d) t j := fun _ _ _ _ hp => hp.dom.reached hd
    refine (h.resolved hf hd hahead hv).avail.imp_right ?_
    rintro ⟨i, m, ⟨inst', hinst', hres'⟩, hp⟩
    refine ⟨i, m, ⟨inst', hinst', hres'⟩, ?_⟩
    cases hav : e.availableBlock (canon v) with
    | none =>
      rw [Graph.placeOf_none hav]
      exact hp.dom
    | some x =>
      rw [Graph.placeOf_some hav]
      have hs' := h.settled i m inst' (canon v) hinst' hres' (hp.dom.reached hd)
      rw [(hs'.available x hav).1]
      exact hp.dom

/-! ### What the test of the operands says -/

/-- What `operands_loop_invariant` asks of an operand's canonical value. -/
def Graph.isInvariant (e : Graph) (lp : NaturalLoop) (params : List ValueId) (v : ValueId) : Bool :=
  match e.availableBlock v with
  | none => decide (v ∈ params)
  | some b => !lp.contains b

lemma Graph.not_mem_of_isInvariant {lp : NaturalLoop} {params : List ValueId} {v : ValueId}
    {x : BlockId} (h : e.isInvariant lp params v = true) (hx : e.availableBlock v = some x) :
    x ∉ lp.body := by
  rw [Graph.isInvariant, hx] at h
  simpa [NaturalLoop.contains] using h

lemma operandInvariant_eq (lp : NaturalLoop) (params : List ValueId) (h : e.Flat canon)
    {a : Operand} (ha : ∀ v, a.value? = some v → v < e.len) :
    ∃ flag, operandInvariant lp params a e = some (flag, e) ∧ (flag = true →
      ∀ v, a.value? = some v → e.isInvariant lp params (canon v) = true) := by
  cases a with
  | value v =>
    refine ⟨e.isInvariant lp params (canon v), ?_, fun hflag w hw => ?_⟩
    · change (e.optValue v).map _ = _
      rw [h.optValue_eq (ha v rfl)]
      rfl
    · rwa [← Option.some.inj hw]
  | _ => exact ⟨true, rfl, fun _ v hv => absurd hv (by simp [Operand.value?])⟩

/-- **The test of the operands** leaves the e-graph; what passes is arithmetic on invariant
values. -/
lemma operandsLoopInvariant_eq (lp : NaturalLoop) (params : List ValueId) (h : e.Flat canon)
    {kind : InstKind} (hkind : kind.Inside e.len) :
    ∃ flag, operandsLoopInvariant lp params kind e = some (flag, e) ∧ (flag = true →
      kind.isArith = true ∧
        ∀ v ∈ visitValueOperands kind, e.isInvariant lp params (canon v) = true) := by
  -- two operands, the second looked at only where the first passes
  have htwo : ∀ a b : Operand, kind.operands = [a, b] → kind.isArith = true →
      ∃ flag, (do
          if ← operandInvariant lp params a then operandInvariant lp params b else pure false :
        GraphM Bool) e = some (flag, e) ∧ (flag = true → kind.isArith = true ∧
          ∀ v ∈ visitValueOperands kind, e.isInvariant lp params (canon v) = true) := by
    intro a b hoperands harith
    have ha : a ∈ kind.operands := by simp [hoperands]
    have hb : b ∈ kind.operands := by simp [hoperands]
    obtain ⟨x, hx, hxv⟩ := operandInvariant_eq lp params h (hkind.operand ha)
    obtain ⟨y, hy, hyv⟩ := operandInvariant_eq lp params h (hkind.operand hb)
    cases x with
    | false =>
      refine ⟨false, ?_, fun hflag => by cases hflag⟩
      change (operandInvariant lp params a e).bind _ = _
      rw [hx]
      rfl
    | true =>
      refine ⟨y, ?_, fun hflag => ⟨harith, fun v hv => ?_⟩⟩
      · change (operandInvariant lp params a e).bind _ = _
        rw [hx]
        exact hy
      · obtain ⟨o, ho, hov⟩ := List.mem_filterMap.mp hv
        rw [hoperands] at ho
        rcases List.mem_cons.mp ho with rfl | ho
        · exact hxv rfl v hov
        · exact hyv hflag v (List.mem_singleton.mp ho ▸ hov)
  cases kind with
  | binOp op a b | iCmp op a b | fCmp op a b => exact htwo a b rfl rfl
  | unary op a =>
    rw [operandsLoopInvariant]
    cases hop : op.isPure with
    | false => exact ⟨false, rfl, fun hflag => by cases hflag⟩
    | true =>
      obtain ⟨x, hx, hxv⟩ := operandInvariant_eq lp params h
        (hkind.operand List.mem_cons_self)
      refine ⟨x, hx, fun hflag => ⟨hop, fun v hv => ?_⟩⟩
      obtain ⟨o, ho, hov⟩ := List.mem_filterMap.mp hv
      exact hxv hflag v (List.mem_singleton.mp ho ▸ hov)
  | _ => exact ⟨false, rfl, fun hflag => by cases hflag⟩

/-! ### One instruction -/

lemma Graph.setAvailableBlock_eq {v : ValueId} (h : v < e.len) (t : BlockId) :
    e.setAvailableBlock v t =
      { e with availableBlock := Function.update e.availableBlock v (some t) } := if_pos h

lemma Graph.setAvailableBlock_self {v : ValueId} (h : v < e.len) (t : BlockId) :
    (e.setAvailableBlock v t).availableBlock v = some t := by
  rw [Graph.setAvailableBlock_eq h]
  exact Function.update_self _ _ _

lemma Graph.setAvailableBlock_ne {v w : ValueId} (h : v < e.len) (hne : w ≠ v) (t : BlockId) :
    (e.setAvailableBlock v t).availableBlock w = e.availableBlock w := by
  rw [Graph.setAvailableBlock_eq h]
  exact Function.update_of_ne hne _ _

lemma Hoisted.len (h : Hoisted f e₀ canon e) : e.len = e₀.len := by rw [h.same]

lemma Hoisted.flat (h : Hoisted f e₀ canon e) (hflat : e₀.Flat canon) : e.Flat canon := by
  rw [h.same]
  exact hflat.congr rfl rfl rfl

/-- **A move ahead of a loop.** -/
lemma Hoisted.setAvailableBlock (hw : Walked f I enc (fun d _ => f.Reached d) e₀ canon key)
    (h : Hoisted f e₀ canon e) {lp : NaturalLoop} (hl : lp.Headed f.cfg) {target : BlockId}
    (htarget :
      IsImmediateDominator (Dominator.Edge f.cfg) (Dominator.entryId f.cfg) target lp.header)
    {d j : ℕ} {inst : Inst} {r a : ValueId} (hd : f.Reached d) (hinst : f.InstAt d j inst)
    (hres : inst.result = some r) (hr : r < e.len) (hav : e.availableBlock (canon r) = some a)
    (ha : a ∈ lp.body)
    (harith : inst.kind.isArith = true)
    (hinv : ∀ v ∈ visitValueOperands inst.kind, e.isInvariant lp f.params (canon v) = true) :
    Hoisted f e₀ canon (e.setAvailableBlock (canon r) target) := by
  have hlt : canon r < e.len := (h.flat hw.flat).lt r hr
  have hnone₀ : e₀.availableBlock (canon r) ≠ none := fun hnone => by
    rw [(h.none_iff _).mpr hnone] at hav
    cases hav
  -- the header is between the target and the block the value was noted for
  have htarget' : ∀ {x}, f.Dom a x → f.Dom target x := fun hax =>
    (htarget.1.1.trans (hl.dominates a ha)).trans hax
  refine ⟨?_, fun v => ?_, fun d' j' inst' c t' hd' hinst' hres' hc => ?_⟩
  · rw [Graph.setAvailableBlock_eq hlt, h.same]
  · by_cases hv : v = canon r
    · rw [hv, Graph.setAvailableBlock_self hlt]
      exact ⟨fun heq => (by cases heq), fun heq => absurd heq hnone₀⟩
    · rw [Graph.setAvailableBlock_ne hlt hv]
      exact h.none_iff v
  · by_cases hcr : c = canon r
    · subst hcr
      rw [Graph.setAvailableBlock_self hlt] at hc
      obtain rfl := Option.some.inj hc
      obtain ⟨hdom, hoperands⟩ := h.placed d' j' inst' _ a hd' hinst' hres' hav
      refine ⟨htarget' hdom, fun v hv => ?_⟩
      -- the operand is a canonical operand of the instruction that was looked at
      obtain ⟨t₀, ht₀⟩ := Option.ne_none_iff_exists'.mp hnone₀
      have hs' := hw.settled d' j' inst' _ hinst' hres' hd'
      obtain ⟨_, hself, _, hpure⟩ := hs'.available t₀ ht₀
      have hnot : ¬ ∃ u ∈ visitValueOperands inst.kind, canon u = canon r := fun ⟨u, hu, hcu⟩ =>
        Graph.not_mem_of_isInvariant (hinv u hu) (hcu ▸ hav) ha
      obtain ⟨hkarith, hinputs⟩ :=
        ((hw.settled d j inst r hinst hres hd).inputs harith).resolve_left hnot
      obtain ⟨u, hu, hcu⟩ := hinputs _ (hs'.base hpure hself hkarith v hv)
      have hcv := hcu ▸ hinv u hu
      cases hx : e.availableBlock (canon v) with
      | none =>
        rw [Graph.isInvariant, hx] at hcv
        exact Or.inl (of_decide_eq_true hcv)
      | some x =>
        refine (hoperands v hv).imp_right fun ⟨i, m, hdef, hplace⟩ => ⟨i, m, hdef, ?_⟩
        have hne : canon v ≠ canon r := fun heq => hnot ⟨u, hu, hcu.trans heq⟩
        rw [Graph.placeOf_some hx] at hplace
        rw [Graph.placeOf_some ((Graph.setAvailableBlock_ne hlt hne target).trans hx)]
        exact hl.dominates_target ha (hdom.reached hd') (Graph.not_mem_of_isInvariant hcv hx) hplace
          htarget
    · rw [Graph.setAvailableBlock_ne hlt hcr] at hc
      obtain ⟨hdom, hoperands⟩ := h.placed d' j' inst' c t' hd' hinst' hres' hc
      refine ⟨hdom, fun v hv => (hoperands v hv).imp_right fun ⟨i, m, hdef, hplace⟩ =>
        ⟨i, m, hdef, ?_⟩⟩
      by_cases hvr : canon v = canon r
      · rw [hvr, Graph.placeOf_some hav] at hplace
        rw [hvr, Graph.placeOf_some (Graph.setAvailableBlock_self hlt target)]
        exact htarget' hplace
      · rwa [Graph.placeOf, Graph.setAvailableBlock_ne hlt hvr]

/-- **The look at one instruction of a loop** keeps the moves right. -/
lemma Hoisted.hoistInst (hf : f.Lowered)
    (hw : Walked f I enc (fun d _ => f.Reached d) e₀ canon key) (h : Hoisted f e₀ canon e)
    {lp : NaturalLoop} (hl : lp.Headed f.cfg) {target : BlockId}
    (htarget :
      IsImmediateDominator (Dominator.Edge f.cfg) (Dominator.entryId f.cfg) target lp.header)
    {d j : ℕ} {inst : Inst} (hinst : f.InstAt d j inst) :
    ∃ e', Torajs.Egraph.hoistInst f lp target e inst = some e' ∧ Hoisted f e₀ canon e' := by
  rw [Torajs.Egraph.hoistInst]
  cases hres : inst.result with
  | none => exact ⟨e, rfl, h⟩
  | some r =>
    dsimp only
    cases hpure : inst.kind.isPure with
    | false => exact ⟨e, rfl, h⟩
    | true =>
      have hlen : e.len = f.values.length := h.len.trans hw.len
      have hr : r < e.len := hlen ▸ hf.wellFormed.result_lt d inst hinst.hasInst r hres
      have hflat := h.flat hw.flat
      rw [if_pos rfl, hflat.optValue_eq hr, Option.bind_some]
      dsimp only
      cases hav : e.availableBlock (canon r) with
      | none => exact ⟨e, rfl, h⟩
      | some a =>
        rw [Option.any_some]
        cases ha : lp.contains a with
        | false => exact ⟨e, rfl, h⟩
        | true =>
          have hinside : inst.kind.Inside e.len := fun v hv => by
            obtain ⟨blk, hblk, hk⟩ := hinst
            rw [hlen]
            exact hf.wellFormed.read_lt d blk hblk j v (by rwa [Block.readsAt_inst hk])
          obtain ⟨flag, hflag, hinv⟩ := operandsLoopInvariant_eq lp f.params hflat hinside
          rw [if_pos rfl, hflag, Option.map_some]
          cases flag with
          | false => exact ⟨e, rfl, h⟩
          | true =>
            obtain ⟨harith, hinv⟩ := hinv rfl
            -- nothing is noted for the values of a block that the entry does not reach
            have hd : f.Reached d := by
              by_contra hd
              have huntouched := hw.untouched r (h.len ▸ hr) fun c i hdef hc => hd
                ((hf.ssa.unique hdef ⟨inst, hinst, hres⟩).1 ▸ hc)
              rw [huntouched.1, (h.none_iff r).mpr huntouched.2.2.2] at hav
              cases hav
            exact ⟨_, rfl, h.setAvailableBlock hw hl htarget hd hinst hres hr hav
              (of_decide_eq_true ha) harith hinv⟩

/-- A fold whose steps keep an invariant. -/
lemma foldlM_keeps {α σ : Type} {step : σ → α → Option σ} {P : σ → Prop} {xs : List α}
    (hstep : ∀ x ∈ xs, ∀ s, P s → ∃ s', step s x = some s' ∧ P s') :
    ∀ s, P s → ∃ s', xs.foldlM step s = some s' ∧ P s' := by
  induction xs with
  | nil => exact fun s hs => ⟨s, rfl, hs⟩
  | cons x xs ih =>
    intro s hs
    obtain ⟨s₁, hs₁, hP₁⟩ := hstep x List.mem_cons_self s hs
    obtain ⟨s', hs', hP'⟩ := ih (fun y hy => hstep y (List.mem_cons_of_mem _ hy)) s₁ hP₁
    exact ⟨s', by rw [List.foldlM_cons, hs₁]; exact hs', hP'⟩

/-- **The second pass keeps the moves right.** -/
theorem Hoisted.licmHoist (hf : f.Lowered) {doms : Dominator.Doms} {dom : Dominator.Tree}
    (ht : f.TreeOf doms dom) (hw : Walked f I enc (fun d _ => f.Reached d) e₀ canon key)
    (h : Hoisted f e₀ canon e) {loops : List NaturalLoop}
    (hloops : buildLoops f.cfg dom = some loops) :
    ∃ e', Torajs.Egraph.licmHoist f dom loops e = some e' ∧ Hoisted f e₀ canon e' := by
  refine foldlM_keeps (fun lp hlp e he => ?_) e h
  have hlp : lp ∈ loops := (List.perm_insertionSort _ loops).mem_iff.mp hlp
  have hof := (buildLoops_spec ht.cfg hloops).1 lp hlp
  rw [hoistLoop]
  cases hidom : dom.immediateDominator lp.header with
  | none => exact ⟨e, rfl, he⟩
  | some target =>
    dsimp only
    split
    · exact ⟨e, rfl, he⟩
    · -- the tree has a parent for reachable blocks only
      have hheader : f.Reached lp.header := by
        rw [dom.immediateDominator_eq] at hidom
        obtain ⟨k, _, hk, _⟩ :=
          (ht.built.idom _ _).mp (Dominator.treeParent_eq_some.mp hidom).1
        exact ht.built.isRpo.reachable hk
      have htarget := (ht.built.immediateDominator_iff ht.cfg hheader).mp hidom
      have hheaded : lp.Headed f.cfg :=
        ⟨hof.closed, header_dominates ht.cfg ht.built hloops hlp, hof.header_mem⟩
      refine foldlM_keeps (fun b _ e he => ?_) e he
      rw [hoistBlock]
      cases hblk : f.blocks[b]? with
      | none => exact ⟨e, rfl, he⟩
      | some blk =>
        refine foldlM_keeps (fun inst hinst e he => ?_) e he
        obtain ⟨k, hk⟩ := List.mem_iff_getElem?.mp hinst
        exact he.hoistInst hf hw hheaded htarget ⟨blk, hblk, hk⟩

/-- **The first phase ends**, and says of every value what is so. -/
theorem removePureAndOptimize_spec (hf : f.Lowered) (hI : I.Lawful enc) {doms : Dominator.Doms}
    {dom : Dominator.Tree} (ht : f.TreeOf doms dom) {loops : List NaturalLoop}
    (hloops : buildLoops f.cfg dom = some loops) :
    ∃ e₀ e canon key, removePureAndOptimize f dom loops (Graph.new f.values.length) = some e ∧
      Walked f I enc (fun d _ => f.Reached d) e₀ canon key ∧ Hoisted f e₀ canon e := by
  obtain ⟨e₀, canon, key, hvisit, hw⟩ := Walked.visitDomNested hf hI ht
  obtain ⟨e, hhoist, he⟩ := (hw.hoisted hf).licmHoist hf ht hw hloops
  refine ⟨e₀, e, canon, key, ?_, hw, he⟩
  have hentry : ∃ rest, dom.rpo = Dominator.entryId f.cfg :: rest := by
    have hzero := ht.built.isRpo.getElem?_zero
    cases hrpo : dom.rpo with
    | nil =>
      rw [hrpo] at hzero
      cases hzero
    | cons b rest =>
      rw [hrpo] at hzero
      exact ⟨rest, by rw [Option.some.inj hzero]⟩
  obtain ⟨rest, hrest⟩ := hentry
  rw [removePureAndOptimize, hrest]
  dsimp only
  rw [hvisit, Option.bind_some, hhoist]

end Torajs.Egraph
