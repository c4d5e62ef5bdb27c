import Mathlib.Algebra.BigOperators.Fin
import Mathlib.Combinatorics.Enumerative.DoubleCounting
import ToraJs.Egraph.PassSound

/-!
# The elaborated function is well formed

A path of the elaborated function is a path of the source, so it has passed the blocks above
its end.  A canonical value is read behind its definition in the source, and it is written in
the definition's block or at the end of a block above: on every path it is defined before it is
read.  It is written once, so single assignment is kept and no function grows.
-/

namespace Torajs.Egraph

variable {V World : Type} {f g : Func} {I : Interp V World} {enc : OtherKind → List V → V}
  {e : Graph} {canon : ValueId → ValueId} {live : BlockId → Prop}

/-! ### What a path has passed -/

/-- **What is defined where a path of `g` stands**: the results of the blocks above it in the
source, and those of its own block up to the point. -/
structure Behind (f g : Func) (live : BlockId → Prop) (b p : ℕ) (defs : List ValueId) : Prop where
  passed : ∀ t, f.Dom t b → live t
  above : ∀ t blk, f.Dom t b → t ≠ b → g.BlockAt t blk → ∀ x ∈ blk.insts, ∀ r,
    x.result = some r → r ∈ defs
  within : ∀ blk, g.BlockAt b blk → ∀ x ∈ blk.insts.take p, ∀ r, x.result = some r → r ∈ defs

section Behind

variable {b p t : ℕ} {defs : List ValueId} {blk : Block} {inst : Inst}

lemma Behind.entry (hwf : f.WellFormed) (hlive : live 0) (defs : List ValueId) :
    Behind f g live 0 0 defs where
  passed t ht := by rwa [hwf.eq_entry_of_dom ht]
  above t blk ht hne := absurd (hwf.eq_entry_of_dom ht) hne
  within blk _ x hx := absurd hx List.not_mem_nil

/-- Behind an instruction its result is defined. -/
lemma Behind.next (h : Behind f g live b p defs) (hblk : g.BlockAt b blk)
    (hinst : blk.insts[p]? = some inst) :
    Behind f g live b (p + 1) (inst.result.toList ++ defs) where
  passed := h.passed
  above t blk' ht hne hblk' x hx r hr :=
    List.mem_append_right _ (h.above t blk' ht hne hblk' x hx r hr)
  within blk' hblk' x hx r hr := by
    obtain rfl := hblk.unique hblk'
    rw [List.take_add_one, hinst] at hx
    rcases List.mem_append.mp hx with hx | hx
    · exact List.mem_append_right _ (h.within blk hblk x hx r hr)
    · obtain rfl := List.mem_singleton.mp hx
      exact List.mem_append_left _ (Option.mem_toList.mpr hr)

/-- Behind a branch the block that was left is above. -/
lemma Behind.branch (h : Behind f g live b blk.insts.length defs) (hblk : g.BlockAt b blk)
    (hedge : Dominator.Edge f.cfg b t) (hlive : live t) : Behind f g live t 0 defs where
  passed s hs := by
    by_cases hst : s = t
    · rwa [hst]
    · exact h.passed s (Dominance.Dominates.pred hs hst hedge)
  above s blk' hs hne hblk' x hx r hr := by
    by_cases heq : s = b
    · subst heq
      obtain rfl := hblk.unique hblk'
      exact h.within blk hblk x (by rwa [List.take_length]) r hr
    · exact h.above s blk' (Dominance.Dominates.pred hs hne hedge) heq hblk' x hx r hr
  within blk' _ x hx := absurd hx List.not_mem_nil

/-- **Every path of the elaborated function** has passed what is above its end. -/
lemma Emitted.behind (hf : f.Lowered) (hg : Emitted f e canon g live) (hwalk : g.Walk b p defs) :
    Behind f g live b p defs := by
  induction hwalk with
  | entry => exact Behind.entry hf.wellFormed hg.entry _
  | next _ hblk hinst ih => exact ih.next hblk hinst
  | @branch b t defs blk _ hblk ht ih =>
    obtain ⟨_, src, _, _, hsrc, hout, _, _, hsucc⟩ := hg.block b (ih.passed b (Func.Dom.refl b))
    obtain rfl := hblk.unique hout
    exact ih.branch hblk (hf.wellFormed.edge_cfg hsrc (mem_successors_resolveTerm ht))
      (hsucc t ht)

end Behind

/-! ### Where a canonical value is written -/

section Written

variable {b p d j k : ℕ} {defs : List ValueId} {blk : Block} {inst : Inst} {v : ValueId}
  {outs : List (List Inst)} {tail : List Inst} {x : Inst}

/-- A value is written in its own block, or moves. -/
lemma Graph.placeOf_cases (e : Graph) (hd : f.Reached d) (hinst : f.InstAt d j inst)
    (hres : inst.result = some v) :
    (e.placeOf v d = d ∧ ∀ t, e.availableBlock v = some t → t = d) ∨
      Moves f e (e.placeOf v d) d j inst v := by
  cases hav : e.availableBlock v with
  | none => exact Or.inl ⟨Graph.placeOf_none hav, fun t ht => by cases ht⟩
  | some t =>
    rw [Graph.placeOf_some hav]
    by_cases hne : t = d
    · exact Or.inl ⟨hne, fun s hs => (Option.some.inj hs).symm.trans hne⟩
    · exact Or.inr ⟨hd, hinst, hres, hav, hne⟩

/-- An instruction whose canonical value does not move is among what is written of its block. -/
lemma written_mem_flatten (hfates : List.Forall₂ (Fate e canon b) blk.insts outs)
    (hinst : blk.insts[j]? = some inst) (hres : inst.result = some v) (hself : canon v = v)
    (hconst : e.valueToConst v = none) (hown : ∀ t, e.availableBlock v = some t → t = b)
    (hjk : j < k) : e.written canon inst ∈ (outs.take k).flatten := by
  obtain ⟨o, ho, ⟨rfl, _⟩ | ⟨_, hneed⟩⟩ := exists_of_forall₂ hfates hinst
  · refine List.mem_flatten.mpr ⟨_, List.mem_of_getElem? (i := j) ?_, List.mem_singleton_self _⟩
    rw [List.getElem?_take_of_lt hjk, ho]
  · obtain ⟨t, ht, hne⟩ := hneed.2 v hres hself hconst
    exact absurd (hown t ht) hne

/-- What was written up to an instruction is ahead of every later point of the block. -/
lemma mem_take_of_flatten (hx : x ∈ (outs.take k).flatten)
    (hp : (outs.take k).flatten.length ≤ p) : x ∈ (outs.flatten ++ tail).take p := by
  have hprefix : (outs.take k).flatten <+: outs.flatten ++ tail := by
    refine ⟨(outs.drop k).flatten ++ tail, ?_⟩
    rw [← List.append_assoc, ← List.flatten_append, List.take_append_drop]
  rw [List.prefix_iff_eq_take.mp hprefix] at hx
  exact List.take_subset_take_left _ hp hx

/-- **A value that is written in a block above is defined.** -/
lemma Emitted.mem_above (hg : Emitted f e canon g live) (hbehind : Behind f g live b p defs)
    (hd : f.Reached d) (hinst : f.InstAt d j inst) (hres : inst.result = some v)
    (hself : canon v = v) (hconst : e.valueToConst v = none) (hdom : f.Dom (e.placeOf v d) b)
    (hne : e.placeOf v d ≠ b) : v ∈ defs := by
  obtain ⟨_, blk, outs, tail, hblk, hout, hfates, htail, _⟩ :=
    hg.block _ (hbehind.passed _ hdom)
  refine hbehind.above _ _ hdom hne hout (e.written canon inst) ?_ v hres
  rcases e.placeOf_cases hd hinst hres with ⟨hplace, hown⟩ | hm
  · rw [hplace] at hblk hfates
    obtain ⟨blk', hblk', hget⟩ := hinst
    obtain rfl := hblk'.unique hblk
    have hmem := written_mem_flatten hfates hget hres hself hconst hown (Nat.lt_succ_self j)
    exact List.mem_append_left _ ((List.take_sublist _ _).flatten.subset hmem)
  · exact List.mem_append_right _ (htail.complete d j inst v hd hm)

/-- **A canonical value that is there in the source is defined.** -/
lemma Emitted.mem_of_avail (h : Ready f I enc e canon) (hg : Emitted f e canon g live)
    (hbehind : Behind f g live b p defs) (hparams : ∀ v ∈ f.params, v ∈ defs) (hb : f.Reached b)
    (hblk : f.BlockAt b blk)
    (hout : g.BlockAt b ⟨blk.id, outs.flatten ++ tail, e.resolveTerm canon blk.term⟩)
    (hfates : List.Forall₂ (Fate e canon b) blk.insts outs)
    (hp : (outs.take k).flatten.length ≤ p) (hv : f.Avail v b k) (hself : canon v = v)
    (hconst : e.valueToConst v = none) : v ∈ defs := by
  rcases hv with hparam | ⟨d, j, ⟨inst, hinst, hres⟩, hprec⟩
  · exact hparams v hparam
  · have hd : f.Reached d := hprec.dom.reached hb
    rcases e.placeOf_cases hd hinst hres with ⟨hplace, hown⟩ | hm
    · rcases hprec with ⟨rfl, hjk⟩ | ⟨hdom, hne⟩
      · obtain ⟨blk', hblk', hget⟩ := hinst
        obtain rfl := hblk'.unique hblk
        exact hbehind.within _ hout _ (mem_take_of_flatten
          (written_mem_flatten hfates hget hres hself hconst hown hjk) hp) v hres
      · rw [← hplace] at hdom hne
        exact hg.mem_above hbehind hd hinst hres hself hconst hdom hne
    · have hup := (h.placed hd hinst hres hm.place).2.2.2.1
      refine hg.mem_above hbehind hd hinst hres hself hconst (hup.trans hprec.dom) fun heq => ?_
      rw [← heq] at hprec
      exact hm.ne (hup.antisymm hprec.dom hd)

/-- **What a value at a block's end reads is defined**: it is written in the block, further up at
its end, or in a block above. -/
lemma Emitted.mem_of_tail (hf : f.Lowered) (h : Ready f I enc e canon)
    (hg : Emitted f e canon g live) (hbehind : Behind f g live b p defs)
    (hparams : ∀ v ∈ f.params, v ∈ defs) (hblk : f.BlockAt b blk)
    (hout : g.BlockAt b ⟨blk.id, outs.flatten ++ tail, e.resolveTerm canon blk.term⟩)
    (hfates : List.Forall₂ (Fate e canon b) blk.insts outs)
    (htail : Tail f e canon (fun d _ => f.Reached d) b tail) {i : ℕ} (hx : tail[i]? = some x)
    (hp : p = outs.flatten.length + i) (hv : v ∈ visitValueOperands x.kind) : v ∈ defs := by
  have hxmem := List.mem_of_getElem? hx
  obtain ⟨d, j, inst, c, _, hm, rfl⟩ := htail.moved x hxmem
  have havail := h.base_avail hf hm.reached hm.instAt
  obtain ⟨u, hu, rfl, hconst⟩ := h.mem_values_resolve hm.reached havail hv
  obtain ⟨hself, hparam | ⟨d', m, ⟨inst', hinst', hres'⟩, hplace⟩⟩ := h.place_of_mem hf hm hv
  · exact hparams _ hparam
  · have hd' : f.Reached d' := by
      rcases (h.resolved hm.reached (havail u hu)).avail with hparam | ⟨i', m', hdef, hprec⟩
      · exact absurd ⟨inst', hinst', hres'⟩ (hf.ssa.param hparam)
      · obtain ⟨rfl, rfl⟩ := hf.ssa.unique hdef ⟨inst', hinst', hres'⟩
        exact hprec.dom.reached hm.reached
    by_cases heq : e.placeOf (canon u) d' = b
    · rcases e.placeOf_cases hd' hinst' hres' with ⟨hown', hown⟩ | hm'
      · obtain rfl := hown'.symm.trans heq
        obtain ⟨blk', hblk', hget⟩ := hinst'
        obtain rfl := hblk'.unique hblk
        have hmem := written_mem_flatten hfates hget hres' hself hconst hown
          (Nat.lt_of_lt_of_le (Nat.lt_succ_self m) (le_max_left _ outs.length))
        refine hbehind.within _ hout _ (mem_take_of_flatten hmem ?_) _ hres'
        rw [List.take_of_length_le (le_max_right _ _), hp]
        exact Nat.le_add_right _ _
      · -- both moved here: the operand is ahead
        rw [heq] at hm'
        obtain ⟨q, hq⟩ := List.mem_iff_getElem?.mp
          (htail.complete d' m inst' _ hd' hm')
        have hlt : q < i := by
          obtain ⟨hqlt, hqget⟩ := List.getElem?_eq_some_iff.mp hq
          obtain ⟨hilt, higet⟩ := List.getElem?_eq_some_iff.mp hx
          rcases Nat.lt_trichotomy q i with hqi | rfl | hiq
          · exact hqi
          · exact absurd hv (h.own_tail hf htail _ hxmem _ (by
              rw [← Option.some.inj (hq.symm.trans hx)]
              exact hres'))
          · have hbefore := List.pairwise_iff_getElem.mp htail.ordered i q hilt hqlt hiq
            rw [hqget, higet] at hbefore
            exact absurd hv (hbefore _ hres').2
        refine hbehind.within _ hout (e.written canon inst') (List.mem_of_getElem?
          (i := outs.flatten.length + q) ?_) _ hres'
        rw [List.getElem?_take_of_lt (by rw [hp]; exact Nat.add_lt_add_left hlt _),
          List.getElem?_append_right (Nat.le_add_right _ _), Nat.add_sub_cancel_left, hq]
    · exact hg.mem_above hbehind hd' hinst' hres' hself hconst hplace heq

/-- What is written of a block's own instructions, position by position. -/
lemma exists_of_flatten {insts : List Inst} (h : List.Forall₂ (Fate e canon b) insts outs) :
    ∀ {p : ℕ}, outs.flatten[p]? = some x → ∃ k inst, insts[k]? = some inst ∧
      x = e.written canon inst ∧ (outs.take k).flatten.length = p ∧ Stays e canon b inst := by
  induction h with
  | nil =>
    intro p hx
    cases hx
  | @cons inst o insts outs hfate _ ih =>
    intro p hx
    rw [List.flatten_cons] at hx
    rcases hfate with ⟨rfl, hstays⟩ | ⟨rfl, _⟩
    · cases p with
      | zero => exact ⟨0, inst, rfl, (Option.some.inj hx).symm, rfl, hstays⟩
      | succ p =>
        obtain ⟨k, inst', hget, heq, hlen, hstays'⟩ := ih hx
        refine ⟨k + 1, inst', hget, heq, ?_, hstays'⟩
        rw [List.take_succ_cons, List.flatten_cons, List.length_append, hlen]
        exact Nat.add_comm 1 p
    · obtain ⟨k, inst', hget, heq, hlen, hstays'⟩ := ih hx
      exact ⟨k + 1, inst', hget, heq, hlen, hstays'⟩

end Written

/-! ### Terminators -/

/-- A value that an operand is left with is canonical and no literal. -/
lemma Ready.value_resolve (h : Ready f I enc e canon) {b k : ℕ} (hb : f.Reached b) {a : Operand}
    (ha : ∀ u, a.value? = some u → f.Avail u b k) {v : ValueId}
    (hv : (e.resolve canon a).value? = some v) :
    ∃ u, a.value? = some u ∧ canon u = v ∧ e.valueToConst v = none := by
  cases a with
  | value u =>
    rcases h.resolve_cases hb (ha u rfl) with ⟨op, _, heq, hnone⟩ | ⟨hconst, heq⟩
    · rw [heq, hnone] at hv
      cases hv
    · rw [heq] at hv
      obtain rfl := Option.some.inj hv
      exact ⟨u, rfl, rfl, hconst⟩
  | _ => cases hv

/-- So is one that a terminator is left with. -/
lemma Ready.mem_values_resolveTerm (h : Ready f I enc e canon) {b k : ℕ} (hb : f.Reached b)
    {term : Terminator} (hread : ∀ u ∈ visitTerminatorValues term, f.Avail u b k) {v : ValueId}
    (hv : v ∈ visitTerminatorValues (e.resolveTerm canon term)) :
    ∃ u ∈ visitTerminatorValues term, canon u = v ∧ e.valueToConst v = none := by
  cases term with
  | br t => cases hv
  | unreachable => cases hv
  | ret op =>
    cases op with
    | none => cases hv
    | some a =>
      obtain ⟨u, hu, heq⟩ := h.value_resolve hb
        (fun u hu => hread u (Option.mem_toList.mpr hu)) (Option.mem_toList.mp hv)
      exact ⟨u, Option.mem_toList.mpr hu, heq⟩
  | condBr cond thenBlk elseBlk =>
    have hcond : v ∈ (e.resolve canon cond).value?.toList := by
      rw [Graph.resolveTerm] at hv
      split at hv
      · cases hv
      · cases hv
      · split at hv
        · cases hv
        · exact hv
    obtain ⟨u, hu, heq⟩ := h.value_resolve hb
      (fun u hu => hread u (Option.mem_toList.mpr hu)) (Option.mem_toList.mp hcond)
    exact ⟨u, Option.mem_toList.mpr hu, heq⟩

/-! ### The pass -/

/-- What is written is written for an instruction of the source. -/
lemma Emitted.exists_source (hg : Emitted f e canon g live) {b : BlockId} (hlive : live b)
    {blk' : Block} (hblk' : g.BlockAt b blk') {x : Inst} (hx : x ∈ blk'.insts) :
    ∃ d j inst, f.Reached d ∧ f.InstAt d j inst ∧ x = e.written canon inst := by
  obtain ⟨hb, blk, outs, tail, hblk, hout, hfates, htail, _⟩ := hg.block b hlive
  obtain rfl := hblk'.unique hout
  rcases List.mem_append.mp hx with hx | hx
  · obtain ⟨p, hp⟩ := List.mem_iff_getElem?.mp hx
    obtain ⟨k, inst, hinst, heq, _⟩ := exists_of_flatten hfates hp
    exact ⟨b, k, inst, hb, ⟨blk, hblk, hinst⟩, heq⟩
  · obtain ⟨d, j, inst, c, hd, hm, heq⟩ := htail.moved x hx
    exact ⟨d, j, inst, hd, hm.instAt, heq⟩

/-- **The elaborated function defines what it reads.** -/
lemma Emitted.definedBeforeUse (hf : f.Lowered) (h : Ready f I enc e canon)
    (hg : Emitted f e canon g live) (hdet : Detached f g live) : g.DefinedBeforeUse := by
  intro b p defs hwalk blk' hblk' v hv
  have hbehind := hg.behind hf hwalk
  obtain ⟨hb, blk, outs, tail, hblk, hout, hfates, htail, _⟩ :=
    hg.block b (hbehind.passed b (Func.Dom.refl b))
  obtain rfl := hblk'.unique hout
  have hparam : ∀ u ∈ f.params, u ∈ defs := fun u hu => hwalk.param_mem (hdet.params ▸ hu)
  cases hget : (outs.flatten ++ tail)[p]? with
  | some x =>
    rw [Block.readsAt_inst hget] at hv
    rcases Nat.lt_or_ge p outs.flatten.length with hp | hp
    · rw [List.getElem?_append_left hp] at hget
      obtain ⟨k, inst, hinst, rfl, hlen, _⟩ := exists_of_flatten hfates hget
      have havail := h.base_avail hf hb ⟨blk, hblk, hinst⟩
      obtain ⟨u, hu, rfl, hconst⟩ := h.mem_values_resolve hb havail hv
      have hr := h.resolved hb (havail u hu)
      exact hg.mem_of_avail h hbehind hparam hb hblk hout hfates hlen.le hr.avail hr.idem hconst
    · rw [List.getElem?_append_right hp] at hget
      exact hg.mem_of_tail hf h hbehind hparam hblk hout hfates htail hget
        (Nat.add_sub_of_le hp).symm hv
  | none =>
    obtain rfl : p = (outs.flatten ++ tail).length :=
      Nat.le_antisymm (hwalk.le_length hout) (List.getElem?_eq_none_iff.mp hget)
    rw [Block.readsAt_term] at hv
    have hread : ∀ u ∈ visitTerminatorValues blk.term, f.Avail u b blk.insts.length :=
      fun u hu => hf.wellFormed.avail_of_read hf.ssa hb hblk le_rfl
        (by rwa [Block.readsAt_term])
    obtain ⟨u, hu, rfl, hconst⟩ := h.mem_values_resolveTerm hb hread hv
    have hr := h.resolved hb (hread u hu)
    refine hg.mem_of_avail h hbehind hparam hb hblk hout hfates ?_ hr.avail hr.idem hconst
    rw [hfates.length_eq, List.take_length, List.length_append]
    exact Nat.le_add_right _ _

/-- What is read is in the value table. -/
lemma Emitted.read_lt (hf : f.Lowered) (h : Ready f I enc e canon)
    (hg : Emitted f e canon g live) {b k : ℕ} (hlive : live b) {blk : Block}
    (hblk : g.BlockAt b blk) {v : ValueId} (hv : v ∈ blk.readsAt k) : v < f.values.length := by
  cases hget : blk.insts[k]? with
  | some x =>
    rw [Block.readsAt_inst hget] at hv
    obtain ⟨d, j, inst, hd, hinst, rfl⟩ :=
      hg.exists_source hlive hblk (List.mem_of_getElem? hget)
    have havail := h.base_avail hf hd hinst
    obtain ⟨u, hu, rfl, _⟩ := h.mem_values_resolve hd havail hv
    exact (h.resolved hd (havail u hu)).avail.lt hf
  | none =>
    rw [Block.readsAt, hget] at hv
    dsimp only at hv
    split_ifs at hv
    · obtain ⟨hb, src, _, _, hsrc, hout, _⟩ := hg.block b hlive
      obtain rfl := hblk.unique hout
      have hread : ∀ u ∈ visitTerminatorValues src.term, f.Avail u b src.insts.length :=
        fun u hu => hf.wellFormed.avail_of_read hf.ssa hb hsrc le_rfl
          (by rwa [Block.readsAt_term])
      obtain ⟨u, hu, rfl, _⟩ := h.mem_values_resolveTerm hb hread hv
      exact (h.resolved hb (hread u hu)).avail.lt hf
    · cases hv

/-- **The elaborated function is well formed.** -/
lemma Emitted.wellFormed (hf : f.Lowered) (h : Ready f I enc e canon)
    (hg : Emitted f e canon g live) (hdet : Detached f g live) : g.WellFormed where
  id_eq b blk hblk := by
    by_cases hlive : live b
    · obtain ⟨_, src, _, _, hsrc, hout, _⟩ := hg.block b hlive
      rw [hblk.unique hout]
      exact hf.wellFormed.id_eq b src hsrc
    · exact (hdet.empty b blk hblk hlive).1
  nonempty hnil := hf.wellFormed.nonempty (List.length_eq_zero_iff.mp (by
    rw [← hdet.length, hnil]
    rfl))
  target b blk hblk t ht := by
    by_cases hlive : live b
    · obtain ⟨_, _, _, _, _, hout, _, _, hsucc⟩ := hg.block b hlive
      obtain rfl := hblk.unique hout
      obtain ⟨_, _, _, _, _, hout', _⟩ := hg.block t (hsucc t ht)
      exact hout'.lt
    · rw [(hdet.empty b blk hblk hlive).2.2] at ht
      cases ht
  read_lt b blk hblk k v hv := by
    rw [hg.values]
    by_cases hlive : live b
    · exact hg.read_lt hf h hlive hblk hv
    · obtain ⟨_, hinsts, hterm⟩ := hdet.empty b blk hblk hlive
      rw [Block.readsAt, hinsts, hterm, List.getElem?_nil] at hv
      dsimp only at hv
      split_ifs at hv <;> cases hv
  result_lt b x hx v hres := by
    obtain ⟨blk, hblk, hmem⟩ := hx
    rw [hg.values]
    by_cases hlive : live b
    · obtain ⟨d, j, inst, _, hinst, rfl⟩ := hg.exists_source hlive hblk hmem
      exact hf.wellFormed.result_lt d inst hinst.hasInst v hres
    · rw [(hdet.empty b blk hblk hlive).2.1] at hmem
      cases hmem
  param_lt v hv := by
    rw [hg.values]
    exact hf.wellFormed.param_lt v (hdet.params ▸ hv)
  param_copy b x hx v hv hres := by
    obtain ⟨blk, hblk, hmem⟩ := hx
    by_cases hlive : live b
    · obtain ⟨d, j, inst, _, hinst, rfl⟩ := hg.exists_source hlive hblk hmem
      exact absurd ⟨inst, hinst, hres⟩ (hf.ssa.param (hdet.params ▸ hv))
    · rw [(hdet.empty b blk hblk hlive).2.1] at hmem
      cases hmem
  defined := hg.definedBeforeUse hf h hdet

/-! ### Single assignment -/

section Ssa

variable {b p : ℕ} {blk : Block} {v : ValueId} {outs : List (List Inst)} {tail : List Inst}

/-- **A definition is written where its value was placed.** -/
lemma Emitted.place_of_defAt (h : Ready f I enc e canon) (hg : Emitted f e canon g live)
    (hlive : live b) (hdef : g.DefAt v b p) : ∃ d j, f.DefAt v d j ∧ e.placeOf v d = b := by
  obtain ⟨x, ⟨blk', hblk', hget⟩, hres⟩ := hdef
  obtain ⟨hb, blk, outs, tail, hblk, hout, hfates, htail, _⟩ := hg.block b hlive
  obtain rfl := hblk'.unique hout
  rcases List.mem_append.mp (List.mem_of_getElem? hget) with hx | hx
  · obtain ⟨q, hq⟩ := List.mem_iff_getElem?.mp hx
    obtain ⟨k, inst, hinst, rfl, _, hstays⟩ := exists_of_flatten hfates hq
    have hat : f.InstAt b k inst := ⟨blk, hblk, hinst⟩
    refine ⟨b, k, ⟨inst, hat, hres⟩, ?_⟩
    cases hav : e.availableBlock v with
    | none => exact Graph.placeOf_none hav
    | some t =>
      rw [Graph.placeOf_some hav]
      exact hstays v hres (h.placed hb hat hres hav).1 t hav
  · obtain ⟨d, j, inst, c, _, hm, rfl⟩ := htail.moved x hx
    obtain rfl : c = v := Option.some.inj (hm.result.symm.trans hres)
    exact ⟨d, j, ⟨inst, hm.instAt, hres⟩, Graph.placeOf_some hm.place⟩

/-- No two instructions of a block have one result. -/
lemma pairwise_written (hf : f.Lowered) (hblk : f.BlockAt b blk)
    (hfates : List.Forall₂ (Fate e canon b) blk.insts outs)
    (htail : Tail f e canon (fun d _ => f.Reached d) b tail) :
    (outs.flatten ++ tail).Pairwise fun x y => ∀ r, x.result = some r → y.result ≠ some r := by
  refine List.pairwise_append.mpr ⟨?_, ?_, ?_⟩
  · refine List.pairwise_iff_getElem.mpr fun q q' hq hq' hlt r hr hr' => ?_
    obtain ⟨k, inst, hinst, heq, hlen, _⟩ :=
      exists_of_flatten hfates (List.getElem?_eq_getElem hq)
    obtain ⟨k', inst', hinst', heq', hlen', _⟩ :=
      exists_of_flatten hfates (List.getElem?_eq_getElem hq')
    rw [heq] at hr
    rw [heq'] at hr'
    obtain ⟨_, rfl⟩ := hf.ssa.unique ⟨inst, ⟨blk, hblk, hinst⟩, hr⟩
      ⟨inst', ⟨blk, hblk, hinst'⟩, hr'⟩
    exact hlt.ne (hlen.symm.trans hlen')
  · exact htail.ordered.imp fun hxy r hr hr' => (hxy r hr').1 hr
  · intro x hx y hy r hr hr'
    obtain ⟨q, hq⟩ := List.mem_iff_getElem?.mp hx
    obtain ⟨k, inst, hinst, rfl, _⟩ := exists_of_flatten hfates hq
    obtain ⟨d, j, inst', c, _, hm, rfl⟩ := htail.moved y hy
    obtain ⟨rfl, _⟩ := hf.ssa.unique ⟨inst', hm.instAt, hr'⟩ ⟨inst, ⟨blk, hblk, hinst⟩, hr⟩
    exact hm.ne rfl

/-- Only live blocks define values. -/
lemma Detached.live_of_defAt (hdet : Detached f g live) (hdef : g.DefAt v b p) : live b := by
  by_contra hlive
  obtain ⟨x, ⟨blk, hblk, hget⟩, _⟩ := hdef
  rw [(hdet.empty b blk hblk hlive).2.1] at hget
  cases hget

/-- **The elaborated function is in single assignment.** -/
lemma Emitted.ssa (hf : f.Lowered) (h : Ready f I enc e canon) (hg : Emitted f e canon g live)
    (hdet : Detached f g live) : g.Ssa where
  unique {v b p b' p'} hdef hdef' := by
    have hlive := hdet.live_of_defAt hdef
    obtain ⟨d, j, hd, rfl⟩ := hg.place_of_defAt h hlive hdef
    obtain ⟨d', j', hd', rfl⟩ := hg.place_of_defAt h (hdet.live_of_defAt hdef') hdef'
    obtain ⟨rfl, _⟩ := hf.ssa.unique hd hd'
    refine ⟨rfl, ?_⟩
    obtain ⟨_, blk, outs, tail, hblk, hout, hfates, htail, _⟩ := hg.block _ hlive
    have hpair := List.pairwise_iff_getElem.mp (pairwise_written hf hblk hfates htail)
    obtain ⟨x, ⟨_, hx, hxget⟩, hxres⟩ := hdef
    obtain ⟨y, ⟨_, hy, hyget⟩, hyres⟩ := hdef'
    obtain rfl := hx.unique hout
    obtain rfl := hy.unique hout
    obtain ⟨hp, rfl⟩ := List.getElem?_eq_some_iff.mp hxget
    obtain ⟨hp', rfl⟩ := List.getElem?_eq_some_iff.mp hyget
    rcases Nat.lt_trichotomy p p' with hlt | heq | hlt
    · exact absurd hyres (hpair p p' hp hp' hlt v hxres)
    · exact heq
    · exact absurd hxres (hpair p' p hp' hp hlt v hyres)
  param {v b p} hv hdef := by
    obtain ⟨d, j, hd, _⟩ := hg.place_of_defAt h (hdet.live_of_defAt hdef) hdef
    exact hf.ssa.param (hdet.params ▸ hv) hd

end Ssa

/-! ### Size -/

/-- The number of instructions. -/
def Func.instCount (f : Func) : ℕ := (f.blocks.flatMap Block.insts).length

/-- The number of instructions of a block. -/
def Func.instsAt (f : Func) (b : BlockId) : ℕ := (f.blocks[b]?.map (·.insts.length)).getD 0

/-- The points that have an instruction. -/
def Func.points (f : Func) : Finset (Σ _ : BlockId, ℕ) :=
  (Finset.range f.blocks.length).sigma fun b => Finset.range (f.instsAt b)

lemma Func.BlockAt.instsAt {b : BlockId} {blk : Block} (h : f.BlockAt b blk) :
    f.instsAt b = blk.insts.length := by
  rw [Func.instsAt, h]
  rfl

lemma Func.mem_points {b k : ℕ} : ⟨b, k⟩ ∈ f.points ↔ ∃ inst, f.InstAt b k inst := by
  rw [Func.points, Finset.mem_sigma, Finset.mem_range, Finset.mem_range]
  constructor
  · rintro ⟨hb, hk⟩
    obtain ⟨blk, hblk⟩ := Func.exists_blockAt_of_lt hb
    rw [hblk.instsAt] at hk
    exact ⟨blk.insts[k], blk, hblk, List.getElem?_eq_getElem hk⟩
  · rintro ⟨inst, blk, hblk, hinst⟩
    rw [hblk.instsAt]
    exact ⟨hblk.lt, (List.getElem?_eq_some_iff.mp hinst).1⟩

lemma Func.card_points (f : Func) : f.points.card = f.instCount := by
  rw [Func.points, Finset.card_sigma, Func.instCount, List.length_flatMap]
  simp only [Finset.card_range]
  rw [Finset.sum_range, ← Fin.sum_univ_fun_getElem]
  exact Finset.sum_congr rfl fun b _ => Func.BlockAt.instsAt (List.getElem?_eq_getElem b.2)

/-- **Every point of the elaborated function is for one of the source**: an instruction with a
result for the definition of its result, another for one of its block, in order. -/
lemma Emitted.exists_rank (hg : Emitted f e canon g live) (hdet : Detached f g live) :
    ∃ rank : BlockId → ℕ → ℕ, ∀ b p x, g.InstAt b p x → ∃ d j inst, f.InstAt d j inst ∧
      x.result = inst.result ∧ (inst.result = none → b = d ∧ p = rank d j) := by
  have hblock : ∀ b, ∃ rank : ℕ → ℕ, ∀ p x, g.InstAt b p x → ∃ d j inst, f.InstAt d j inst ∧
      x.result = inst.result ∧ (inst.result = none → b = d ∧ p = rank j) := by
    intro b
    by_cases hlive : live b
    · obtain ⟨_, blk, outs, tail, hblk, hout, hfates, htail, _⟩ := hg.block b hlive
      refine ⟨fun k => (outs.take k).flatten.length, ?_⟩
      rintro p x ⟨blk', hblk', hget⟩
      obtain rfl := hblk'.unique hout
      rcases Nat.lt_or_ge p outs.flatten.length with hp | hp
      · rw [List.getElem?_append_left hp] at hget
        obtain ⟨k, inst, hinst, rfl, hlen, _⟩ := exists_of_flatten hfates hget
        exact ⟨b, k, inst, ⟨blk, hblk, hinst⟩, rfl, fun _ => ⟨rfl, hlen.symm⟩⟩
      · rw [List.getElem?_append_right hp] at hget
        obtain ⟨d, j, inst, c, _, hm, rfl⟩ := htail.moved x (List.mem_of_getElem? hget)
        refine ⟨d, j, inst, hm.instAt, rfl, fun hnone => ?_⟩
        rw [hm.result] at hnone
        cases hnone
    · refine ⟨id, ?_⟩
      rintro p x ⟨blk, hblk, hget⟩
      rw [(hdet.empty b blk hblk hlive).2.1] at hget
      cases hget
  choose rank hrank using hblock
  refine ⟨rank, fun b p x hx => ?_⟩
  obtain ⟨d, j, inst, hinst, hres, hnone⟩ := hrank b p x hx
  refine ⟨d, j, inst, hinst, hres, fun h => ?_⟩
  obtain ⟨rfl, hp⟩ := hnone h
  exact ⟨rfl, hp⟩

/-- **Elaboration writes no instruction twice.** -/
lemma Emitted.instCount_le (hf : f.Lowered) (h : Ready f I enc e canon)
    (hg : Emitted f e canon g live) (hdet : Detached f g live) : g.instCount ≤ f.instCount := by
  obtain ⟨rank, hrank⟩ := hg.exists_rank hdet
  have hssa := hg.ssa hf h hdet
  rw [← Func.card_points, ← Func.card_points]
  refine Finset.card_le_card_of_forall_subsingleton (fun q s => ∃ x inst, g.InstAt q.1 q.2 x ∧
    f.InstAt s.1 s.2 inst ∧ x.result = inst.result ∧
    (inst.result = none → q.1 = s.1 ∧ q.2 = rank s.1 s.2)) ?_ ?_
  · rintro ⟨b, p⟩ hq
    obtain ⟨x, hx⟩ := Func.mem_points.mp hq
    obtain ⟨d, j, inst, hinst, hres, hnone⟩ := hrank b p x hx
    exact ⟨⟨d, j⟩, Func.mem_points.mpr ⟨inst, hinst⟩, x, inst, hx, hinst, hres, hnone⟩
  · rintro ⟨d, j⟩ _ ⟨b, p⟩ ⟨_, x, inst, hx, hinst, hres, hnone⟩ ⟨b', p'⟩
      ⟨_, x', inst', hx', hinst', hres', hnone'⟩
    obtain rfl := hinst.unique hinst'
    have hsame : b = b' ∧ p = p' := by
      cases hr : inst.result with
      | none =>
        obtain ⟨hb, hp⟩ := hnone hr
        obtain ⟨hb', hp'⟩ := hnone' hr
        exact ⟨hb.trans hb'.symm, hp.trans hp'.symm⟩
      | some v => exact hssa.unique ⟨x, hx, hres.trans hr⟩ ⟨x', hx', hres'.trans hr⟩
    obtain ⟨rfl, rfl⟩ := hsame
    rfl

/-! ### What the pass writes -/

/-- **What the pass writes is well formed**: its branches and values stay in their tables, on every
path a value is defined before it is read, and it has one definition. -/
theorem egraphPass_wellFormed (hf : f.Lowered) (hfit : f.blocks.length ≤ Dominator.finalMark) :
    ∃ g, egraphPass f = some g ∧ g.WellFormed ∧ g.Ssa := by
  -- what the instructions mean is of no account here
  obtain ⟨enc, hI⟩ := wordInterp_lawful oneCell_ieee oneCell_encodes
  obtain ⟨g, e, canon, live, hpass, hready, hemit, hdet⟩ := egraphPass_emitted hf hfit hI
  exact ⟨g, hpass, hemit.wellFormed hf hready hdet, hemit.ssa hf hready hdet⟩

theorem egraphPass_wellFormed_scaledSum :
    scaledSumHoisted.WellFormed ∧ scaledSumHoisted.Ssa := by
  have hpass : egraphPass scaledSum = some scaledSumHoisted := by decide +kernel
  obtain ⟨g, hg, hwf⟩ := egraphPass_wellFormed (f := scaledSum)
    (Func.lowered_of_check (Func.wellFormed_of_check scaledSum_check) (by decide)) (by decide)
  rw [Option.some.inj (hpass.symm.trans hg)]
  exact hwf

/-- **The pass writes no more instructions than it was given.** -/
theorem egraphPass_instCount_le (hf : f.Lowered) (hfit : f.blocks.length ≤ Dominator.finalMark) :
    ∃ g, egraphPass f = some g ∧ g.instCount ≤ f.instCount := by
  obtain ⟨enc, hI⟩ := wordInterp_lawful oneCell_ieee oneCell_encodes
  obtain ⟨g, e, canon, live, hpass, hready, hemit, hdet⟩ := egraphPass_emitted hf hfit hI
  exact ⟨g, hpass, hemit.instCount_le hf hready hdet⟩

theorem egraphPass_instCount_le_scaledSum :
    ∃ g, egraphPass scaledSum = some g ∧ g.instCount ≤ 11 :=
  egraphPass_instCount_le (f := scaledSum)
    (Func.lowered_of_check (Func.wellFormed_of_check scaledSum_check) (by decide)) (by decide)

end Torajs.Egraph
