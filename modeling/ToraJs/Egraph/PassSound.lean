import ToraJs.Egraph.Elaborated
import ToraJs.Lib.Worklist

/-!
# The pass keeps the meaning

The elaborated function is run beside the source.  At every point they share, the canonical
values that are there hold the same in both; a value that moved holds, once control is below
the block it moved to, what it is computed from there.  An instruction that was dropped is a
step the source takes alone; the values at a block's end are steps the elaborated function
takes before it leaves the block.
-/

namespace Torajs.Egraph

open Simulation Worklist
open Ieee754 (F64)

variable {V World : Type} {f g : Func} {I : Interp V World} {enc : OtherKind → List V → V}
  {e : Graph} {canon : ValueId → ValueId}

/-! ### Unreached blocks -/

/-- Branches between blocks. -/
def Leads (blocks : List Block) (b c : BlockId) : Prop :=
  ∃ blk, blocks[b]? = some blk ∧ c ∈ successors blk.term

lemma length_successors (term : Terminator) : (successors term).length ≤ 2 := by
  cases term <;> simp [successors]

/-- **The loop of `detach_unreached`** ends and has seen the blocks that the entry reaches. -/
lemma seenLoop_spec {blocks : List Block}
    (hin : ∀ blk ∈ blocks, ∀ t ∈ successors blk.term, t < blocks.length) (fuel : ℕ) :
    ∀ {stack seen : List BlockId},
      Walking (Leads blocks) (· = 0) (· ∈ seen) stack → seen.Nodup →
      (∀ b ∈ seen, b < blocks.length) → (∀ b ∈ stack, b < blocks.length) →
      2 * (blocks.length - seen.length) + stack.length ≤ fuel →
      ∃ seen', seenLoop blocks fuel stack seen = some seen' ∧
        ∀ b, b ∈ seen' ↔ Reached (Leads blocks) (· = 0) b := by
  induction fuel with
  | zero =>
    intro stack seen hwalk _ _ _ hfuel
    obtain rfl : stack = [] := List.length_eq_zero_iff.mp (by omega)
    exact ⟨seen, rfl, hwalk.done⟩
  | succ fuel ih =>
    intro stack seen hwalk hnodup hseen hstack hfuel
    cases stack with
    | nil => exact ⟨seen, rfl, hwalk.done⟩
    | cons b stack =>
      rw [List.length_cons] at hfuel
      obtain ⟨blk, hb⟩ : ∃ blk, blocks[b]? = some blk :=
        ⟨_, List.getElem?_eq_getElem (hstack b List.mem_cons_self)⟩
      have hstack' : ∀ c ∈ stack, c < blocks.length := fun c hc =>
        hstack c (List.mem_cons_of_mem _ hc)
      rw [seenLoop, hb]
      dsimp only
      by_cases hmem : b ∈ seen
      · rw [if_pos hmem]
        exact ih (hwalk.drop hmem) hnodup hseen hstack' (by omega)
      · rw [if_neg hmem]
        have hlen : (b :: seen).length ≤ blocks.length := by
          have hsub : b :: seen ⊆ List.range blocks.length := fun c hc => by
            rw [List.mem_range]
            rcases List.mem_cons.mp hc with rfl | hc
            · exact hstack c List.mem_cons_self
            · exact hseen c hc
          have hle := ((List.nodup_cons.mpr ⟨hmem, hnodup⟩).subperm hsub).length_le
          rwa [List.length_range] at hle
        have htwo := length_successors blk.term
        have hvisit : Walking (Leads blocks) (· = 0) (· ∈ b :: seen)
            ((successors blk.term).reverse ++ stack) := by
          have hout : ∀ c, c ∈ (successors blk.term).reverse ++ stack ↔
              Leads blocks b c ∨ c ∈ stack := by
            intro c
            rw [List.mem_append, List.mem_reverse]
            refine or_congr_left ⟨fun hc => ⟨_, hb, hc⟩, ?_⟩
            rintro ⟨blk', hblk', hc⟩
            rwa [Option.some.inj (hb.symm.trans hblk')]
          have hiff : (fun c => c ∈ seen ∨ c = b) = fun c => c ∈ b :: seen := by
            funext c
            rw [List.mem_cons, or_comm]
          exact hiff ▸ hwalk.visit hout
        refine ih hvisit (List.nodup_cons.mpr ⟨hmem, hnodup⟩) (fun c hc => ?_) (fun c hc => ?_) ?_
        · rcases List.mem_cons.mp hc with rfl | hc
          · exact hstack c List.mem_cons_self
          · exact hseen c hc
        · rcases List.mem_append.mp hc with hc | hc
          · exact hin blk (List.mem_of_getElem? hb) c (List.mem_reverse.mp hc)
          · exact hstack' c hc
        · rw [List.length_cons] at hlen
          rw [List.length_append, List.length_reverse, List.length_cons]
          omega

/-- **`detach_unreached` leaves the blocks that the entry reaches** and empties the others. -/
lemma detachUnreached_spec {blocks : List Block} (hne : blocks ≠ [])
    (hin : ∀ blk ∈ blocks, ∀ t ∈ successors blk.term, t < blocks.length) :
    ∃ blocks', detachUnreached blocks = some blocks' ∧ blocks'.length = blocks.length ∧
      (∀ b, Reached (Leads blocks) (· = 0) b → blocks'[b]? = blocks[b]?) ∧
      ∀ b, ¬ Reached (Leads blocks) (· = 0) b →
        blocks'[b]? = blocks[b]?.map fun blk => { blk with insts := [], term := .unreachable } := by
  have hpos := List.length_pos_iff.mpr hne
  have hstart : Walking (Leads blocks) (· = 0) (· ∈ ([] : List BlockId)) [0] := by
    have hnone : (fun b : BlockId => b ∈ ([] : List BlockId)) = fun _ => False :=
      funext fun _ => by simp
    exact hnone ▸ Walking.init fun b => List.mem_singleton.symm
  obtain ⟨seen, hseen, hmem⟩ := seenLoop_spec hin (2 * blocks.length + 1)
    hstart List.nodup_nil (fun b hb => absurd hb List.not_mem_nil)
    (fun b hb => by rwa [List.mem_singleton.mp hb]) (by simp)
  refine ⟨_, by rw [detachUnreached, hseen]; rfl, List.length_mapIdx, fun b hb => ?_,
    fun b hb => ?_⟩
  · rw [List.getElem?_mapIdx]
    cases blocks[b]? with
    | none => rfl
    | some blk => exact congrArg some (if_pos (Or.inr ((hmem b).mpr hb)))
  · have hnot : ¬ (b = 0 ∨ b ∈ seen) := by
      rintro (rfl | hin)
      · exact hb (Reached.root rfl)
      · exact hb ((hmem b).mp hin)
    rw [List.getElem?_mapIdx]
    cases blocks[b]? with
    | none => rfl
    | some blk => exact congrArg some (if_neg hnot)

/-! ### Runs of what is written -/

/-- An instruction whose operands read the same does the same. -/
lemma Inst.run_remap {values : List SsaType} {h : Operand → Operand} {kind : InstKind}
    {res : Option ValueId} {ρ ρ' : ValueId → V}
    (heval : ∀ a ∈ kind.operands, (h a).eval I ρ' = a.eval I ρ)
    (hwidth : ∀ a ∈ kind.operands, isI32 values (h a) = isI32 values a) (w : World) :
    (Inst.mk res (kind.remap h)).run I values ρ' w = (Inst.mk res kind).run I values ρ w := by
  have hpure : (kind.remap h).pureValue I ρ' = kind.pureValue I ρ := by
    cases kind <;> simp_all [InstKind.remap, InstKind.pureValue, InstKind.operands]
  have haction :
      (Inst.mk res (kind.remap h)).action? values = (Inst.mk res kind).action? values := by
    cases kind with
    | store val ptr off =>
      exact congrArg (fun w => some (Action.store w off)) (hwidth val List.mem_cons_self)
    | _ => rfl
  have hargs : (kind.remap h).operands.map (·.eval I ρ') = kind.operands.map (·.eval I ρ) := by
    rw [InstKind.operands_remap, List.map_map]
    exact List.map_congr_left fun a ha => heval a ha
  rw [Inst.run, Inst.run, hpure, haction, hargs]

/-- **The values at the end of a block**: they are computed without being seen, each as its
instruction says, and nothing else changes. -/
lemma silent_of_tail (hI : I.Lawful enc) {b : BlockId} {blk : Block} (hblk : g.BlockAt b blk)
    (w : World) : ∀ (tail : List Inst) (p : ℕ) (ρ : ValueId → V), blk.insts.drop p = tail →
      p ≤ blk.insts.length → (∀ x ∈ tail, x.kind.isPure = true) →
      (∀ x ∈ tail, ∀ r, x.result = some r → r ∉ visitValueOperands x.kind) →
      (tail.Pairwise fun x y =>
        ∀ r, y.result = some r → x.result ≠ some r ∧ r ∉ visitValueOperands x.kind) →
      ∃ ρ', Silent (g.next I) obs ⟨.point b p, ρ, w⟩ ⟨.point b blk.insts.length, ρ', w⟩ ∧
        (∀ v, (∀ x ∈ tail, x.result ≠ some v) → ρ' v = ρ v) ∧
        ∀ x ∈ tail, ∀ r, x.result = some r → x.kind.value I enc ρ' = some (ρ' r) := by
  intro tail
  induction tail with
  | nil =>
    intro p ρ hdrop hp _ _ _
    obtain rfl : p = blk.insts.length := Nat.le_antisymm hp (List.drop_eq_nil_iff.mp hdrop)
    exact ⟨ρ, Silent.refl _, fun v _ => rfl, fun x hx => absurd hx List.not_mem_nil⟩
  | cons x tail ih =>
    intro p ρ hdrop hp hpure hown hordered
    obtain ⟨hlater, hordered⟩ := List.pairwise_cons.mp hordered
    have hinst : blk.insts[p]? = some x := by
      rw [← List.head?_drop, hdrop]
      rfl
    obtain ⟨y, hy⟩ : ∃ y, x.kind.value I enc ρ = some y :=
      InstKind.exists_value (hpure x List.mem_cons_self) ρ
    obtain ⟨ρ', hsilent, hkeep, hvalues⟩ := ih (p + 1) (x.write ρ y)
      (by rw [← List.tail_drop, hdrop]; rfl) (List.getElem?_eq_some_iff.mp hinst).1
      (fun z hz => hpure z (List.mem_cons_of_mem _ hz))
      (fun z hz => hown z (List.mem_cons_of_mem _ hz)) hordered
    have hstep : g.next I ⟨.point b p, ρ, w⟩ = some ⟨.point b (p + 1), x.write ρ y, w⟩ := by
      rw [Func.next_point hblk, Block.next_inst hinst (Inst.run_of_value hI hy)]
    refine ⟨ρ', Silent.cons hstep rfl hsilent, fun v hv => ?_, fun z hz r hr => ?_⟩
    · rw [hkeep v fun z hz => hv z (List.mem_cons_of_mem _ hz)]
      exact Inst.write_ne (hv x List.mem_cons_self) ρ y
    · rcases List.mem_cons.mp hz with rfl | hz
      · -- what comes later writes neither the result nor an operand
        have hread : ∀ v ∈ visitValueOperands z.kind, ρ' v = ρ v := fun v hv => by
          rw [hkeep v fun u hu hres => (hlater u hu v hres).2 hv]
          exact Inst.write_ne (fun hres => hown z List.mem_cons_self v hres hv) ρ y
        rw [InstKind.value_congr hread, hy, hkeep r fun u hu hres => (hlater u hu r hres).1 hr,
          Inst.write_self hr]
      · exact hvalues z hz r hr

/-! ### The elaborated function beside the source -/

/-- The live blocks of the elaborated function. -/
structure Emitted (f : Func) (e : Graph) (canon : ValueId → ValueId) (g : Func)
    (live : BlockId → Prop) : Prop where
  values : g.values = f.values
  entry : live 0
  block : ∀ b, live b → f.Reached b ∧ ∃ blk outs tail, f.BlockAt b blk ∧
    g.BlockAt b ⟨blk.id, outs.flatten ++ tail, e.resolveTerm canon blk.term⟩ ∧
    List.Forall₂ (Fate e canon b) blk.insts outs ∧ Tail f e canon (fun d _ => f.Reached d) b tail ∧
    ∀ t ∈ successors (e.resolveTerm canon blk.term), live t

/-- What is left of the blocks that are not live. -/
structure Detached (f g : Func) (live : BlockId → Prop) : Prop where
  params : g.params = f.params
  length : g.blocks.length = f.blocks.length
  empty : ∀ b blk, g.BlockAt b blk → ¬ live b →
    blk.id = b ∧ blk.insts = [] ∧ blk.term = .unreachable

/-- The values that moved to a block above hold what they are computed from. -/
def Computed (f : Func) (I : Interp V World) (enc : OtherKind → List V → V) (e : Graph)
    (canon : ValueId → ValueId) (ρ' : ValueId → V) (b : BlockId) : Prop :=
  ∀ t d j inst c, Moves f e t d j inst c → f.Dom t b → t ≠ b →
    (e.written canon inst).kind.value I enc ρ' = some (ρ' c)

/-- **Where both runs stand**: at the same point of the same block, or at the same end.  The count
is what is left of the block. -/
inductive Beside (f g : Func) (I : Interp V World) (enc : OtherKind → List V → V) (e : Graph)
    (canon : ValueId → ValueId) (live : BlockId → Prop) :
    ℕ → Config V World → Config V World → Prop
  | point {b k : ℕ} {blk : Block} {outs : List (List Inst)} {tail : List Inst} {ρ ρ' : ValueId → V}
      {w : World} (hlive : live b) (hblk : f.BlockAt b blk)
      (hout : g.BlockAt b ⟨blk.id, outs.flatten ++ tail, e.resolveTerm canon blk.term⟩)
      (hfates : List.Forall₂ (Fate e canon b) blk.insts outs)
      (htail : Tail f e canon (fun d _ => f.Reached d) b tail) (hk : k ≤ blk.insts.length)
      (hsat : f.Sat I enc ρ b k) (hagree : Agree f e canon ρ ρ' b k)
      (hcomputed : Computed f I enc e canon ρ' b) :
      Beside f g I enc e canon live (blk.insts.length - k) ⟨.point b k, ρ, w⟩
        ⟨.point b (outs.take k).flatten.length, ρ', w⟩
  | ended {n : ℕ} {ctl : Control V} {ρ ρ' : ValueId → V} {w : World}
      (hend : ∀ b k, ctl ≠ .point b k) : Beside f g I enc e canon live n ⟨ctl, ρ, w⟩ ⟨ctl, ρ', w⟩

section Beside

variable {b k : ℕ} {inst : Inst} {ρ ρ' : ValueId → V}

/-- What is there behind an instruction is its result, or was there before. -/
lemma Func.Avail.of_next (hinst : f.InstAt b k inst) {v : ValueId} (h : f.Avail v b (k + 1)) :
    inst.result = some v ∨ f.Avail v b k := by
  rcases h with hparam | ⟨d, j, hdef, hp⟩
  · exact Or.inr (Or.inl hparam)
  · rcases hp with ⟨rfl, hle⟩ | hp
    · rcases Nat.lt_or_eq_of_le (Nat.le_of_succ_le_succ hle) with hlt | rfl
      · exact Or.inr (Or.inr ⟨d, j, hdef, Func.Precedes.within hlt⟩)
      · obtain ⟨inst', hinst', hres⟩ := hdef
        rw [hinst.unique hinst']
        exact Or.inl hres
    · exact Or.inr (Or.inr ⟨d, j, hdef, Or.inr hp⟩)

/-- **What is written does what the instruction does.** -/
lemma Ready.run_written (hf : f.Lowered) (hI : I.Lawful enc) (h : Ready f I enc e canon)
    (hb : f.Reached b) (hinst : f.InstAt b k inst) (hρ : f.Sat I enc ρ b k)
    (hagree : Agree f e canon ρ ρ' b k) (w : World) :
    (e.written canon inst).run I f.values ρ' w = inst.run I f.values ρ w := by
  have hread : ∀ a ∈ (e.baseKind inst).operands, ∀ v, a.value? = some v → f.Avail v b k :=
    fun a ha v hv => h.base_avail hf hb hinst v (mem_visitValueOperands ha hv)
  rw [← h.base_run hI hb hinst hρ]
  exact Inst.run_remap (fun a ha => h.eval_resolve hb (hread a ha) hρ hagree)
    (fun a ha => h.isI32_resolve hb (hread a ha)) w

/-- So does its value. -/
lemma Ready.value_written (hf : f.Lowered) (h : Ready f I enc e canon) (hb : f.Reached b)
    (hinst : f.InstAt b k inst) (hρ : f.Sat I enc ρ b k) (hagree : Agree f e canon ρ ρ' b k) :
    (e.written canon inst).kind.value I enc ρ' = inst.kind.value I enc ρ := by
  rw [← h.base_value hb hinst hρ]
  exact InstKind.value_remap fun a ha => h.eval_resolve hb
    (fun v hv => h.base_avail hf hb hinst v (mem_visitValueOperands ha hv)) hρ hagree

/-- The operands of a value that moves are parameters or are written in a block above. -/
lemma Ready.place_of_mem (hf : f.Lowered) (h : Ready f I enc e canon) {t d j : ℕ} {c r : ValueId}
    (hm : Moves f e t d j inst c) (hr : r ∈ visitValueOperands (e.written canon inst).kind) :
    canon r = r ∧ (r ∈ f.params ∨ ∃ i m, f.DefAt r i m ∧ f.Dom (e.placeOf r i) t) := by
  have havail := h.base_avail hf hm.reached hm.instAt
  obtain ⟨v, hv, rfl, _⟩ := h.mem_values_resolve hm.reached havail hr
  exact ⟨h.flat.idem (h.len ▸ (havail v hv).lt hf),
    (h.placed hm.reached hm.instAt hm.result hm.place).2.2.2.2 v hv⟩

/-- What a block writes for an instruction of its own is no value that moved to a block above,
and none such is computed from it. -/
lemma Ready.not_read (hf : f.Lowered) (h : Ready f I enc e canon) (hb : f.Reached b)
    (hinst : f.InstAt b k inst) (hstays : Stays e canon b inst) {r : ValueId}
    (hres : inst.result = some r) {t d j : ℕ} {inst' : Inst} {c : ValueId}
    (hm : Moves f e t d j inst' c) (htb : f.Dom t b) (hne : t ≠ b) :
    r ≠ c ∧ r ∉ visitValueOperands (e.written canon inst').kind := by
  refine ⟨?_, fun hr => ?_⟩
  · rintro rfl
    obtain ⟨rfl, rfl⟩ := hf.ssa.unique ⟨inst, hinst, hres⟩ ⟨inst', hm.instAt, hm.result⟩
    exact hm.ne (hstays r hres (h.placed hm.reached hm.instAt hm.result hm.place).1 t hm.place)
  · obtain ⟨hself, hparam | ⟨i, m, hdef, hplace⟩⟩ := h.place_of_mem hf hm hr
    · exact hf.ssa.param hparam ⟨inst, hinst, hres⟩
    · obtain ⟨rfl, rfl⟩ := hf.ssa.unique hdef ⟨inst, hinst, hres⟩
      have hb' : e.placeOf r i = i := by
        cases hav : e.availableBlock r with
        | none => exact Graph.placeOf_none hav
        | some t' =>
          rw [Graph.placeOf_some hav]
          exact hstays r hres hself t' hav
      rw [hb'] at hplace
      exact hne (htb.antisymm hplace hb)

/-- What moved to a block's end is not there before the block's end. -/
lemma Ready.not_avail (hf : f.Lowered) (h : Ready f I enc e canon) {d j : ℕ} {c : ValueId}
    (hm : Moves f e b d j inst c) : ¬ f.Avail c b k := by
  rintro (hparam | ⟨i, m, hdef, hp⟩)
  · exact hf.ssa.param hparam ⟨inst, hm.instAt, hm.result⟩
  · obtain ⟨rfl, rfl⟩ := hf.ssa.unique hdef ⟨inst, hm.instAt, hm.result⟩
    have hdom := (h.placed hm.reached hm.instAt hm.result hm.place).2.2.2.1
    exact hm.ne (hdom.antisymm hp.dom hm.reached)

end Beside

/-! ### One step -/

section Steps

variable {live : BlockId → Prop} {b k : ℕ} {blk : Block} {inst : Inst} {ρ ρ' : ValueId → V}
  {outs : List (List Inst)} {tail : List Inst} {x : V} {w : World}

/-- Where both runs compute an instruction they agree behind it. -/
lemma Agree.next (h : Agree f e canon ρ ρ' b k) (hinst : f.InstAt b k inst) (x : V) :
    Agree f e canon (inst.write ρ x) ((e.written canon inst).write ρ' x) b (k + 1) :=
  fun c hc hself hnone => Inst.write_congr
    (fun hne => h c ((hc.of_next hinst).resolve_left hne) hself hnone) x

/-- **Where one was dropped they agree behind it** too: its value is a literal, another value's, or
was computed above. -/
lemma Ready.agree_drop (hf : f.Lowered) (h : Ready f I enc e canon) (hb : f.Reached b)
    (hinst : f.InstAt b k inst) (hneed : Needless e canon b inst) (hρ : f.Sat I enc ρ b k)
    (hagree : Agree f e canon ρ ρ' b k) (hcomputed : Computed f I enc e canon ρ' b)
    (hx : inst.kind.value I enc ρ = some x) :
    Agree f e canon (inst.write ρ x) ρ' b (k + 1) := by
  intro c hc hself hnone
  by_cases hres : inst.result = some c
  · obtain ⟨t, hav, hne⟩ := hneed.2 c hres hself hnone
    have hdom := (h.placed hb hinst hres hav).2.2.2.1
    have hvalue := hcomputed t b k inst c ⟨hb, hinst, hres, hav, hne⟩ hdom hne
    rw [h.value_written hf hb hinst hρ hagree, hx] at hvalue
    rw [Inst.write_self hres]
    exact (Option.some.inj hvalue).symm
  · rw [Inst.write_ne hres]
    exact hagree c ((hc.of_next hinst).resolve_left hres) hself hnone

/-- What a block writes for an instruction of its own leaves the values of the blocks above. -/
lemma Ready.computed_next (hf : f.Lowered) (h : Ready f I enc e canon) (hb : f.Reached b)
    (hinst : f.InstAt b k inst) (hstays : Stays e canon b inst)
    (hcomputed : Computed f I enc e canon ρ' b) (x : V) :
    Computed f I enc e canon ((e.written canon inst).write ρ' x) b := by
  intro t d j inst' c hm htb hne
  have hfree : ∀ r, inst.result = some r →
      r ≠ c ∧ r ∉ visitValueOperands (e.written canon inst').kind :=
    fun r hres => h.not_read hf hb hinst hstays hres hm htb hne
  have hkeep : ∀ v, inst.result ≠ some v → (e.written canon inst).write ρ' x v = ρ' v :=
    fun v hv => Inst.write_ne hv ρ' x
  rw [InstKind.value_congr fun v hv => hkeep v fun hres => (hfree v hres).2 hv,
    hcomputed t d j inst' c hm htb hne, hkeep c fun hres => (hfree c hres).1 rfl]

/-- The values at a block's end are pure, -/
lemma Ready.isPure_tail (h : Ready f I enc e canon)
    (htail : Tail f e canon (fun d _ => f.Reached d) b tail) :
    ∀ x ∈ tail, x.kind.isPure = true := by
  intro x hx
  obtain ⟨d, j, inst, c, _, hm, rfl⟩ := htail.moved x hx
  change ((e.baseKind inst).remap (e.resolve canon)).isPure = true
  rw [InstKind.isPure_remap, h.base_isPure hm.reached hm.instAt]
  exact (h.placed hm.reached hm.instAt hm.result hm.place).2.2.1

/-- and none reads itself. -/
lemma Ready.own_tail (hf : f.Lowered) (h : Ready f I enc e canon)
    (htail : Tail f e canon (fun d _ => f.Reached d) b tail) :
    ∀ x ∈ tail, ∀ r, x.result = some r → r ∉ visitValueOperands x.kind := by
  intro x hx r hres hr
  obtain ⟨d, j, inst, c, _, hm, rfl⟩ := htail.moved x hx
  have havail := h.base_avail hf hm.reached hm.instAt
  obtain ⟨v, hv, rfl, _⟩ := h.mem_values_resolve hm.reached havail hr
  exact (h.resolved hm.reached (havail v hv)).avail.ne_of_defAt hf.ssa ⟨inst, hm.instAt, hres⟩
    hm.reached rfl

/-- **A terminator leads where it did.** -/
lemma Ready.target_resolveTerm (hI : I.Lawful enc) (h : Ready f I enc e canon) (hb : f.Reached b)
    {term : Terminator} (hread : ∀ v ∈ visitTerminatorValues term, f.Avail v b k)
    (hρ : f.Sat I enc ρ b k) (hagree : Agree f e canon ρ ρ' b k) :
    (e.resolveTerm canon term).target I ρ' = term.target I ρ := by
  cases term with
  | br b => rfl
  | unreachable => rfl
  | ret op =>
    cases op with
    | none => rfl
    | some a =>
      have ha : (e.resolve canon a).eval I ρ' = a.eval I ρ :=
        h.eval_resolve hb (fun v hv => hread v (by
          rw [visitTerminatorValues, hv]
          exact List.mem_singleton_self v)) hρ hagree
      exact congrArg (fun y => Control.returned (some y)) ha
  | condBr cond thenBlk elseBlk =>
    have hcond : (e.resolve canon cond).eval I ρ' = cond.eval I ρ :=
      h.eval_resolve hb (fun v hv => hread v (by
        rw [visitTerminatorValues, hv]
        exact List.mem_singleton_self v)) hρ hagree
    rw [Graph.resolveTerm]
    generalize e.resolve canon cond = a at hcond ⊢
    have htarget : (Terminator.condBr cond thenBlk elseBlk).target I ρ =
        .point (if I.truth (a.eval I ρ') = true then thenBlk else elseBlk) 0 := by
      rw [hcond]
      rfl
    rw [htarget]
    -- a branch on a literal, or to one block whatever the condition
    have hplain : ∀ a : Operand, (if thenBlk = elseBlk then Terminator.br thenBlk
        else .condBr a thenBlk elseBlk).target I ρ' =
          .point (if I.truth (a.eval I ρ') = true then thenBlk else elseBlk) 0 := by
      intro a
      split
      · next heq =>
        rw [← heq, ite_self]
        rfl
      · rfl
    cases a with
    | constBool y =>
      rw [Operand.eval, hI.truth]
      cases y <;> rfl
    | _ => exact hplain _

/-- An entry of a related list. -/
lemma exists_of_forall₂ {α β : Type} {R : α → β → Prop} {l : List α} {u : List β}
    (h : List.Forall₂ R l u) : ∀ {k : ℕ} {a : α}, l[k]? = some a → ∃ o, u[k]? = some o ∧ R a o := by
  induction h with
  | nil =>
    intro k a ha
    cases ha
  | cons hr _ ih =>
    intro k a ha
    cases k with
    | zero =>
      obtain rfl := Option.some.inj ha
      exact ⟨_, rfl, hr⟩
    | succ k => exact ih ha

lemma flatten_take_succ {o : List Inst} (h : outs[k]? = some o) :
    (outs.take (k + 1)).flatten = (outs.take k).flatten ++ o := by
  rw [List.take_add_one, h, List.flatten_append]
  exact congrArg _ (List.flatten_singleton)

lemma getElem?_flatten {y : Inst} (h : outs[k]? = some [y]) :
    (outs.flatten ++ tail)[(outs.take k).flatten.length]? = some y := by
  obtain ⟨hk, hget⟩ := List.getElem?_eq_some_iff.mp h
  have hsplit : outs.flatten = (outs.take k).flatten ++ (y :: (outs.drop (k + 1)).flatten) := by
    calc outs.flatten = (outs.take k ++ outs.drop k).flatten := by rw [List.take_append_drop]
      _ = (outs.take k).flatten ++ (y :: (outs.drop (k + 1)).flatten) := by
        rw [List.flatten_append, List.drop_eq_getElem_cons hk, hget, List.flatten_cons]
        rfl
  rw [hsplit, List.append_assoc, List.getElem?_append_right le_rfl, Nat.sub_self]
  rfl

end Steps

/-! ### The end of a block -/

section Leave

variable {live : BlockId → Prop} {b : BlockId} {blk : Block} {ρ ρ' ρ'' : ValueId → V}
  {tail : List Inst}

/-- The values at a block's end are none that are there before it, so both runs still agree. -/
lemma Ready.agree_tail (hf : f.Lowered) (h : Ready f I enc e canon) {k : ℕ}
    (htail : Tail f e canon (fun d _ => f.Reached d) b tail)
    (hkeep : ∀ v, (∀ x ∈ tail, x.result ≠ some v) → ρ'' v = ρ' v)
    (hagree : Agree f e canon ρ ρ' b k) : Agree f e canon ρ ρ'' b k := by
  intro c hc hself hnone
  rw [hkeep c fun x hx hres => ?_]
  · exact hagree c hc hself hnone
  · obtain ⟨d, j, inst, c', _, hm, rfl⟩ := htail.moved x hx
    obtain rfl : c' = c := Option.some.inj (hm.result.symm.trans hres)
    exact h.not_avail hf hm hc

/-- **Behind a branch the values that moved above hold what they are computed from**: those of the
block that was left, which were computed last, and those of the blocks above it. -/
lemma Ready.computed_branch (hf : f.Lowered) (h : Ready f I enc e canon) (hb : f.Reached b)
    (hblk : f.BlockAt b blk) (htail : Tail f e canon (fun d _ => f.Reached d) b tail)
    (hkeep : ∀ v, (∀ x ∈ tail, x.result ≠ some v) → ρ'' v = ρ' v)
    (hvalues : ∀ x ∈ tail, ∀ r, x.result = some r → x.kind.value I enc ρ'' = some (ρ'' r))
    (hcomputed : Computed f I enc e canon ρ' b) {t : BlockId} (ht : t ∈ successors blk.term) :
    Computed f I enc e canon ρ'' t := by
  intro t₀ d j inst c hm htdom hne
  have hdb : f.Dom t₀ b := Dominance.Dominates.pred htdom hne (hf.wellFormed.edge_cfg hblk ht)
  by_cases heq : t₀ = b
  · subst heq
    exact hvalues _ (htail.complete d j inst c hm.reached hm) c hm.result
  · have hfree : ∀ v, v = c ∨ v ∈ visitValueOperands (e.written canon inst).kind →
        ρ'' v = ρ' v := by
      refine fun v hv => hkeep v fun x hx hres => ?_
      obtain ⟨d', j', inst', c', _, hm', rfl⟩ := htail.moved x hx
      obtain rfl : c' = v := Option.some.inj (hm'.result.symm.trans hres)
      rcases hv with rfl | hv
      · exact heq (Option.some.inj (hm.place.symm.trans hm'.place))
      · obtain ⟨_, hparam | ⟨i, m, _, hplace⟩⟩ := h.place_of_mem hf hm hv
        · exact hf.ssa.param hparam ⟨inst', hm'.instAt, hm'.result⟩
        · rw [Graph.placeOf_some hm'.place] at hplace
          exact heq (hdb.antisymm hplace hb)
    rw [InstKind.value_congr fun v hv => hfree v (Or.inr hv), hcomputed t₀ d j inst c hm hdb heq,
      hfree c (Or.inl rfl)]

end Leave

/-! ### The simulation -/

section Simulation

variable {live : BlockId → Prop}

section Point

variable {b k : ℕ} {blk : Block} {inst : Inst} {ρ ρ' : ValueId → V} {w : World}
  {outs : List (List Inst)} {tail : List Inst}

/-- **An instruction that is written** is run by both. -/
lemma Emitted.step_written (hf : f.Lowered) (hI : I.Lawful enc) (h : Ready f I enc e canon)
    (hg : Emitted f e canon g live) (hlive : live b) (hblk : f.BlockAt b blk)
    (hout : g.BlockAt b ⟨blk.id, outs.flatten ++ tail, e.resolveTerm canon blk.term⟩)
    (hfates : List.Forall₂ (Fate e canon b) blk.insts outs)
    (htail : Tail f e canon (fun d _ => f.Reached d) b tail) (hsat : f.Sat I enc ρ b k)
    (hagree : Agree f e canon ρ ρ' b k) (hcomputed : Computed f I enc e canon ρ' b)
    (hget : blk.insts[k]? = some inst) (ho : outs[k]? = some [e.written canon inst])
    (hstays : Stays e canon b inst) :
    ∃ s t m, Segment (f.next I) obs ⟨.point b k, ρ, w⟩ s ∧
      Segment (g.next I) obs ⟨.point b (outs.take k).flatten.length, ρ', w⟩ t ∧
      Beside f g I enc e canon live m s t := by
  have hb := (hg.block b hlive).1
  have hinst : f.InstAt b k inst := ⟨blk, hblk, hget⟩
  have hs := Func.next_point (I := I) (k := k) (ρ := ρ) (w := w) hblk
  have ht := Func.next_point (I := I) (k := (outs.take k).flatten.length) (ρ := ρ') (w := w) hout
  have hlen : (outs.take (k + 1)).flatten.length = (outs.take k).flatten.length + 1 := by
    rw [flatten_take_succ ho, List.length_append]
    rfl
  have hrun := h.run_written hf hI hb hinst hsat hagree w
  rw [hg.values] at ht
  cases hr : inst.run I f.values ρ w with
  | none =>
    rw [Block.next_trap hget hr] at hs
    rw [Block.next_trap (getElem?_flatten ho) (hrun.trans hr)] at ht
    exact ⟨_, _, 0, Segment.single hs, Segment.single ht,
      Beside.ended fun _ _ heq => by cases heq⟩
  | some r =>
    obtain ⟨x, w'⟩ := r
    rw [Block.next_inst hget hr] at hs
    rw [Block.next_inst (getElem?_flatten ho) (hrun.trans hr), ← hlen] at ht
    have hvalue : inst.kind.isPure = true → inst.kind.value I enc ρ = some x := by
      intro hpure
      obtain ⟨y, hy⟩ : ∃ y, inst.kind.value I enc ρ = some y := InstKind.exists_value hpure ρ
      have hry : inst.run I f.values ρ w = some (y, w) := Inst.run_of_value hI hy
      rw [hy, (Prod.mk.inj (Option.some.inj (hr.symm.trans hry))).1]
    exact ⟨_, _, _, Segment.single hs, Segment.single ht,
      Beside.point hlive hblk hout hfates htail (List.getElem?_eq_some_iff.mp hget).1
        (hsat.next hf.wellFormed hf.ssa hb hinst hvalue) (hagree.next hinst x)
        (h.computed_next hf hb hinst hstays hcomputed x)⟩

/-- **An instruction that was dropped** is run by the source alone. -/
lemma Emitted.step_dropped (hf : f.Lowered) (hI : I.Lawful enc) (h : Ready f I enc e canon)
    (hg : Emitted f e canon g live) (hlive : live b) (hblk : f.BlockAt b blk)
    (hout : g.BlockAt b ⟨blk.id, outs.flatten ++ tail, e.resolveTerm canon blk.term⟩)
    (hfates : List.Forall₂ (Fate e canon b) blk.insts outs)
    (htail : Tail f e canon (fun d _ => f.Reached d) b tail) (hsat : f.Sat I enc ρ b k)
    (hagree : Agree f e canon ρ ρ' b k) (hcomputed : Computed f I enc e canon ρ' b)
    (hget : blk.insts[k]? = some inst) (ho : outs[k]? = some []) (hneed : Needless e canon b inst) :
    ∃ s m, m < blk.insts.length - k ∧ f.next I ⟨.point b k, ρ, w⟩ = some s ∧
      obs s = obs ⟨.point b k, ρ, w⟩ ∧ Beside f g I enc e canon live m s
        ⟨.point b (outs.take k).flatten.length, ρ', w⟩ := by
  have hb := (hg.block b hlive).1
  have hinst : f.InstAt b k inst := ⟨blk, hblk, hget⟩
  have hlt := (List.getElem?_eq_some_iff.mp hget).1
  have hs := Func.next_point (I := I) (k := k) (ρ := ρ) (w := w) hblk
  obtain ⟨x, hx⟩ : ∃ x, inst.kind.value I enc ρ = some x := InstKind.exists_value hneed.1 ρ
  rw [Block.next_inst hget (Inst.run_of_value hI hx)] at hs
  have hpoint := Beside.point (w := w) hlive hblk hout hfates htail hlt
    (hsat.next hf.wellFormed hf.ssa hb hinst fun _ => hx)
    (h.agree_drop hf hb hinst hneed hsat hagree hcomputed hx) hcomputed
  rw [flatten_take_succ ho, List.append_nil] at hpoint
  exact ⟨_, _, Nat.sub_lt_sub_left hlt (Nat.lt_succ_self k), hs, rfl, hpoint⟩

/-- **The end of a block**: the values that moved there are computed, and both go where the source
goes. -/
lemma Emitted.step_leave (hf : f.Lowered) (hI : I.Lawful enc) (h : Ready f I enc e canon)
    (hg : Emitted f e canon g live) (hlive : live b) (hblk : f.BlockAt b blk)
    (hout : g.BlockAt b ⟨blk.id, outs.flatten ++ tail, e.resolveTerm canon blk.term⟩)
    (htail : Tail f e canon (fun d _ => f.Reached d) b tail)
    (hsat : f.Sat I enc ρ b blk.insts.length) (hagree : Agree f e canon ρ ρ' b blk.insts.length)
    (hcomputed : Computed f I enc e canon ρ' b) :
    ∃ s t m, Segment (f.next I) obs ⟨.point b blk.insts.length, ρ, w⟩ s ∧
      Segment (g.next I) obs ⟨.point b outs.flatten.length, ρ', w⟩ t ∧
      Beside f g I enc e canon live m s t := by
  have hb := (hg.block b hlive).1
  have hs := Func.next_point (I := I) (k := blk.insts.length) (ρ := ρ) (w := w) hblk
  have hle : outs.flatten.length ≤ (outs.flatten ++ tail).length := by
    rw [List.length_append]
    exact Nat.le_add_right _ _
  obtain ⟨ρ'', hsilent, hkeep, hvalues⟩ := silent_of_tail hI hout w tail outs.flatten.length ρ'
    List.drop_left hle (h.isPure_tail htail) (h.own_tail hf htail) htail.ordered
  have hagree' := h.agree_tail hf htail hkeep hagree
  have hread : ∀ v ∈ visitTerminatorValues blk.term, f.Avail v b blk.insts.length :=
    fun v hv => hf.wellFormed.avail_of_read hf.ssa hb hblk le_rfl (by rwa [Block.readsAt_term])
  rw [Block.next_term (List.getElem?_eq_none le_rfl),
    ← h.target_resolveTerm hI hb hread hsat hagree'] at hs
  have hleave := Func.next_point (I := I) (k := (outs.flatten ++ tail).length) (ρ := ρ'')
    (w := w) hout
  rw [Block.next_term (List.getElem?_eq_none le_rfl)] at hleave
  rcases Terminator.target_cases I ρ'' (e.resolveTerm canon blk.term) with
    ⟨t, ht, heq⟩ | ⟨v, heq⟩ | heq
  · have hlive' : live t := by
      obtain ⟨_, blk₁, _, _, hblk₁, _, _, _, hsucc⟩ := hg.block b hlive
      exact hsucc t (hblk₁.unique hblk ▸ ht)
    have hsucc := mem_successors_resolveTerm ht
    obtain ⟨_, blk', outs', tail', hblk', hout', hfates', htail', _⟩ := hg.block t hlive'
    rw [heq] at hs hleave
    exact ⟨_, _, _, Segment.single hs, hsilent.segment hleave,
      Beside.point hlive' hblk' hout' hfates' htail' (Nat.zero_le _)
        (hsat.branch hf.wellFormed hblk hsucc)
        (fun c hc => hagree' c (hc.of_branch hf.wellFormed hblk hsucc))
        (h.computed_branch hf hb hblk htail hkeep hvalues hcomputed hsucc)⟩
  · rw [heq] at hs hleave
    exact ⟨_, _, 0, Segment.single hs, hsilent.segment hleave,
      Beside.ended fun _ _ hpoint => by cases hpoint⟩
  · rw [heq] at hs hleave
    exact ⟨_, _, 0, Segment.single hs, hsilent.segment hleave,
      Beside.ended fun _ _ hpoint => by cases hpoint⟩

end Point

/-- **One step beside the source**: both run an instruction, or the source runs one that was
dropped, or both leave a block. -/
theorem Emitted.stutters (hf : f.Lowered) (hI : I.Lawful enc) (h : Ready f I enc e canon)
    (hg : Emitted f e canon g live) :
    Stutters (f.next I) obs (g.next I) obs (Beside f g I enc e canon live) where
  obs_eq hQ := by
    cases hQ <;> rfl
  step := by
    intro n s t hQ
    cases hQ with
    | @ended n ctl ρ ρ' w hend =>
      refine Or.inl ?_
      cases ctl with
      | point b k => exact absurd rfl (hend b k)
      | returned v => exact ⟨rfl, rfl⟩
      | stopped => exact ⟨rfl, rfl⟩
    | @point b k blk outs tail ρ ρ' w hlive hblk hout hfates htail hk hsat hagree hcomputed =>
      refine Or.inr ?_
      cases hget : blk.insts[k]? with
      | some inst =>
        obtain ⟨o, ho, ⟨rfl, hstays⟩ | ⟨rfl, hneed⟩⟩ := exists_of_forall₂ hfates hget
        · exact Or.inr (hg.step_written hf hI h hlive hblk hout hfates htail hsat hagree hcomputed
            hget ho hstays)
        · refine Or.inl ⟨?_, hg.step_dropped hf hI h hlive hblk hout hfates htail hsat hagree
            hcomputed hget ho hneed⟩
          rw [Func.next_point hout]
          exact Option.some_ne_none _
      | none =>
        obtain rfl : k = blk.insts.length := Nat.le_antisymm hk (List.getElem?_eq_none_iff.mp hget)
        rw [List.take_of_length_le hfates.length_eq.ge]
        exact Or.inr (hg.step_leave hf hI h hlive hblk hout htail hsat hagree hcomputed)

/-- No block is above the entry. -/
lemma Func.WellFormed.eq_entry_of_dom (hwf : f.WellFormed) {t : BlockId} (h : f.Dom t 0) :
    t = 0 := by
  have hroot : f.Dom t (Dominator.entryId f.cfg) := by rwa [hwf.entryId_cfg]
  exact hroot.eq_root.trans hwf.entryId_cfg

/-- Both runs set out together. -/
lemma Emitted.exists_beside (hf : f.Lowered) (hg : Emitted f e canon g live) (ρ : ValueId → V)
    (w : World) : ∃ n, Beside f g I enc e canon live n (start ρ w) (start ρ w) := by
  obtain ⟨_, blk, outs, tail, hblk, hout, hfates, htail, _⟩ := hg.block 0 hg.entry
  refine ⟨_, Beside.point hg.entry hblk hout hfates htail (Nat.zero_le _)
    (hf.wellFormed.sat_entry ρ) (fun _ _ _ _ => rfl) ?_⟩
  exact fun t d j inst c _ hdom hne => absurd (hf.wellFormed.eq_entry_of_dom hdom) hne

end Simulation

/-! ### The pass -/

/-- **What is left after `detach_unreached`.** -/
lemma Elaborated.emitted (hf : f.Lowered) {blocks : List Block} (h : Elaborated f e canon blocks) :
    ∃ blocks', detachUnreached blocks = some blocks' ∧
      Emitted f e canon { f with blocks := blocks' } (Reached (Leads blocks) (· = 0)) ∧
      Detached f { f with blocks := blocks' } (Reached (Leads blocks) (· = 0)) := by
  have hne : blocks ≠ [] := fun hnil => hf.wellFormed.nonempty (List.length_eq_zero_iff.mp (by
    rw [← h.length, hnil]
    rfl))
  -- every block leads where its source does
  have hsucc : ∀ {b c}, Leads blocks b c → ∃ blk, f.BlockAt b blk ∧ c ∈ successors blk.term := by
    rintro b c ⟨blk', hget, hc⟩
    obtain ⟨blk, hblk⟩ := Func.exists_blockAt_of_lt
      (h.length ▸ (List.getElem?_eq_some_iff.mp hget).1 : b < f.blocks.length)
    refine ⟨blk, hblk, ?_⟩
    by_cases hb : f.Reached b
    · obtain ⟨outs, tail, hget', _⟩ := h.written b blk hblk hb
      rw [Option.some.inj (hget.symm.trans hget')] at hc
      exact mem_successors_resolveTerm hc
    · rw [Option.some.inj (hget.symm.trans (h.empty b blk hblk hb))] at hc
      exact hc
  have hin : ∀ blk ∈ blocks, ∀ t ∈ successors blk.term, t < blocks.length := by
    intro blk hmem t ht
    obtain ⟨b, hb⟩ := List.mem_iff_getElem?.mp hmem
    obtain ⟨src, hsrc, ht'⟩ := hsucc ⟨blk, hb, ht⟩
    exact h.length ▸ hf.wellFormed.target b src hsrc t ht'
  have hreached : ∀ b, Reached (Leads blocks) (· = 0) b → f.Reached b := by
    intro b hb
    refine hb.least (P := f.Reached) ?_ ?_
    · rintro _ rfl
      have hroot : f.Reached (Dominator.entryId f.cfg) := Dominance.Reachable.root
      rwa [hf.wellFormed.entryId_cfg] at hroot
    · intro c d hc hcd
      obtain ⟨src, hsrc, hd⟩ := hsucc hcd
      exact hc.step (hf.wellFormed.edge_cfg hsrc hd)
  -- a block that is written has the id of its source
  have hid : ∀ (b : BlockId) (blk : Block), blocks[b]? = some blk → blk.id = b := by
    intro b blk' hget
    obtain ⟨blk, hblk⟩ := Func.exists_blockAt_of_lt
      (h.length ▸ (List.getElem?_eq_some_iff.mp hget).1 : b < f.blocks.length)
    rw [← hf.wellFormed.id_eq b blk hblk]
    by_cases hb : f.Reached b
    · obtain ⟨outs, tail, hget', _⟩ := h.written b blk hblk hb
      rw [Option.some.inj (hget.symm.trans hget')]
    · rw [Option.some.inj (hget.symm.trans (h.empty b blk hblk hb))]
  obtain ⟨blocks', hdetach, hlength, hsame, hempty⟩ := detachUnreached_spec hne hin
  refine ⟨blocks', hdetach, ⟨rfl, Reached.root rfl, fun b hb => ⟨hreached b hb, ?_⟩⟩, rfl,
    hlength.trans h.length, fun b blk' hget hb => ?_⟩
  · obtain ⟨defs, hwalk⟩ := hf.wellFormed.exists_walk (hreached b hb)
    obtain ⟨blk, hblk⟩ := hf.wellFormed.blockAt_of_walk hwalk
    obtain ⟨outs, tail, hget, hfates, htail⟩ := h.written b blk hblk (hreached b hb)
    exact ⟨blk, outs, tail, hblk, (hsame b hb).trans hget, hfates, htail,
      fun t ht => hb.step ⟨_, hget, ht⟩⟩
  · obtain ⟨blk, hblk, rfl⟩ := Option.map_eq_some_iff.mp ((hempty b hb).symm.trans hget)
    exact ⟨hid b blk hblk, rfl, rfl⟩

/-- **The pass ends on every lowered function**, and writes what was elaborated. -/
theorem egraphPass_emitted (hf : f.Lowered) (hfit : f.blocks.length ≤ Dominator.finalMark)
    (hI : I.Lawful enc) : ∃ g e canon live, egraphPass f = some g ∧ Ready f I enc e canon ∧
      Emitted f e canon g live ∧ Detached f g live := by
  have hcfg := hf.wellFormed.cfg
  obtain ⟨doms, dom, hbuild, hbuilt⟩ :=
    Dominator.build_spec hcfg (hf.wellFormed.idsFit hfit)
  have ht : f.TreeOf doms dom := ⟨hcfg, hbuilt⟩
  obtain ⟨loops, hloops⟩ : ∃ loops, buildLoops f.cfg dom = some loops :=
    Option.isSome_iff_exists.mp (buildLoops_isSome hcfg)
  obtain ⟨e₀, e, canon, key, hopt, hw, hh⟩ := removePureAndOptimize_spec hf hI ht hloops
  have hready := hh.ready hf hw
  obtain ⟨s, hrun, hel⟩ := hready.elaborate_walk hf ht
  obtain ⟨blocks', hdetach, hemit, hdetached⟩ := hel.emitted hf
  refine ⟨{ f with blocks := blocks' }, e, canon, _, ?_, hready, hemit, hdetached⟩
  rw [egraphPass, if_neg hf.wellFormed.nonempty, hbuild, Option.bind_some, hloops, Option.bind_some,
    hopt, Option.bind_some, elaborate, if_neg hf.wellFormed.nonempty]
  dsimp only
  rw [hrun, Option.bind_some, hdetach]
  rfl

/-- An encoding of a tagged value reads its operands alone. -/
def External.Encodes {World : Type} (ext : External World) : Prop :=
  ∀ k, OtherKind.isEncode k = true →
    ∃ g : List Word → Word, ∀ args w, ext.act (.other k) args w = some (g args, w)

/-- The machine's words obey the rules of the pass. -/
lemma wordInterp_lawful {World : Type} {ext : External World} (hext : ext.Ieee)
    (henc : ext.Encodes) : ∃ enc, (wordInterp ext).Lawful enc := by
  have hchoice : ∀ k, ∃ g : List Word → Word, OtherKind.isEncode k = true →
      ∀ args w, ext.act (.other k) args w = some (g args, w) := by
    intro k
    by_cases hk : OtherKind.isEncode k = true
    · obtain ⟨g, hg⟩ := henc k hk
      exact ⟨g, fun _ => hg⟩
    · exact ⟨fun _ => 0, fun hk' => absurd hk' hk⟩
  choose enc hencode using hchoice
  refine ⟨enc, ?_, fun x => rfl, fun h ρ => pureValue_of_applyRewrites hext h ρ, hencode⟩
  intro b
  cases b <;> rfl

/-- **The pass keeps the behaviour of every function it is given**, on words with the standard's
doubles: it ends, and from every register file and world the two functions make the same actions
and return the same value. -/
theorem egraphPass_preserves {World : Type} {ext : External World} (hext : ext.Ieee)
    (henc : ext.Encodes) (hf : f.Lowered) (hfit : f.blocks.length ≤ Dominator.finalMark) :
    ∃ g, egraphPass f = some g ∧ Equivalent (wordInterp ext) f g := by
  obtain ⟨enc, hI⟩ := wordInterp_lawful hext henc
  obtain ⟨g, e, canon, live, hpass, hready, hemit, _⟩ := egraphPass_emitted hf hfit hI
  exact ⟨g, hpass, equivalent_of_simulates (hemit.stutters hf hI hready).simulates fun ρ w =>
    hemit.exists_beside hf ρ w⟩

/-! ### A loop with an invariant value -/

/-- The results of two instructions differ. -/
def Inst.apart (x y : Inst) : Bool := x.result.all fun r => y.result ≠ some r

/-- A test of what the pass is given, beside well-formedness. -/
def Func.checkLowered (f : Func) : Bool :=
  decide (f.blocks.Pairwise fun p q => p.insts.all fun x => q.insts.all x.apart) &&
  f.blocks.all fun blk => decide (blk.insts.Pairwise fun x y => x.apart y) &&
    blk.insts.all fun inst => inst.result.all (· ∉ f.params) && !inst.kind.isLate &&
      inst.fixedWidth f.values

/-- Instructions with one result are not apart. -/
lemma Inst.not_apart {x y : Inst} {v : ValueId} (hx : x.result = some v) (hy : y.result = some v) :
    ¬ x.apart y = true := by
  rw [Inst.apart, hx, hy]
  simp

/-- **A function that passes both tests is lowered.** -/
lemma Func.lowered_of_check (hwf : f.WellFormed) (h : f.checkLowered = true) : f.Lowered := by
  simp only [Func.checkLowered, Bool.and_eq_true, List.all_eq_true, decide_eq_true_eq,
    Option.all_eq_true, Bool.not_eq_true'] at h
  obtain ⟨hblocks, hinsts⟩ := h
  have hmem : ∀ b inst, f.HasInst b inst → ∃ blk ∈ f.blocks, inst ∈ blk.insts := by
    rintro b inst ⟨blk, hblk, hinst⟩
    exact ⟨blk, List.mem_of_getElem? hblk, hinst⟩
  -- two definitions of a value are at one place
  have hle : ∀ {v b k b' k'}, f.DefAt v b k → f.DefAt v b' k' → ¬ b < b' ∧ (b = b' → ¬ k < k') := by
    rintro v b k b' k' ⟨x, ⟨p, hp, hx⟩, hxv⟩ ⟨y, ⟨q, hq, hy⟩, hyv⟩
    refine ⟨fun hlt => ?_, ?_⟩
    · obtain ⟨hb, rfl⟩ := List.getElem?_eq_some_iff.mp hp
      obtain ⟨hb', rfl⟩ := List.getElem?_eq_some_iff.mp hq
      exact Inst.not_apart hxv hyv (List.pairwise_iff_getElem.mp hblocks b b' hb hb' hlt x
        (List.mem_of_getElem? hx) y (List.mem_of_getElem? hy))
    · rintro rfl hlt
      obtain rfl := hp.unique hq
      have hpair := (hinsts p (List.mem_of_getElem? hp)).1
      obtain ⟨hk, rfl⟩ := List.getElem?_eq_some_iff.mp hx
      obtain ⟨hk', rfl⟩ := List.getElem?_eq_some_iff.mp hy
      exact Inst.not_apart hxv hyv (List.pairwise_iff_getElem.mp hpair k k' hk hk' hlt)
  refine ⟨hwf, ⟨fun hdef hdef' => ?_, ?_⟩, ?_, ?_⟩
  · have hlt := hle hdef hdef'
    have hgt := hle hdef' hdef
    omega
  · rintro v b k hparam ⟨inst, ⟨blk, hblk, hinst⟩, hres⟩
    exact ((hinsts blk (List.mem_of_getElem? hblk)).2 inst (List.mem_of_getElem? hinst)).1.1 v hres
      hparam
  · intro b inst hinst
    obtain ⟨blk, hblk, hmem⟩ := hmem b inst hinst
    exact ((hinsts blk hblk).2 inst hmem).1.2
  · intro b inst hinst
    obtain ⟨blk, hblk, hmem⟩ := hmem b inst hinst
    exact ((hinsts blk hblk).2 inst hmem).2

/-- `s = 0; while (s < n) s = s + (n * 8 + n * 8); return s + 0;`, with `s` in memory. -/
def scaledSum : Func where
  name := "scaledSum"
  params := [0]
  blocks := [
    ⟨0, [⟨some 1, .alloca .i64⟩, ⟨none, .store (.constI64 0) (.value 1) 0⟩], .br 1⟩,
    ⟨1, [⟨some 2, .load .i64 (.value 1) 0⟩, ⟨some 3, .iCmp .slt (.value 2) (.value 0)⟩],
      .condBr (.value 3) 2 3⟩,
    ⟨2, [⟨some 4, .binOp .mul (.value 0) (.constI64 8)⟩,
        ⟨some 5, .binOp .mul (.value 0) (.constI64 8)⟩,
        ⟨some 6, .binOp .add (.value 4) (.value 5)⟩, ⟨some 7, .binOp .add (.value 2) (.value 6)⟩,
        ⟨none, .store (.value 7) (.value 1) 0⟩], .br 1⟩,
    ⟨3, [⟨some 8, .load .i64 (.value 1) 0⟩, ⟨some 9, .binOp .add (.value 8) (.constI64 0)⟩],
      .ret (some (.value 9))⟩]
  values := [.i64, .ptr, .i64, .bool, .i64, .i64, .i64, .i64, .i64, .i64]

/-- One product is left, a shift ahead of the loop, and the sum behind it. -/
def scaledSumHoisted : Func :=
  { scaledSum with
    blocks := [
      ⟨0, [⟨some 1, .alloca .i64⟩, ⟨none, .store (.constI64 0) (.value 1) 0⟩,
          ⟨some 4, .binOp .shl (.value 0) (.constI64 3)⟩,
          ⟨some 6, .binOp .add (.value 4) (.value 4)⟩], .br 1⟩,
      ⟨1, [⟨some 2, .load .i64 (.value 1) 0⟩, ⟨some 3, .iCmp .slt (.value 2) (.value 0)⟩],
        .condBr (.value 3) 2 3⟩,
      ⟨2, [⟨some 7, .binOp .add (.value 2) (.value 6)⟩, ⟨none, .store (.value 7) (.value 1) 0⟩],
        .br 1⟩,
      ⟨3, [⟨some 8, .load .i64 (.value 1) 0⟩], .ret (some (.value 8))⟩] }

/-- A world of one memory cell, with the standard's doubles. -/
def oneCell : External Word where
  fBin op x y := ((Rewrite.floatOp op (f64OfWord x) (f64OfWord y)).map wordOfF64).getD 0
  fCmp p x y := Rewrite.fcmp p.rewrite (f64OfWord x) (f64OfWord y)
  convert op x := if op = .siToFp then wordOfF64 (F64.ofInt x.toInt) else 0
  addr _ := 0
  act a args w :=
    match a with
    | .store _ _ => some (0, args.headD 0)
    | .load _ _ => some (w, w)
    | .alloca _ _ | .allocaBytes _ _ | .other _ => some (0, w)

lemma oneCell_ieee : oneCell.Ieee where
  fBin op x y r h := by
    change ((Rewrite.floatOp op (f64OfWord x) (f64OfWord y)).map wordOfF64).getD 0 = _
    rw [h]
    rfl
  fCmp _ _ _ := rfl
  siToFp _ := rfl

lemma oneCell_encodes : oneCell.Encodes := fun _ _ => ⟨fun _ => 0, fun _ _ => rfl⟩

lemma scaledSum_check : scaledSum.check [[0], [0, 1], [0, 1, 2, 3], [0, 1, 2, 3]] = true := by
  decide

theorem egraphPass_preserves_scaledSum :
    egraphPass scaledSum = some scaledSumHoisted ∧
      Equivalent (wordInterp oneCell) scaledSum scaledSumHoisted := by
  have hpass : egraphPass scaledSum = some scaledSumHoisted := by decide +kernel
  have hlowered : scaledSum.Lowered :=
    Func.lowered_of_check (Func.wellFormed_of_check scaledSum_check) (by decide)
  obtain ⟨g, hg, hequiv⟩ := egraphPass_preserves oneCell_ieee oneCell_encodes hlowered (by decide)
  rw [Option.some.inj (hpass.symm.trans hg)]
  exact ⟨hg, hequiv⟩

end Torajs.Egraph
