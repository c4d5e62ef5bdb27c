import ToraJs.Egraph.LoopRotate

/-!
# Loop rotation preserves meaning

The run of the rotated function follows the run of the original point by point, with the
same registers but for the header's own values and their copies.  Where the original
leaves the latch for the header and runs the test there, the rotated function runs the
copies in the latch; both are silent, and they branch alike.

The rotated function is well formed again, so the argument carries over all rotations of
all rounds.
-/

namespace Torajs.Egraph

open Simulation

/-! ### What a planned rotation is -/

/-- What `rotatable` establishes: a header of duplicable instructions whose values are
defined once and read only there, and a latch that branches to it. -/
structure Rotatable (f : Func) (r : Rotation) (h l : Block) (cond : Operand)
    (thenBlk elseBlk : BlockId) : Prop where
  headerAt : f.BlockAt r.header h
  latchAt : f.BlockAt r.latch l
  latch_ne : r.latch ≠ r.header
  latch_term : l.term = .br r.header
  header_term : h.term = .condBr cond thenBlk elseBlk
  result : ∀ inst ∈ h.insts, inst.result.isSome
  dup : ∀ inst ∈ h.insts, duplicable inst.kind
  nodup : h.defined.Nodup
  local_result : ∀ b inst, f.HasInst b inst → ∀ v ∈ h.defined, inst.result = some v →
    b = r.header
  local_read : ∀ b blk k, f.BlockAt b blk → ∀ v ∈ blk.readsAt k, v ∈ h.defined → b = r.header

/-- A rotation that may be applied. -/
def IsRotatable (f : Func) (r : Rotation) : Prop :=
  ∃ h l cond thenBlk elseBlk, Rotatable f r h l cond thenBlk elseBlk

variable {f : Func} {r : Rotation} {h l : Block} {cond : Operand} {thenBlk elseBlk : BlockId}

lemma mem_defined {blk : Block} {v : ValueId} :
    v ∈ blk.defined ↔ ∃ (j : ℕ) (inst : Inst), blk.insts[j]? = some inst ∧
      inst.result = some v := by
  rw [Block.defined, List.mem_filterMap]
  constructor
  · rintro ⟨inst, hinst, hv⟩
    obtain ⟨j, hj⟩ := List.mem_iff_getElem?.mp hinst
    exact ⟨j, inst, hj, hv⟩
  · rintro ⟨j, inst, hj, hv⟩
    exact ⟨inst, List.mem_of_getElem? hj, hv⟩

/-- Where every instruction has a result, distinct results have distinct positions. -/
lemma position_unique {insts : List Inst} (hresult : ∀ inst ∈ insts, inst.result.isSome)
    (hnd : (insts.filterMap Inst.result).Nodup) {j k : ℕ} {inst inst' : Inst} {v : ValueId}
    (hj : insts[j]? = some inst) (hv : inst.result = some v) (hk : insts[k]? = some inst')
    (hv' : inst'.result = some v) : j = k := by
  have hmap : insts.map Inst.result = (insts.filterMap Inst.result).map some := by
    clear hnd hj hk
    induction insts with
    | nil => rfl
    | cons i insts ih =>
      obtain ⟨x, hx⟩ := Option.isSome_iff_exists.mp (hresult i List.mem_cons_self)
      rw [List.map_cons, List.filterMap_cons_some hx, List.map_cons, hx,
        ih fun i hi => hresult i (List.mem_cons_of_mem _ hi)]
  have hnodup : (insts.map Inst.result).Nodup := hmap ▸ hnd.map (Option.some_injective _)
  have hlt : j < (insts.map Inst.result).length := by
    rw [List.length_map]
    exact (List.getElem?_eq_some_iff.mp hj).1
  refine (List.getElem?_inj hlt hnodup).mp ?_
  rw [List.getElem?_map, List.getElem?_map, hj, hk, Option.map_some, Option.map_some, hv, hv']

/-- No copy is duplicated. -/
lemma isCopy_of_duplicable {kind : InstKind} (hdup : duplicable kind = true) :
    kind.isCopy = false := by
  cases kind <;> first | rfl | cases hdup

namespace Rotatable

variable (hr : Rotatable f r h l cond thenBlk elseBlk)

include hr

/-- A value of the header is defined once. -/
lemma onlyDef (hwf : f.WellFormed) {j : ℕ} {inst : Inst} {v : ValueId}
    (hj : h.insts[j]? = some inst) (hv : inst.result = some v) : f.OnlyDef v r.header j := by
  have hmem := List.mem_of_getElem? hj
  constructor
  · intro hparam
    have hcopy := hwf.param_copy _ inst ⟨h, hr.headerAt, hmem⟩ v hparam hv
    rw [isCopy_of_duplicable (hr.dup inst hmem)] at hcopy
    cases hcopy
  · intro b i blk inst' hblk hi hv'
    have hb := hr.local_result b inst' ⟨blk, hblk, List.mem_of_getElem? hi⟩ v
      (mem_defined.mpr ⟨j, inst, hj, hv⟩) hv'
    subst hb
    obtain rfl := hblk.unique hr.headerAt
    exact ⟨rfl, (position_unique hr.result hr.nodup hj hv hi hv').symm⟩

/-- A value of the header read in the header was defined further up. -/
lemma lt_of_read (hwf : f.WellFormed) {k : ℕ} {defs : List ValueId} (hwalk : f.Walk r.header k defs)
    {v : ValueId} (hv : v ∈ h.readsAt k) (hmem : v ∈ h.defined) :
    ∃ (j : ℕ) (inst : Inst), j < k ∧ h.insts[j]? = some inst ∧ inst.result = some v := by
  obtain ⟨j, inst, hj, hres⟩ := mem_defined.mp hmem
  exact ⟨j, inst, hwf.lt_of_read (hr.onlyDef hwf hj hres) hwalk hr.headerAt hv, hj, hres⟩

/-- The latch of the rotated function. -/
lemma applyRotation_eq :
    applyRotation f r =
      { f with
        values := (copyInsts f h.insts).values
        blocks := f.blocks.modify r.latch fun l =>
          { l with
            insts := l.insts ++ (copyInsts f h.insts).insts
            term := .condBr (cond.rename (copyInsts f h.insts).rename) thenBlk elseBlk } } := by
  have hat := hr.headerAt
  rw [Func.BlockAt] at hat
  rw [applyRotation, hat]
  obtain ⟨id, insts, term⟩ := h
  obtain rfl : term = _ := hr.header_term
  rfl

/-- The blocks of the rotated function: the latch is extended, the others stay. -/
lemma blockAt_iff {b : BlockId} {blk : Block} :
    (applyRotation f r).BlockAt b blk ↔
      (b = r.latch ∧ blk =
        { l with
          insts := l.insts ++ (copyInsts f h.insts).insts
          term := .condBr (cond.rename (copyInsts f h.insts).rename) thenBlk elseBlk }) ∨
      b ≠ r.latch ∧ f.BlockAt b blk := by
  have hat := hr.latchAt
  rw [Func.BlockAt] at hat
  rw [hr.applyRotation_eq, Func.BlockAt, List.getElem?_modify]
  by_cases hb : b = r.latch
  · subst hb
    rw [hat]
    simp only [if_true, Option.map_eq_map, Option.map_some, Option.some.injEq, true_and, ne_eq,
      not_true_eq_false, false_and, or_false]
    exact eq_comm
  · have hb' : r.latch ≠ b := Ne.symm hb
    simp only [if_neg hb', Option.map_eq_map, Option.map_id_fun', id_eq, hb, false_and, false_or,
      ne_eq, not_false_eq_true, true_and]
    rfl

lemma headerAt' : (applyRotation f r).BlockAt r.header h :=
  hr.blockAt_iff.mpr (Or.inr ⟨hr.latch_ne.symm, hr.headerAt⟩)

lemma length_copies : (copyInsts f h.insts).insts.length = h.insts.length ∧
    (copyInsts f h.insts).values.length = f.values.length + h.insts.length := by
  have := copyInsts_length (f := f) hr.result h.insts.length le_rfl
  rwa [List.take_length] at this

lemma values_prefix : f.values <+: (applyRotation f r).values := by
  have := copyInsts_values_prefix (f := f) hr.result h.insts.length le_rfl
  rw [List.take_length] at this
  rwa [hr.applyRotation_eq]

/-- The instruction at a point of the original latch, and at a point behind it. -/
lemma latch_insts {blk : Block} (hblk : (applyRotation f r).BlockAt r.latch blk) {i : ℕ} :
    (i < l.insts.length → blk.insts[i]? = l.insts[i]?) ∧
      blk.insts[l.insts.length + i]? = (copyInsts f h.insts).insts[i]? := by
  rcases hr.blockAt_iff.mp hblk with ⟨_, rfl⟩ | ⟨hne, _⟩
  · constructor
    · exact fun hi => List.getElem?_append_left hi
    · dsimp only
      rw [List.getElem?_append_right (Nat.le_add_right _ _), Nat.add_sub_cancel_left]
  · exact absurd rfl hne

/-- The renaming behind the first copies: a value keeps its name or has its copy's. -/
lemma rename_eq_or {i : ℕ} (hi : i ≤ h.insts.length) (v : ValueId) :
    (copyInsts f (h.insts.take i)).rename v = v ∨
      ∃ (j : ℕ) (inst : Inst), j < i ∧ h.insts[j]? = some inst ∧ inst.result = some v ∧
        (copyInsts f (h.insts.take i)).rename v = f.values.length + j := by
  by_cases hex : ∃ (j : ℕ) (inst : Inst), j < i ∧ h.insts[j]? = some inst ∧ inst.result = some v
  · obtain ⟨j, inst, hji, hj, hres⟩ := hex
    exact Or.inr ⟨j, inst, hji, hj, hres, rename_of_result hr.result hi hj hres
      (fun k inst' hk hres' => position_unique hr.result hr.nodup hk hres' hj hres) hji⟩
  · exact Or.inl (rename_of_notMem hr.result i hi fun j inst hji hj hres =>
      hex ⟨j, inst, hji, hj, hres⟩)

/-- How a value that the header reads is called behind the first instructions of the
latch's copies. -/
lemma rename_cases (hwf : f.WellFormed) {i : ℕ} (hi : i ≤ h.insts.length) {defs : List ValueId}
    (hwalk : f.Walk r.header i defs) {v : ValueId} (hv : v ∈ h.readsAt i) :
    (v ∉ h.defined ∧ (copyInsts f (h.insts.take i)).rename v = v) ∨
      ∃ (j : ℕ) (inst : Inst), j < i ∧ h.insts[j]? = some inst ∧ inst.result = some v ∧
        (copyInsts f (h.insts.take i)).rename v = f.values.length + j := by
  by_cases hmem : v ∈ h.defined
  · obtain ⟨j, inst, hji, hj, hres⟩ := hr.lt_of_read hwf hwalk hv hmem
    exact Or.inr ⟨j, inst, hji, hj, hres, rename_of_result hr.result hi hj hres
      (fun k inst' hk hres' => position_unique hr.result hr.nodup hk hres' hj hres) hji⟩
  · rcases hr.rename_eq_or hi v with hname | ⟨j, inst, _, hj, hres, _⟩
    · exact Or.inl ⟨hmem, hname⟩
    · exact absurd (mem_defined.mpr ⟨j, inst, hj, hres⟩) hmem

end Rotatable

/-! ### Running the copies -/

section Run

variable {V World : Type} {I : Interp V World}

lemma Operand.eval_rename {ρ ρ' : ValueId → V} {σ : ValueId → ValueId} {a : Operand}
    (heq : ∀ v, a.value? = some v → ρ v = ρ' (σ v)) : a.eval I ρ = (a.rename σ).eval I ρ' := by
  cases a with
  | value v => exact heq v rfl
  | _ => rfl

/-- A duplicable instruction and its renamed copy compute the same. -/
lemma pureValue_remap {ρ ρ' : ValueId → V} {σ : ValueId → ValueId} {kind : InstKind}
    (hdup : duplicable kind = true) (heq : ∀ v ∈ visitValueOperands kind, ρ v = ρ' (σ v)) :
    ∃ x, kind.pureValue I ρ = some x ∧ (remapOperands σ kind).pureValue I ρ' = some x := by
  have heval : ∀ a ∈ kind.operands, a.eval I ρ = (a.rename σ).eval I ρ' := fun a ha =>
    Operand.eval_rename fun v hv => heq v (mem_visitValueOperands ha hv)
  cases kind with
  | binOp op a b =>
    exact ⟨_, rfl, by
      rw [remapOperands, InstKind.pureValue, heval a (by simp [InstKind.operands]),
        heval b (by simp [InstKind.operands])]⟩
  | iCmp p a b =>
    exact ⟨_, rfl, by
      rw [remapOperands, InstKind.pureValue, heval a (by simp [InstKind.operands]),
        heval b (by simp [InstKind.operands])]⟩
  | fCmp p a b =>
    exact ⟨_, rfl, by
      rw [remapOperands, InstKind.pureValue, heval a (by simp [InstKind.operands]),
        heval b (by simp [InstKind.operands])]⟩
  | unary op a =>
    exact ⟨_, rfl, by
      rw [remapOperands, InstKind.pureValue, heval a (by simp [InstKind.operands])]⟩
  | _ => cases hdup

variable (hr : Rotatable f r h l cond thenBlk elseBlk)

/-- Behind the first `i` instructions of the header, and as many copies in the latch. -/
structure CopiesAgree (f : Func) (h : Block) (i : ℕ) (ρ ρ' : ValueId → V) : Prop where
  other : ∀ v, v < f.values.length → v ∉ h.defined → ρ v = ρ' v
  copied : ∀ (j : ℕ) (inst : Inst) v, j < i → h.insts[j]? = some inst → inst.result = some v →
    ρ v = ρ' (f.values.length + j)

include hr

/-- What the header reads at a position has its copy's value under the copies' names. -/
lemma CopiesAgree.eq_rename (hwf : f.WellFormed) {i : ℕ} {ρ ρ' : ValueId → V}
    (hagree : CopiesAgree f h i ρ ρ') (hi : i ≤ h.insts.length) {defs : List ValueId}
    (hwalk : f.Walk r.header i defs) {v : ValueId} (hv : v ∈ h.readsAt i) :
    ρ v = ρ' ((copyInsts f (h.insts.take i)).rename v) := by
  rcases hr.rename_cases hwf hi hwalk hv with ⟨hmem, hname⟩ | ⟨j, inst, hji, hj, hres, hname⟩
  · rw [hname]
    exact hagree.other v (hwf.read_lt _ h hr.headerAt i v hv) hmem
  · rw [hname]
    exact hagree.copied j inst v hji hj hres

/-- **The header and the copies run alike**, without an effect: by induction on how many
instructions have run. -/
lemma run_copies (hwf : f.WellFormed) {ρ ρ' : ValueId → V} {w : World} {defs : List ValueId}
    (hwalk : f.Walk r.header 0 defs)
    (hother : ∀ v, v < f.values.length → v ∉ h.defined → ρ v = ρ' v) {i : ℕ}
    (hi : i ≤ h.insts.length) :
    ∃ ρ₁ ρ₁', (∃ defs₁, f.Walk r.header i defs₁) ∧
      Silent (f.next I) obs ⟨.point r.header 0, ρ, w⟩ ⟨.point r.header i, ρ₁, w⟩ ∧
      Silent ((applyRotation f r).next I) obs ⟨.point r.latch l.insts.length, ρ', w⟩
        ⟨.point r.latch (l.insts.length + i), ρ₁', w⟩ ∧
      CopiesAgree f h i ρ₁ ρ₁' := by
  induction i with
  | zero =>
    exact ⟨ρ, ρ', ⟨defs, hwalk⟩, Silent.refl _, Silent.refl _, hother,
      fun j _ _ hj => absurd hj (Nat.not_lt_zero j)⟩
  | succ i ih =>
    obtain ⟨ρ₁, ρ₁', ⟨defs₁, hwalk₁⟩, hsilent, hsilent', hagree⟩ := ih (by omega)
    obtain ⟨inst, hinst⟩ : ∃ inst, h.insts[i]? = some inst :=
      ⟨_, List.getElem?_eq_getElem (by omega)⟩
    have hmem := List.mem_of_getElem? hinst
    obtain ⟨old, hold⟩ := Option.isSome_iff_exists.mp (hr.result inst hmem)
    have heq : ∀ v ∈ visitValueOperands inst.kind,
        ρ₁ v = ρ₁' ((copyInsts f (h.insts.take i)).rename v) := fun v hv =>
      hagree.eq_rename hr hwf (by omega) hwalk₁ (by rwa [Block.readsAt_inst hinst])
    obtain ⟨x, hx, hx'⟩ := pureValue_remap (I := I) (hr.dup inst hmem) heq
    -- one step of either function
    obtain ⟨blk, hblk⟩ : ∃ blk, (applyRotation f r).BlockAt r.latch blk :=
      ⟨_, hr.blockAt_iff.mpr (Or.inl ⟨rfl, rfl⟩)⟩
    have hcopy := (hr.latch_insts hblk (i := i)).2.trans (copyInsts_getElem? hr.result hinst)
    have hstep := Func.next_point (I := I) (k := i) (ρ := ρ₁) (w := w) hr.headerAt
    rw [Block.next_inst hinst (Inst.run_of_pureValue hx)] at hstep
    have hstep' := Func.next_point (I := I) (k := l.insts.length + i) (ρ := ρ₁') (w := w) hblk
    rw [Block.next_inst hcopy (Inst.run_of_pureValue hx')] at hstep'
    refine ⟨_, _, ⟨_, hwalk₁.next hr.headerAt hinst⟩, hsilent.trans (Silent.cons hstep rfl (Silent.refl _)),
      hsilent'.trans (Silent.cons hstep' rfl (Silent.refl _)), ?_, ?_⟩
    · intro v hv hnot
      rw [Inst.write_ne fun hres => hnot (mem_defined.mpr ⟨i, inst, hinst, hres⟩),
        Inst.write_ne fun hres => by have : f.values.length + i = v := Option.some.inj hres; omega]
      exact hagree.other v hv hnot
    · intro j inst' v hj hjinst hres
      rcases Nat.lt_succ_iff_lt_or_eq.mp hj with hlt | rfl
      · rw [Inst.write_ne, Inst.write_ne]
        · exact hagree.copied j inst' v hlt hjinst hres
        · intro hres'
          have : f.values.length + i = f.values.length + j := Option.some.inj hres'
          omega
        · intro hres'
          have := position_unique hr.result hr.nodup hjinst hres hinst hres'
          omega
      · obtain rfl := Option.some.inj (hinst.symm.trans hjinst)
        rw [Inst.write_self hres, Inst.write_self rfl]

end Run

/-! ### The simulation -/

section Simulation

variable {V World : Type} {I : Interp V World}

/-- The same point, the same world, and the same registers but for the header's own values;
of these, inside the header, the ones it has defined already. -/
inductive RotateRel (f : Func) (r : Rotation) (h : Block) :
    Config V World → Config V World → Prop
  | point {b k : ℕ} {ρ ρ' : ValueId → V} {w : World} {defs : List ValueId} : f.Walk b k defs →
      (∀ v, v < f.values.length → v ∉ h.defined → ρ v = ρ' v) →
      (b = r.header → ∀ (j : ℕ) (inst : Inst) v, j < k → h.insts[j]? = some inst →
        inst.result = some v → ρ v = ρ' v) →
      RotateRel f r h ⟨.point b k, ρ, w⟩ ⟨.point b k, ρ', w⟩
  | returned {v : Option V} {ρ ρ' : ValueId → V} {w : World} :
      RotateRel f r h ⟨.returned v, ρ, w⟩ ⟨.returned v, ρ', w⟩
  | stopped {ρ ρ' : ValueId → V} {w : World} :
      RotateRel f r h ⟨.stopped, ρ, w⟩ ⟨.stopped, ρ', w⟩

/-- Branching alike keeps states related. -/
lemma RotateRel.branch {b : BlockId} {blk : Block} {defs : List ValueId}
    (hwalk : f.Walk b blk.insts.length defs) (hblk : f.BlockAt b blk) {ρ ρ' : ValueId → V} {w : World}
    (hother : ∀ v, v < f.values.length → v ∉ h.defined → ρ v = ρ' v) :
    RotateRel f r h ⟨blk.term.target I ρ, ρ, w⟩ ⟨blk.term.target I ρ, ρ', w⟩ := by
  rcases Terminator.target_cases I ρ blk.term with ⟨t, ht, htarget⟩ | ⟨v, htarget⟩ | htarget
  · rw [htarget]
    exact .point (hwalk.branch hblk ht) hother fun _ j _ _ hj => absurd hj (Nat.not_lt_zero j)
  · rw [htarget]
    exact .returned
  · rw [htarget]
    exact .stopped

namespace Rotatable

variable (hr : Rotatable f r h l cond thenBlk elseBlk) (hwf : f.WellFormed)

include hr hwf

/-- What is read at a point is the same in both functions. -/
lemma read_eq {b k : ℕ} {defs : List ValueId} (hwalk : f.Walk b k defs) {blk : Block}
    (hblk : f.BlockAt b blk) {ρ ρ' : ValueId → V}
    (hother : ∀ v, v < f.values.length → v ∉ h.defined → ρ v = ρ' v)
    (hinside : b = r.header → ∀ (j : ℕ) (inst : Inst) v, j < k → h.insts[j]? = some inst →
      inst.result = some v → ρ v = ρ' v) {v : ValueId} (hv : v ∈ blk.readsAt k) : ρ v = ρ' v := by
  by_cases hmem : v ∈ h.defined
  · have hb := hr.local_read b blk k hblk v hv hmem
    subst hb
    obtain rfl := hblk.unique hr.headerAt
    obtain ⟨j, inst, hjk, hj, hres⟩ := hr.lt_of_read hwf hwalk hv hmem
    exact hinside rfl j inst v hjk hj hres
  · exact hother v (hwf.read_lt b blk hblk k v hv) hmem

/-- Behind the latch's own instructions: the test in the header and the test in the latch
lead to the same place. -/
lemma step_latch {ρ ρ' : ValueId → V} {w : World} {defs : List ValueId}
    (hwalk : f.Walk r.latch l.insts.length defs)
    (hother : ∀ v, v < f.values.length → v ∉ h.defined → ρ v = ρ' v) :
    ∃ s' t', Segment (f.next I) obs ⟨.point r.latch l.insts.length, ρ, w⟩ s' ∧
      Segment ((applyRotation f r).next I) obs ⟨.point r.latch l.insts.length, ρ', w⟩ t' ∧
      RotateRel f r h s' t' := by
  have hheader : f.Walk r.header 0 defs := hwalk.branch hr.latchAt (by
    rw [hr.latch_term]
    exact List.mem_singleton_self _)
  obtain ⟨ρ₁, ρ₁', ⟨defs₁, hwalk₁⟩, hsilent, hsilent', hagree⟩ :=
    run_copies (I := I) (w := w) hr hwf hheader hother le_rfl
  have hbr := Func.next_point (I := I) (k := l.insts.length) (ρ := ρ) (w := w) hr.latchAt
  rw [Block.next_term (List.getElem?_eq_none le_rfl), hr.latch_term] at hbr
  have htest := Func.next_point (I := I) (k := h.insts.length) (ρ := ρ₁) (w := w) hr.headerAt
  rw [Block.next_term (List.getElem?_eq_none le_rfl)] at htest
  obtain ⟨blk, hblk⟩ : ∃ blk, (applyRotation f r).BlockAt r.latch blk :=
    ⟨_, hr.blockAt_iff.mpr (Or.inl ⟨rfl, rfl⟩)⟩
  have hterm : blk.insts[l.insts.length + h.insts.length]? = none ∧
      blk.term = .condBr (cond.rename (copyInsts f h.insts).rename) thenBlk elseBlk := by
    refine ⟨?_, ?_⟩
    · rw [(hr.latch_insts hblk).2]
      exact List.getElem?_eq_none hr.length_copies.1.le
    · rcases hr.blockAt_iff.mp hblk with ⟨_, rfl⟩ | ⟨hne, _⟩
      · rfl
      · exact absurd rfl hne
  have htest' := Func.next_point (I := I) (k := l.insts.length + h.insts.length) (ρ := ρ₁') (w := w)
    hblk
  rw [Block.next_term hterm.1] at htest'
  -- the copied condition holds what the header's does
  have hcond : blk.term.target I ρ₁' = h.term.target I ρ₁ := by
    have heq : ∀ v, cond.value? = some v → ρ₁ v = ρ₁' ((copyInsts f h.insts).rename v) := by
      intro v hv
      have hread : v ∈ h.readsAt h.insts.length := by
        rw [Block.readsAt_term, hr.header_term, visitTerminatorValues, hv]
        exact List.mem_singleton_self v
      have heq := hagree.eq_rename hr hwf le_rfl hwalk₁ hread
      rwa [List.take_length] at heq
    rw [hterm.2, hr.header_term, Terminator.target, Terminator.target, Operand.eval_rename heq]
  rw [hcond] at htest'
  exact ⟨_, _, (Silent.cons hbr rfl hsilent).segment htest, hsilent'.segment htest',
    RotateRel.branch hwalk₁ hr.headerAt hagree.other⟩

/-- Anywhere else both functions run the same instruction, or branch alike. -/
lemma step_same {b k : ℕ} {ρ ρ' : ValueId → V} {w : World} {defs : List ValueId}
    (hwalk : f.Walk b k defs) (hother : ∀ v, v < f.values.length → v ∉ h.defined → ρ v = ρ' v)
    (hinside : b = r.header → ∀ (j : ℕ) (inst : Inst) v, j < k → h.insts[j]? = some inst →
      inst.result = some v → ρ v = ρ' v)
    (hpos : ¬ (b = r.latch ∧ k = l.insts.length)) :
    ∃ s' t', f.next I ⟨.point b k, ρ, w⟩ = some s' ∧
      (applyRotation f r).next I ⟨.point b k, ρ', w⟩ = some t' ∧ RotateRel f r h s' t' := by
  obtain ⟨blk, hblk⟩ := hwf.blockAt_of_walk hwalk
  have hread := fun v (hv : v ∈ blk.readsAt k) => hr.read_eq hwf hwalk hblk hother hinside hv
  have hlen := hwalk.le_length hblk
  obtain ⟨blk', hblk', hsame⟩ : ∃ blk', (applyRotation f r).BlockAt b blk' ∧
      blk'.insts[k]? = blk.insts[k]? ∧ (blk.insts[k]? = none → blk'.term = blk.term) := by
    by_cases hb : b = r.latch
    · subst hb
      obtain rfl := hblk.unique hr.latchAt
      have hlt : k < blk.insts.length := lt_of_le_of_ne hlen fun heq => hpos ⟨rfl, heq⟩
      have hat := hr.blockAt_iff.mpr (Or.inl ⟨rfl, rfl⟩)
      refine ⟨_, hat, (hr.latch_insts hat).1 hlt, fun hnone => ?_⟩
      rw [List.getElem?_eq_getElem hlt] at hnone
      cases hnone
    · exact ⟨blk, hr.blockAt_iff.mpr (Or.inr ⟨hb, hblk⟩), rfl, fun _ => rfl⟩
  refine ⟨_, _, Func.next_point hblk, Func.next_point hblk', ?_⟩
  cases hinst : blk.insts[k]? with
  | none =>
    rw [Block.next_term hinst, Block.next_term (hsame.1.trans hinst), hsame.2 hinst]
    have hk : k = blk.insts.length := le_antisymm hlen (List.getElem?_eq_none_iff.mp hinst)
    subst hk
    rw [← Terminator.target_congr (I := I) fun v hv =>
      hread v (by rwa [Block.readsAt_term])]
    exact RotateRel.branch hwalk hblk hother
  | some inst =>
    have hreads : ∀ v ∈ visitValueOperands inst.kind, ρ v = ρ' v := fun v hv =>
      hread v (by rwa [Block.readsAt_inst hinst])
    have hrun : inst.run I f.values ρ w = inst.run I (applyRotation f r).values ρ' w := by
      rw [Inst.run_congr hreads]
      exact Inst.run_of_values hr.values_prefix fun v hv =>
        hwf.read_lt b blk hblk k v (by rwa [Block.readsAt_inst hinst])
    cases hres : inst.run I f.values ρ w with
    | none =>
      rw [Block.next_trap hinst hres, Block.next_trap (hsame.1.trans hinst) (hrun ▸ hres)]
      exact .stopped
    | some xw =>
      rw [Block.next_inst hinst hres, Block.next_inst (hsame.1.trans hinst) (hrun ▸ hres)]
      refine .point (hwalk.next hblk hinst) ?_ ?_
      · exact fun v hv hnot => Inst.write_congr (fun _ => hother v hv hnot) _
      · rintro hb j inst' v hj hjinst hv
        refine Inst.write_congr (fun hne => ?_) _
        refine hinside hb j inst' v (lt_of_le_of_ne (Nat.lt_succ_iff.mp hj) ?_) hjinst hv
        rintro rfl
        subst hb
        obtain rfl := hblk.unique hr.headerAt
        exact hne (Option.some.inj (hinst.symm.trans hjinst) ▸ hv)

/-- **One rotation is a simulation.** -/
lemma simulates :
    Simulates (f.next I) obs ((applyRotation f r).next I) obs (RotateRel f r h) where
  obs_eq hrel := by cases hrel <;> rfl
  step hrel := by
    cases hrel with
    | returned => exact Or.inl ⟨rfl, rfl⟩
    | stopped => exact Or.inl ⟨rfl, rfl⟩
    | @point b k ρ ρ' w defs hwalk hother hinside =>
      refine Or.inr ?_
      by_cases hpos : b = r.latch ∧ k = l.insts.length
      · obtain ⟨rfl, rfl⟩ := hpos
        exact hr.step_latch hwf hwalk hother
      · obtain ⟨s', t', hs, ht, hrel⟩ := hr.step_same hwf hwalk hother hinside hpos
        exact ⟨s', t', Segment.single hs, Segment.single ht, hrel⟩

/-- **One rotation preserves meaning.** -/
theorem equivalent (I : Interp V World) : Equivalent I f (applyRotation f r) :=
  equivalent_of_simulates (hr.simulates hwf) fun _ _ =>
    .point Func.Walk.entry (fun _ _ _ => rfl) fun _ _ _ _ _ _ _ => rfl

end Rotatable

end Simulation

/-! ### The rotated function is well formed -/

lemma visitValueOperands_remap {σ : ValueId → ValueId} {kind : InstKind}
    (hdup : duplicable kind = true) :
    visitValueOperands (remapOperands σ kind) = (visitValueOperands kind).map σ := by
  have hop : ∀ a : Operand, (a.rename σ).value? = a.value?.map σ := fun a => by cases a <;> rfl
  cases kind with
  | binOp op a b =>
    simp only [remapOperands, visitValueOperands, InstKind.operands, List.filterMap_cons, hop]
    cases a.value? <;> cases b.value? <;> rfl
  | iCmp p a b =>
    simp only [remapOperands, visitValueOperands, InstKind.operands, List.filterMap_cons, hop]
    cases a.value? <;> cases b.value? <;> rfl
  | fCmp p a b =>
    simp only [remapOperands, visitValueOperands, InstKind.operands, List.filterMap_cons, hop]
    cases a.value? <;> cases b.value? <;> rfl
  | unary op a =>
    simp only [remapOperands, visitValueOperands, InstKind.operands, List.filterMap_cons, hop]
    cases a.value? <;> rfl
  | _ => cases hdup

namespace Rotatable

variable (hr : Rotatable f r h l cond thenBlk elseBlk)

include hr

lemma length_blocks : (applyRotation f r).blocks.length = f.blocks.length := by
  rw [hr.applyRotation_eq]
  exact List.length_modify _ _ _

/-- What is read in the latch behind its own instructions: what the header reads, under
the copies' names. -/
lemma readsAt_latch {blk : Block} (hblk : (applyRotation f r).BlockAt r.latch blk) {i : ℕ}
    (hi : i ≤ h.insts.length) :
    blk.readsAt (l.insts.length + i) =
      (h.readsAt i).map (copyInsts f (h.insts.take i)).rename := by
  cases hinst : h.insts[i]? with
  | some inst =>
    rw [Block.readsAt_inst ((hr.latch_insts hblk).2.trans (copyInsts_getElem? hr.result hinst)),
      Block.readsAt_inst hinst, visitValueOperands_remap (hr.dup inst (List.mem_of_getElem? hinst))]
  | none =>
    obtain rfl : i = h.insts.length := le_antisymm hi (List.getElem?_eq_none_iff.mp hinst)
    rw [List.take_length, Block.readsAt_term, hr.header_term]
    rcases hr.blockAt_iff.mp hblk with ⟨_, rfl⟩ | ⟨hne, _⟩
    · have hlen : l.insts.length + h.insts.length =
          (l.insts ++ (copyInsts f h.insts).insts).length := by
        rw [List.length_append, hr.length_copies.1]
      rw [hlen, Block.readsAt_term]
      cases cond <;> rfl
    · exact absurd rfl hne

/-- A point of the rotated function is a point of the original, or behind the latch's own
instructions. -/
lemma readsAt_cases {b k : ℕ} {blk : Block} (hblk : (applyRotation f r).BlockAt b blk)
    {v : ValueId} (hv : v ∈ blk.readsAt k) :
    (∃ blk₀, f.BlockAt b blk₀ ∧ v ∈ blk₀.readsAt k ∧ (b = r.latch → k < l.insts.length)) ∨
      b = r.latch ∧ ∃ i, k = l.insts.length + i ∧ i ≤ h.insts.length ∧ ∃ v₀ ∈ h.readsAt i,
        v = (copyInsts f (h.insts.take i)).rename v₀ := by
  by_cases hb : b = r.latch
  · subst hb
    rcases Nat.lt_or_ge k l.insts.length with hlt | hge
    · refine Or.inl ⟨l, hr.latchAt, ?_, fun _ => hlt⟩
      have hsame := (hr.latch_insts hblk).1 hlt
      rw [List.getElem?_eq_getElem hlt] at hsame
      rw [Block.readsAt_inst hsame] at hv
      rwa [Block.readsAt_inst (List.getElem?_eq_getElem hlt)]
    · obtain ⟨i, rfl⟩ := Nat.exists_eq_add_of_le hge
      have hi : i ≤ h.insts.length := by
        by_contra hgt
        rw [Block.readsAt, (hr.latch_insts hblk).2, List.getElem?_eq_none
          (by rw [hr.length_copies.1]; omega), if_neg] at hv
        · cases hv
        · rcases hr.blockAt_iff.mp hblk with ⟨_, rfl⟩ | ⟨hne, _⟩
          · rw [List.length_append, hr.length_copies.1]
            omega
          · exact absurd rfl hne
      rw [hr.readsAt_latch hblk hi] at hv
      obtain ⟨v₀, hv₀, rfl⟩ := List.mem_map.mp hv
      exact Or.inr ⟨rfl, i, rfl, hi, v₀, hv₀, rfl⟩
  · rcases hr.blockAt_iff.mp hblk with ⟨heq, _⟩ | ⟨_, hblk₀⟩
    · exact absurd heq hb
    · exact Or.inl ⟨blk, hblk₀, hv, fun heq => absurd heq hb⟩

/-- An instruction of the rotated function is one of the original, or a copy. -/
lemma hasInst_cases {b : BlockId} {inst : Inst} (hinst : (applyRotation f r).HasInst b inst) :
    f.HasInst b inst ∨ ∃ i, i < h.insts.length ∧ inst.result = some (f.values.length + i) := by
  obtain ⟨blk, hblk, hmem⟩ := hinst
  rcases hr.blockAt_iff.mp hblk with ⟨rfl, rfl⟩ | ⟨_, hblk₀⟩
  · rcases List.mem_append.mp hmem with hmem | hmem
    · exact Or.inl ⟨l, hr.latchAt, hmem⟩
    · obtain ⟨i, hi⟩ := List.mem_iff_getElem?.mp hmem
      have hlt : i < h.insts.length := hr.length_copies.1 ▸ (List.getElem?_eq_some_iff.mp hi).1
      rw [copyInsts_getElem? hr.result (List.getElem?_eq_getElem hlt)] at hi
      obtain rfl := Option.some.inj hi
      exact Or.inr ⟨i, hlt, rfl⟩
  · exact Or.inl ⟨blk, hblk₀, hmem⟩

/-- A walk of the rotated function and the walk of the original it follows: the same point,
or a point of the header while the rotated function runs the copies.  What is defined on the
original walk is defined on the rotated one, but for the header's values, of which the ones
that may be read are. -/
inductive Follows (f : Func) (r : Rotation) (h l : Block) (b k : ℕ) (defs' : List ValueId) : Prop
  | same {defs : List ValueId} : f.Walk b k defs → (b = r.latch → k ≤ l.insts.length) →
      (∀ v ∈ defs, v ∉ h.defined → v ∈ defs') →
      (b = r.header → ∀ (j : ℕ) (inst : Inst) v, j < k → h.insts[j]? = some inst →
        inst.result = some v → v ∈ defs') → Follows f r h l b k defs'
  | copies {i : ℕ} {defs : List ValueId} : f.Walk r.header i defs → b = r.latch →
      k = l.insts.length + i → (∀ v ∈ defs, v ∉ h.defined → v ∈ defs') →
      (∀ j, j < i → f.values.length + j ∈ defs') → Follows f r h l b k defs'

omit hr in
lemma Follows.toCopies (hr : Rotatable f r h l cond thenBlk elseBlk) {defs' : List ValueId}
    (hf : Follows f r h l r.latch l.insts.length defs') :
    ∃ i defs, l.insts.length = l.insts.length + i ∧ f.Walk r.header i defs ∧
      (∀ v ∈ defs, v ∉ h.defined → v ∈ defs') ∧ ∀ j, j < i → f.values.length + j ∈ defs' := by
  cases hf with
  | same hwalk _ hother _ =>
    refine ⟨0, _, rfl, hwalk.branch hr.latchAt ?_, hother, fun j hj => absurd hj (Nat.not_lt_zero j)⟩
    rw [hr.latch_term]
    exact List.mem_singleton_self _
  | copies hwalk _ hk hother hcopied => exact ⟨_, _, hk, hwalk, hother, hcopied⟩

/-- At the latch's end or behind, the original is in its header. -/
lemma follows_latch {k : ℕ} {defs' : List ValueId} (hf : Follows f r h l r.latch k defs')
    (hk : l.insts.length ≤ k) :
    ∃ i defs, k = l.insts.length + i ∧ f.Walk r.header i defs ∧
      (∀ v ∈ defs, v ∉ h.defined → v ∈ defs') ∧ ∀ j, j < i → f.values.length + j ∈ defs' := by
  cases hf with
  | same hwalk hle hother hinside =>
    obtain rfl : k = l.insts.length := le_antisymm (hle rfl) hk
    exact Follows.toCopies hr (.same hwalk hle hother hinside)
  | copies hwalk _ hk' hother hcopied => exact ⟨_, _, hk', hwalk, hother, hcopied⟩

/-- **Every walk of the rotated function follows one of the original.** -/
lemma follows {b k : ℕ} {defs' : List ValueId} (hwalk : (applyRotation f r).Walk b k defs') :
    Follows f r h l b k defs' := by
  induction hwalk with
  | entry =>
    have hparams : (applyRotation f r).params = f.params := by rw [hr.applyRotation_eq]
    exact .same Func.Walk.entry (fun _ => Nat.zero_le _) (fun v hv _ => hparams ▸ hv)
      fun _ j _ _ hj => absurd hj (Nat.not_lt_zero j)
  | @next b k defs' blk inst hwalk' hblk hinst ih =>
    by_cases hpos : b = r.latch ∧ l.insts.length ≤ k
    · obtain ⟨rfl, hle⟩ := hpos
      obtain ⟨i, defs, rfl, hwalk, hother, hcopied⟩ := hr.follows_latch ih hle
      have hcopy := (hr.latch_insts hblk).2.symm.trans hinst
      have hlt : i < h.insts.length := hr.length_copies.1 ▸ (List.getElem?_eq_some_iff.mp hcopy).1
      have hheader := List.getElem?_eq_getElem hlt
      rw [copyInsts_getElem? hr.result hheader] at hcopy
      obtain rfl := Option.some.inj hcopy
      refine .copies (hwalk.next hr.headerAt hheader) rfl rfl ?_ ?_
      · intro v hv hnot
        rcases List.mem_append.mp hv with hres | hv
        · exact absurd (mem_defined.mpr ⟨i, _, hheader, Option.mem_toList.mp hres⟩) hnot
        · exact List.mem_append_right _ (hother v hv hnot)
      · intro j hj
        rcases Nat.lt_succ_iff_lt_or_eq.mp hj with hlt | rfl
        · exact List.mem_append_right _ (hcopied j hlt)
        · exact List.mem_append_left _ (List.mem_singleton_self _)
    · cases ih with
      | copies _ hb hk _ _ => exact absurd ⟨hb, by omega⟩ hpos
      | @same defs hwalk hle hother hinside =>
        obtain ⟨blk₀, hblk₀, hinst₀⟩ : ∃ blk₀, f.BlockAt b blk₀ ∧ blk₀.insts[k]? = some inst := by
          rcases hr.blockAt_iff.mp hblk with ⟨rfl, _⟩ | ⟨_, hblk₀⟩
          · have hlt : k < l.insts.length := Nat.lt_of_not_le fun hle => hpos ⟨rfl, hle⟩
            exact ⟨l, hr.latchAt, ((hr.latch_insts hblk).1 hlt).symm.trans hinst⟩
          · exact ⟨blk, hblk₀, hinst⟩
        refine .same (hwalk.next hblk₀ hinst₀) ?_ ?_ ?_
        · rintro rfl
          exact Nat.lt_of_not_le fun hle => hpos ⟨rfl, hle⟩
        · intro v hv hnot
          rcases List.mem_append.mp hv with hres | hv
          · exact List.mem_append_left _ hres
          · exact List.mem_append_right _ (hother v hv hnot)
        · rintro rfl j inst' v hj hjinst hv
          rcases Nat.lt_succ_iff_lt_or_eq.mp hj with hlt | rfl
          · exact List.mem_append_right _ (hinside rfl j inst' v hlt hjinst hv)
          · obtain rfl := hblk₀.unique hr.headerAt
            obtain rfl := Option.some.inj (hinst₀.symm.trans hjinst)
            exact List.mem_append_left _ (Option.mem_toList.mpr hv)
  | @branch b t defs' blk hwalk' hblk ht ih =>
    have hzero : ∀ {defs : List ValueId}, f.Walk t 0 defs → (∀ v ∈ defs, v ∉ h.defined → v ∈ defs') →
        Follows f r h l t 0 defs' := fun hwalk hother =>
      .same hwalk (fun _ => Nat.zero_le _) hother fun _ j _ _ hj => absurd hj (Nat.not_lt_zero j)
    rcases hr.blockAt_iff.mp hblk with ⟨rfl, rfl⟩ | ⟨hne, hblk₀⟩
    · -- the latch's new branch is the header's
      obtain ⟨i, defs, hi, hwalk, hother, _⟩ :=
        hr.follows_latch ih (by rw [List.length_append]; exact Nat.le_add_right _ _)
      rw [List.length_append, hr.length_copies.1] at hi
      obtain rfl : i = h.insts.length := by omega
      refine hzero (hwalk.branch hr.headerAt ?_) hother
      rw [hr.header_term]
      exact ht
    · cases ih with
      | copies _ hb _ _ _ => exact absurd hb hne
      | same hwalk _ hother _ => exact hzero (hwalk.branch hblk₀ ht) hother

variable (hwf : f.WellFormed)

include hwf

/-- Every use in the rotated function is reached only after a definition. -/
lemma definedBeforeUse : (applyRotation f r).DefinedBeforeUse := by
  intro b k defs' hwalk' blk hblk v hv
  have hf := hr.follows hwalk'
  rcases hr.readsAt_cases hblk hv with ⟨blk₀, hblk₀, hv₀, hlatch⟩ | ⟨rfl, i, rfl, hi, v₀, hv₀, rfl⟩
  · cases hf with
    | copies _ hb hk _ _ =>
      have := hlatch hb
      omega
    | @same defs hwalk _ hother hinside =>
      by_cases hmem : v ∈ h.defined
      · have hb := hr.local_read b blk₀ k hblk₀ v hv₀ hmem
        subst hb
        obtain rfl := hblk₀.unique hr.headerAt
        obtain ⟨j, inst, hjk, hj, hres⟩ := hr.lt_of_read hwf hwalk hv₀ hmem
        exact hinside rfl j inst v hjk hj hres
      · exact hother v (hwf.defined b k defs hwalk blk₀ hblk₀ v hv₀) hmem
  · obtain ⟨i', defs, heq, hwalk, hother, hcopied⟩ := hr.follows_latch hf (Nat.le_add_right _ _)
    obtain rfl : i' = i := by omega
    rcases hr.rename_cases hwf hi hwalk hv₀ with ⟨hmem, hname⟩ | ⟨j, inst, hji, _, _, hname⟩
    · rw [hname]
      exact hother v₀ (hwf.defined _ _ defs hwalk h hr.headerAt v₀ hv₀) hmem
    · rw [hname]
      exact hcopied j hji

/-- **A rotated function is well formed.** -/
theorem wellFormed : (applyRotation f r).WellFormed := by
  have hvalues : (applyRotation f r).values.length = f.values.length + h.insts.length := by
    rw [hr.applyRotation_eq]
    exact hr.length_copies.2
  have hparams : (applyRotation f r).params = f.params := by rw [hr.applyRotation_eq]
  refine ⟨?_, ?_, ?_, ?_, ?_, ?_, ?_, hr.definedBeforeUse hwf⟩
  · intro b blk hblk
    rcases hr.blockAt_iff.mp hblk with ⟨rfl, rfl⟩ | ⟨_, hblk₀⟩
    · exact hwf.id_eq _ l hr.latchAt
    · exact hwf.id_eq b blk hblk₀
  · intro hnil
    have hlen := hr.length_blocks
    rw [hnil] at hlen
    exact hwf.nonempty (List.length_eq_zero_iff.mp hlen.symm)
  · intro b blk hblk t ht
    rw [hr.length_blocks]
    rcases hr.blockAt_iff.mp hblk with ⟨rfl, rfl⟩ | ⟨_, hblk₀⟩
    · refine hwf.target _ h hr.headerAt t ?_
      rw [hr.header_term]
      exact ht
    · exact hwf.target b blk hblk₀ t ht
  · intro b blk hblk k v hv
    rw [hvalues]
    rcases hr.readsAt_cases hblk hv with ⟨blk₀, hblk₀, hv₀, _⟩ | ⟨rfl, i, rfl, hi, v₀, hv₀, rfl⟩
    · exact Nat.lt_add_right _ (hwf.read_lt b blk₀ hblk₀ k v hv₀)
    · have hlt := hwf.read_lt _ h hr.headerAt i v₀ hv₀
      rcases hr.rename_eq_or hi v₀ with hname | ⟨j, _, hji, _, _, hname⟩
      · rw [hname]
        exact Nat.lt_add_right _ hlt
      · rw [hname]
        exact Nat.add_lt_add_left (lt_of_lt_of_le hji hi) _
  · intro b inst hinst v hv
    rw [hvalues]
    rcases hr.hasInst_cases hinst with hinst₀ | ⟨i, hi, hres⟩
    · exact Nat.lt_add_right _ (hwf.result_lt b inst hinst₀ v hv)
    · rw [← Option.some.inj (hres.symm.trans hv)]
      exact Nat.add_lt_add_left hi _
  · intro v hv
    rw [hvalues]
    exact Nat.lt_add_right _ (hwf.param_lt v (hparams ▸ hv))
  · intro b inst hinst v hv hres'
    rcases hr.hasInst_cases hinst with hinst₀ | ⟨i, hi, hres⟩
    · exact hwf.param_copy b inst hinst₀ v (hparams ▸ hv) hres'
    · have hlt := hwf.param_lt v (hparams ▸ hv)
      rw [← Option.some.inj (hres.symm.trans hres')] at hlt
      exact absurd hlt (Nat.not_lt.mpr (Nat.le_add_right _ _))

end Rotatable

/-! ### Planned rotations -/

/-- What `rotatable` tests. -/
lemma isRotatable_of_rotatable (hwf : f.WellFormed) {body : List BlockId} {header latch : BlockId}
    (hrot : rotatable f body header latch = true) : IsRotatable f ⟨header, latch⟩ := by
  rw [rotatable] at hrot
  split at hrot
  case h_2 => cases hrot
  case h_1 h l hheader hlatch =>
    simp only [Bool.and_eq_true, decide_eq_true_eq] at hrot
    obtain ⟨⟨hne, hterm⟩, hrot⟩ := hrot
    split at hrot
    case h_2 => cases hrot
    case h_1 cond thenBlk elseBlk hcond =>
      obtain ⟨entry, _, hrot⟩ := (Option.any_eq_true _ _).mp hrot
      simp only [Bool.and_eq_true, decide_eq_true_eq, List.all_eq_true] at hrot
      obtain ⟨⟨_, hall⟩, hlocal⟩ := hrot
      simp only [headerValuesStayLocal, Bool.and_eq_true, Bool.or_eq_true, List.all_eq_true,
        decide_eq_true_eq] at hlocal
      obtain ⟨hlocal, hlen⟩ := hlocal
      refine ⟨h, l, cond, thenBlk, elseBlk, hheader, hlatch, hne, hterm, hcond,
        fun inst hinst => (hall inst hinst).1, fun inst hinst => (hall inst hinst).2, ?_, ?_, ?_⟩
      · have hdedup : h.defined.dedup = h.defined := by
          refine (List.dedup_sublist _).eq_of_length_le ?_
          rw [← hlen]
          exact List.length_filterMap_le _ _
        exact hdedup ▸ List.nodup_dedup _
      · rintro b inst ⟨blk, hblk, hinst⟩ v hv hres
        rcases hlocal blk hblk.mem with hid | hother
        · exact (hwf.id_eq b blk hblk).symm.trans hid
        · have hout := (hother.1 inst hinst).1
          rw [hres] at hout
          exact absurd hv (of_decide_eq_true hout)
      · intro b blk k hblk v hread hv
        rcases hlocal blk hblk.mem with hid | hother
        · exact (hwf.id_eq b blk hblk).symm.trans hid
        · exfalso
          cases hinst : blk.insts[k]? with
          | some inst =>
            rw [Block.readsAt_inst hinst] at hread
            exact (hother.1 inst (List.mem_of_getElem? hinst)).2 v hread hv
          | none =>
            rw [Block.readsAt, hinst] at hread
            dsimp only at hread
            split at hread
            · exact hother.2 v hread hv
            · cases hread

/-- Rotations that do not meet. -/
def Apart (r r' : Rotation) : Prop :=
  r.header ≠ r'.header ∧ r.header ≠ r'.latch ∧ r.latch ≠ r'.header ∧ r.latch ≠ r'.latch

/-- **A planned rotation stays one** while another is applied. -/
lemma IsRotatable.after (hwf : f.WellFormed) {r' : Rotation}
    (hr : Rotatable f r h l cond thenBlk elseBlk) (hr' : IsRotatable f r') (hapart : Apart r r') :
    IsRotatable (applyRotation f r) r' := by
  obtain ⟨h', l', cond', thenBlk', elseBlk', hr'⟩ := hr'
  have hfresh : ∀ v ∈ h'.defined, ∀ i, v ≠ f.values.length + i := by
    rintro v hv i rfl
    obtain ⟨j, inst, hj, hres⟩ := mem_defined.mp hv
    have hlt := hwf.result_lt _ inst ⟨h', hr'.headerAt, List.mem_of_getElem? hj⟩ _ hres
    exact absurd hlt (Nat.not_lt.mpr (Nat.le_add_right _ _))
  refine ⟨h', l', cond', thenBlk', elseBlk', ?_, ?_, hr'.latch_ne, hr'.latch_term,
    hr'.header_term, hr'.result, hr'.dup, hr'.nodup, ?_, ?_⟩
  · exact hr.blockAt_iff.mpr (Or.inr ⟨hapart.2.2.1.symm, hr'.headerAt⟩)
  · exact hr.blockAt_iff.mpr (Or.inr ⟨hapart.2.2.2.symm, hr'.latchAt⟩)
  · intro b inst hinst v hv hres
    rcases hr.hasInst_cases hinst with hinst₀ | ⟨i, _, hcopy⟩
    · exact hr'.local_result b inst hinst₀ v hv hres
    · exact absurd (Option.some.inj (hres.symm.trans hcopy)) (hfresh v hv i)
  · intro b blk k hblk v hread hv
    rcases hr.readsAt_cases hblk hread with ⟨blk₀, hblk₀, hread₀, _⟩ | ⟨_, i, _, hi, v₀, hv₀, rfl⟩
    · exact hr'.local_read b blk₀ k hblk₀ v hread₀ hv
    · rcases hr.rename_eq_or hi v₀ with hname | ⟨j, _, _, _, _, hname⟩
      · rw [hname] at hv
        exact absurd (hr'.local_read _ h i hr.headerAt v₀ hv₀ hv) hapart.1
      · exact absurd hname (hfresh _ hv j)

/-- The plans of one analysis: each may be applied, no two meet, and their blocks are
claimed. -/
structure Planned (f : Func) (s : List BlockId × List Rotation) : Prop where
  rotatable : ∀ r ∈ s.2, IsRotatable f r
  claimed : ∀ r ∈ s.2, r.header ∈ s.1 ∧ r.latch ∈ s.1
  apart : s.2.Pairwise Apart

lemma Planned.pick (hwf : f.WellFormed) {s : List BlockId × List Rotation} (hs : Planned f s)
    {dom : Dominator.Tree} {lp : NaturalLoop} (hlp : lp.OfFunction f.cfg dom) :
    Planned f (pickRotation f s lp) := by
  rw [pickRotation]
  split
  case h_2 => exact hs
  case h_1 latch hsource =>
    split
    · exact hs
    · next hdisjoint =>
      split
      case isFalse => exact hs
      case isTrue hrot =>
        have hheader : lp.header ∈ touched f lp := List.mem_append_left _ hlp.header_mem
        have hlatch : latch ∈ touched f lp :=
          List.mem_append_left _ (hlp.source_mem latch (hsource ▸ List.mem_singleton_self latch))
        have hfree : ∀ {a b : BlockId}, a ∈ s.1 → b ∈ touched f lp → a ≠ b := by
          rintro a _ ha hb rfl
          exact hdisjoint (List.any_eq_true.mpr ⟨a, hb, decide_eq_true ha⟩)
        refine ⟨fun r hr => ?_, fun r hr => ?_, ?_⟩
        · rcases List.mem_append.mp hr with hr | hr
          · exact hs.rotatable r hr
          · rw [List.mem_singleton.mp hr]
            exact isRotatable_of_rotatable hwf hrot
        · rcases List.mem_append.mp hr with hr | hr
          · exact ⟨List.mem_append_left _ (hs.claimed r hr).1,
              List.mem_append_left _ (hs.claimed r hr).2⟩
          · rw [List.mem_singleton.mp hr]
            exact ⟨List.mem_append_right _ hheader, List.mem_append_right _ hlatch⟩
        · refine List.pairwise_append.mpr ⟨hs.apart, List.pairwise_singleton _ _, fun r hr r' hr' => ?_⟩
          rw [List.mem_singleton.mp hr']
          obtain ⟨hh, hl⟩ := hs.claimed r hr
          exact ⟨hfree hh hheader, hfree hh hlatch, hfree hl hheader, hfree hl hlatch⟩

lemma findRotations_spec (hwf : f.WellFormed) {plans : List Rotation}
    (hplans : findRotations f = some plans) :
    (∀ r ∈ plans, IsRotatable f r) ∧ plans.Pairwise Apart := by
  obtain ⟨dom, _, hrest⟩ := Option.bind_eq_some_iff.mp hplans
  obtain ⟨loops, hloops, hrest⟩ := Option.bind_eq_some_iff.mp hrest
  obtain rfl := Option.some.inj hrest
  have hall := (buildLoops_spec hwf.cfg hloops).1
  have hplanned : ∀ (ls : List NaturalLoop) (s : List BlockId × List Rotation),
      (∀ lp ∈ ls, lp.OfFunction f.cfg dom) → Planned f s →
      Planned f (ls.foldl (pickRotation f) s) := by
    intro ls
    induction ls with
    | nil => exact fun s _ hs => hs
    | cons lp ls ih =>
      exact fun s hls hs => ih _ (fun lp' hlp' => hls lp' (List.mem_cons_of_mem _ hlp'))
        (hs.pick hwf (hls lp List.mem_cons_self))
  have hfin := hplanned loops ([], []) hall
    ⟨List.forall_mem_nil _, List.forall_mem_nil _, List.Pairwise.nil⟩
  exact ⟨hfin.rotatable, hfin.apart⟩

/-! ### All rotations -/

/-- Meaning and well-formedness are kept. -/
def Preserved (f g : Func) : Prop :=
  g.WellFormed ∧ ∀ (V World : Type) (I : Interp V World), Equivalent I f g

/-- A round of rotations, by induction on the plans. -/
lemma preserved_round {plans : List Rotation} :
    ∀ {f : Func}, f.WellFormed → (∀ r ∈ plans, IsRotatable f r) → plans.Pairwise Apart →
      Preserved f (plans.foldl applyRotation f) := by
  induction plans with
  | nil => exact fun {f} hwf _ _ => ⟨hwf, fun _ _ I => Equivalent.refl I f⟩
  | cons r plans ih =>
    intro f hwf hplans hapart
    obtain ⟨happ, hapart⟩ := List.pairwise_cons.mp hapart
    obtain ⟨h, l, cond, thenBlk, elseBlk, hr⟩ := hplans r List.mem_cons_self
    obtain ⟨hwf', heq⟩ := ih (hr.wellFormed hwf)
      (fun r' hr' => IsRotatable.after hwf hr (hplans r' (List.mem_cons_of_mem _ hr')) (happ r' hr'))
      hapart
    exact ⟨hwf', fun V World I => (hr.equivalent hwf I).trans (heq V World I)⟩

/-- The rounds, by induction on their number. -/
lemma preserved_rounds (fuel : ℕ) :
    ∀ {f g : Func}, f.WellFormed → rotateRounds fuel f = some g → Preserved f g := by
  induction fuel with
  | zero =>
    intro f g _ h
    cases h
  | succ fuel ih =>
    intro f g hwf h
    obtain ⟨plans, hplans, hrest⟩ := Option.bind_eq_some_iff.mp h
    split at hrest
    · obtain rfl := Option.some.inj hrest
      exact ⟨hwf, fun _ _ I => Equivalent.refl I f⟩
    · obtain ⟨hrot, hapart⟩ := findRotations_spec hwf hplans
      obtain ⟨hwf', heq⟩ := preserved_round hwf hrot hapart
      obtain ⟨hwf'', heq'⟩ := ih hwf' hrest
      exact ⟨hwf'', fun V World I => (heq V World I).trans (heq' V World I)⟩

/-- **Loop rotation is correct.**  The rotated function has the same behaviour under every
interpretation of the instructions, from every register file and every world, and every use
in it is reached only after a definition of the value it reads. -/
theorem rotateFunction_correct {f g : Func} (hwf : f.WellFormed) (h : rotateFunction f = some g) :
    (∀ (V World : Type) (I : Interp V World), Equivalent I f g) ∧ g.DefinedBeforeUse := by
  rw [rotateFunction, if_neg hwf.nonempty] at h
  obtain ⟨hwf', heq⟩ := preserved_rounds _ hwf h
  exact ⟨heq, hwf'.defined⟩

/-- A counted loop: `%1` runs from 2 while `%1 * %1 <= %0`. -/
def countedLoop : Func where
  name := "f"
  params := [0]
  blocks := [
    ⟨0, [⟨some 1, .copy .i64 (.constI64 2)⟩], .br 1⟩,
    ⟨1, [⟨some 2, .binOp .mul (.value 1) (.value 1)⟩, ⟨some 3, .iCmp .sle (.value 2) (.value 0)⟩],
      .condBr (.value 3) 2 4⟩,
    ⟨2, [], .br 3⟩,
    ⟨3, [⟨some 1, .binOp .add (.value 1) (.constI64 1)⟩], .br 1⟩,
    ⟨4, [], .ret (some (.value 1))⟩]
  values := [.i64, .i64, .i64, .bool]

/-- The loop with its test in the latch. -/
def countedLoopRotated : Func where
  name := "f"
  params := [0]
  blocks := [
    ⟨0, [⟨some 1, .copy .i64 (.constI64 2)⟩], .br 1⟩,
    ⟨1, [⟨some 2, .binOp .mul (.value 1) (.value 1)⟩, ⟨some 3, .iCmp .sle (.value 2) (.value 0)⟩],
      .condBr (.value 3) 2 4⟩,
    ⟨2, [], .br 3⟩,
    ⟨3, [⟨some 1, .binOp .add (.value 1) (.constI64 1)⟩,
        ⟨some 4, .binOp .mul (.value 1) (.value 1)⟩, ⟨some 5, .iCmp .sle (.value 4) (.value 0)⟩],
      .condBr (.value 5) 2 4⟩,
    ⟨4, [], .ret (some (.value 1))⟩]
  values := [.i64, .i64, .i64, .bool, .i64, .bool]

lemma countedLoop_check : countedLoop.check [[0], [0, 1], [0, 1], [0, 1], [0, 1]] := by
  decide

theorem rotateFunction_correct_countedLoop :
    rotateFunction countedLoop = some countedLoopRotated ∧
      (∀ (V World : Type) (I : Interp V World), Equivalent I countedLoop countedLoopRotated) ∧
      countedLoopRotated.DefinedBeforeUse := by
  have hrotate : rotateFunction countedLoop = some countedLoopRotated := by decide +kernel
  exact ⟨hrotate, rotateFunction_correct
    (Func.wellFormed_of_check countedLoop_check) hrotate⟩

/-- The blocks that end in a plain branch. -/
def Func.brCount (f : Func) : ℕ :=
  f.blocks.countP fun b => match b.term with
    | .br _ => true
    | _ => false

/-- A rotation turns one plain branch into a conditional one. -/
lemma Rotatable.brCount_lt (hr : Rotatable f r h l cond thenBlk elseBlk) :
    (applyRotation f r).brCount < f.brCount := by
  have hlt := hr.latchAt.lt
  have hat : f.blocks[r.latch]? = some l := hr.latchAt
  have hget : f.blocks[r.latch] = l :=
    Option.some.inj ((List.getElem?_eq_getElem hlt).symm.trans hat)
  have hpos : 0 < f.brCount := by
    refine List.countP_pos_iff.mpr ⟨l, hr.latchAt.mem, ?_⟩
    rw [hr.latch_term]
  rw [hr.applyRotation_eq, Func.brCount]
  dsimp only
  rw [List.modify_eq_set_getElem?, hat, Option.map_eq_map, Option.map_some, Option.getD_some,
    List.countP_set hlt, hget, hr.latch_term]
  exact Nat.sub_lt hpos Nat.one_pos

lemma brCount_round {plans : List Rotation} :
    ∀ {f : Func}, f.WellFormed → (∀ r ∈ plans, IsRotatable f r) → plans.Pairwise Apart →
      (plans.foldl applyRotation f).brCount ≤ f.brCount ∧
        (plans.foldl applyRotation f).blocks.length = f.blocks.length := by
  induction plans with
  | nil => exact fun {f} _ _ _ => ⟨le_rfl, rfl⟩
  | cons r plans ih =>
    intro f hwf hplans hapart
    obtain ⟨happ, hapart⟩ := List.pairwise_cons.mp hapart
    obtain ⟨h, l, cond, thenBlk, elseBlk, hr⟩ := hplans r List.mem_cons_self
    obtain ⟨hcount, hlen⟩ := ih (hr.wellFormed hwf)
      (fun r' hr' => IsRotatable.after hwf hr (hplans r' (List.mem_cons_of_mem _ hr')) (happ r' hr'))
      hapart
    exact ⟨hcount.trans hr.brCount_lt.le, hlen.trans hr.length_blocks⟩

/-- The analyses end on a well-formed function whose block ids leave the mark's bit free. -/
lemma findRotations_isSome (hwf : f.WellFormed) (hfit : f.blocks.length ≤ Dominator.finalMark) :
    (findRotations f).isSome := by
  obtain ⟨_, dom, hdom, _⟩ := Dominator.build_spec hwf.cfg (hwf.idsFit hfit)
  have hsome : (buildLoops f.cfg dom).isSome := buildLoops_isSome hwf.cfg
  obtain ⟨loops, hloops⟩ := Option.isSome_iff_exists.mp hsome
  rw [findRotations, hdom, Option.bind_eq_bind, Option.bind_some, hloops]
  rfl

/-- **The rounds end**: each but the last has a rotation. -/
theorem rotateFunction_isSome (hwf : f.WellFormed) (hfit : f.blocks.length ≤ Dominator.finalMark) :
    (rotateFunction f).isSome := by
  have hrounds : ∀ (fuel : ℕ) {f : Func}, f.WellFormed → f.blocks.length ≤ Dominator.finalMark →
      f.brCount < fuel → (rotateRounds fuel f).isSome := by
    intro fuel
    induction fuel with
    | zero => exact fun _ _ hcount => absurd hcount (Nat.not_lt_zero _)
    | succ fuel ih =>
      intro f hwf hfit hcount
      obtain ⟨plans, hplans⟩ := Option.isSome_iff_exists.mp (findRotations_isSome hwf hfit)
      rw [rotateRounds, hplans, Option.bind_eq_bind, Option.bind_some]
      cases plans with
      | nil => rfl
      | cons r plans =>
        obtain ⟨hrot, hapart⟩ := findRotations_spec hwf hplans
        obtain ⟨_, hlen⟩ := brCount_round hwf hrot hapart
        obtain ⟨happ, hapart'⟩ := List.pairwise_cons.mp hapart
        obtain ⟨h, l, cond, thenBlk, elseBlk, hr⟩ := hrot r List.mem_cons_self
        obtain ⟨hcount', _⟩ := brCount_round (hr.wellFormed hwf)
          (fun r' hr' => IsRotatable.after hwf hr (hrot r' (List.mem_cons_of_mem _ hr')) (happ r' hr'))
          hapart'
        rw [if_neg (List.cons_ne_nil _ _)]
        refine ih (preserved_round hwf hrot hapart).1 (hlen ▸ hfit) ?_
        exact lt_of_le_of_lt hcount' (lt_of_lt_of_le hr.brCount_lt (Nat.lt_succ_iff.mp hcount))
  rw [rotateFunction, if_neg hwf.nonempty]
  exact hrounds _ hwf hfit (Nat.lt_succ_of_le List.countP_le_length)

end Torajs.Egraph
