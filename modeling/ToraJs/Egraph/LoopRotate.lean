import ToraJs.Egraph.Exec
import ToraJs.Egraph.Loops

/-!
# Loop rotation

`loop_rotate.rs`: a loop whose header only tests is turned into a bottom-tested one.  The
header's instructions are copied behind the latch's under fresh value ids, the latch takes
the header's branch, and the header stays as the entry's guard.

One analysis plans rotations whose blocks are pairwise disjoint; a planned rotation stays
one while the others are applied, and rounds end because every rotation turns a plain
branch into a conditional one.
-/

namespace Torajs.Egraph

/-- `MAX_HEADER_INSTS`. -/
def maxHeaderInsts : ℕ := 4

/-- `duplicable`: pure, trap-free and cheap enough to run twice in the binary. -/
def duplicable : InstKind → Bool
  | .binOp op _ _ => op ≠ .sDiv && op ≠ .sRem && op ≠ .fRem
  | .iCmp _ _ _ | .fCmp _ _ _ => true
  | .unary op _ =>
    op = .siToFp || op = .fpToSi || op = .fpToInt32 || op = .zExtBoolToI64 || op = .zExtI32ToI64
  | _ => false

/-- `predecessors`, the list of a block. -/
def Func.predecessors (f : Func) (b : BlockId) : List BlockId :=
  f.blocks.flatMap fun blk => ((successors blk.term).filter (· = b)).map fun _ => blk.id

/-- The values a block's instructions define. -/
def Block.defined (blk : Block) : List ValueId := blk.insts.filterMap Inst.result

/-- `header_values_stay_local`: every value the header defines is single-def and read only
inside the header. -/
def headerValuesStayLocal (f : Func) (header : BlockId) (h : Block) : Bool :=
  (f.blocks.all fun block =>
    block.id = header ||
      (block.insts.all fun inst =>
        (inst.result.all fun r => r ∉ h.defined) &&
          (visitValueOperands inst.kind).all fun v => v ∉ h.defined) &&
      (visitTerminatorValues block.term).all fun v => v ∉ h.defined) &&
    h.insts.length = h.defined.dedup.length

/-- The one target inside the loop. -/
def loopEntry (body : List BlockId) (thenBlk elseBlk : BlockId) : Option BlockId :=
  match decide (thenBlk ∈ body), decide (elseBlk ∈ body) with
  | true, false => some thenBlk
  | false, true => some elseBlk
  | _, _ => none

/-- `rotatable`. -/
def rotatable (f : Func) (body : List BlockId) (header latch : BlockId) : Bool :=
  match f.blocks[header]?, f.blocks[latch]? with
  | some h, some l =>
    latch ≠ header && l.term = .br header &&
      match h.term with
      | .condBr _ thenBlk elseBlk =>
        (loopEntry body thenBlk elseBlk).any fun entry =>
          entry ≠ header && f.predecessors entry = [header] &&
            h.insts.length ≤ maxHeaderInsts &&
            (h.insts.all fun i => i.result.isSome && duplicable i.kind) &&
            headerValuesStayLocal f header h
      | _ => false
  | _, _ => false

/-- `Rotation`. -/
structure Rotation where
  header : BlockId
  latch : BlockId
  deriving DecidableEq, Repr

/-- The blocks a rotation may touch: the body and the header's targets. -/
def touched (f : Func) (l : NaturalLoop) : List BlockId :=
  l.body ++ ((f.blocks[l.header]?).map fun h =>
    match h.term with
    | .condBr _ thenBlk elseBlk => [thenBlk, elseBlk]
    | _ => []).getD []

/-- One loop in `find_rotations`, with the blocks claimed and the plans made. -/
def pickRotation (f : Func) (s : List BlockId × List Rotation) (l : NaturalLoop) :
    List BlockId × List Rotation :=
  match l.backEdgeSources with
  | [latch] =>
    if (touched f l).any fun b => b ∈ s.1 then s
    else if rotatable f l.body l.header latch then
      (s.1 ++ touched f l, s.2 ++ [⟨l.header, latch⟩])
    else s
  | _ => s

/-- `find_rotations`. -/
def findRotations (f : Func) : Option (List Rotation) := do
  let dom ← Dominator.build f.cfg
  let loops ← buildLoops f.cfg dom
  pure (loops.foldl (pickRotation f) ([], [])).2

/-- An operand under a renaming. -/
def Operand.rename (ρ : ValueId → ValueId) : Operand → Operand
  | .value v => .value (ρ v)
  | op => op

/-- `remap_operands`, for the kinds that are copied. -/
def remapOperands (ρ : ValueId → ValueId) : InstKind → InstKind
  | .binOp op a b => .binOp op (a.rename ρ) (b.rename ρ)
  | .iCmp p a b => .iCmp p (a.rename ρ) (b.rename ρ)
  | .fCmp p a b => .fCmp p (a.rename ρ) (b.rename ρ)
  | .unary op a => .unary op (a.rename ρ)
  | kind => kind

/-- What copying a header carries along: the copies, the renaming, the value table. -/
structure Copies where
  insts : List Inst
  rename : ValueId → ValueId
  values : List SsaType

/-- One step of the loop in `apply`. -/
def Copies.push (c : Copies) (inst : Inst) : Copies :=
  match inst.result with
  | some old =>
    { insts := c.insts ++ [⟨some c.values.length, remapOperands c.rename inst.kind⟩]
      rename := Function.update c.rename old c.values.length
      values := c.values ++ [(c.values[old]?).getD .void] }
  | none => c

/-- The copies of a block's instructions. -/
def copyInsts (f : Func) (insts : List Inst) : Copies :=
  insts.foldl Copies.push ⟨[], id, f.values⟩

/-- `apply`. -/
def applyRotation (f : Func) (r : Rotation) : Func :=
  match f.blocks[r.header]? with
  | some ⟨_, insts, .condBr cond thenBlk elseBlk⟩ =>
    let c := copyInsts f insts
    { f with
      values := c.values
      blocks := f.blocks.modify r.latch fun l =>
        { l with insts := l.insts ++ c.insts, term := .condBr (cond.rename c.rename) thenBlk elseBlk } }
  | _ => f

/-- The rounds of `rotate_module` on one function. -/
def rotateRounds : ℕ → Func → Option Func
  | 0, _ => none
  | fuel + 1, f => do
    let plans ← findRotations f
    if plans = [] then pure f else rotateRounds fuel (plans.foldl applyRotation f)

/-- `rotate_module` on one function.  Every round but the last turns a `br` into a
`cond_br`. -/
def rotateFunction (f : Func) : Option Func :=
  if f.blocks = [] then some f else rotateRounds (f.blocks.length + 1) f

/-! ### Copies -/

section Copies

lemma Copies.foldl_length (insts : List Inst) :
    ∀ c : Copies, (∀ inst ∈ insts, inst.result.isSome) →
      (insts.foldl Copies.push c).insts.length = c.insts.length + insts.length ∧
      (insts.foldl Copies.push c).values.length = c.values.length + insts.length := by
  induction insts with
  | nil => exact fun _ _ => ⟨rfl, rfl⟩
  | cons inst insts ih =>
    intro c h
    obtain ⟨old, hold⟩ := Option.isSome_iff_exists.mp (h inst List.mem_cons_self)
    obtain ⟨h₁, h₂⟩ := ih (c.push inst) fun i hi => h i (List.mem_cons_of_mem _ hi)
    have hpush : (c.push inst).insts.length = c.insts.length + 1 ∧
        (c.push inst).values.length = c.values.length + 1 := by
      rw [Copies.push, hold]
      simp
    rw [List.foldl_cons, h₁, h₂, List.length_cons]
    omega

variable {f : Func} {insts : List Inst}

lemma copyInsts_take_succ {i : ℕ} {inst : Inst} (hi : insts[i]? = some inst) :
    copyInsts f (insts.take (i + 1)) = (copyInsts f (insts.take i)).push inst := by
  rw [copyInsts, List.take_add_one, hi, Option.toList_some, List.foldl_append]
  rfl

variable (hresult : ∀ inst ∈ insts, inst.result.isSome)

include hresult

lemma copyInsts_length (i : ℕ) (hi : i ≤ insts.length) :
    (copyInsts f (insts.take i)).insts.length = i ∧
      (copyInsts f (insts.take i)).values.length = f.values.length + i := by
  obtain ⟨h₁, h₂⟩ := Copies.foldl_length (insts.take i) ⟨[], id, f.values⟩
    fun inst hinst => hresult inst (List.mem_of_mem_take hinst)
  rw [List.length_take, Nat.min_eq_left hi] at h₁ h₂
  rw [copyInsts]
  exact ⟨by rw [h₁]; exact Nat.zero_add i, h₂⟩

/-- The copy of the instruction at a position, under the renaming of those before it. -/
lemma copyInsts_getElem? {i : ℕ} {inst : Inst} (hi : insts[i]? = some inst) :
    (copyInsts f insts).insts[i]? =
      some ⟨some (f.values.length + i),
        remapOperands (copyInsts f (insts.take i)).rename inst.kind⟩ := by
  have hlt := (List.getElem?_eq_some_iff.mp hi).1
  have hpre : ∀ j, i + 1 ≤ j → j ≤ insts.length →
      (copyInsts f (insts.take j)).insts[i]? =
        some ⟨some (f.values.length + i),
          remapOperands (copyInsts f (insts.take i)).rename inst.kind⟩ := by
    intro j hij
    induction j, hij using Nat.le_induction with
    | base =>
      intro _
      obtain ⟨old, hold⟩ := Option.isSome_iff_exists.mp (hresult inst (List.mem_of_getElem? hi))
      obtain ⟨h₁, h₂⟩ := copyInsts_length (f := f) hresult i hlt.le
      rw [copyInsts_take_succ hi, Copies.push, hold]
      dsimp only
      rw [List.getElem?_append_right (by rw [h₁]), h₁, Nat.sub_self, h₂]
      rfl
    | succ j hij ih =>
      intro hj
      obtain ⟨inst', hinst'⟩ : ∃ inst', insts[j]? = some inst' :=
        ⟨_, List.getElem?_eq_getElem (by omega)⟩
      obtain ⟨old, hold⟩ := Option.isSome_iff_exists.mp (hresult inst' (List.mem_of_getElem? hinst'))
      rw [copyInsts_take_succ hinst', Copies.push, hold]
      dsimp only
      rw [List.getElem?_append_left
        (by rw [(copyInsts_length (f := f) hresult j (by omega)).1]; omega)]
      exact ih (by omega)
  have hall := hpre insts.length hlt le_rfl
  rwa [List.take_length] at hall

/-- The value table grows at its end. -/
lemma copyInsts_values_prefix (i : ℕ) (hi : i ≤ insts.length) :
    f.values <+: (copyInsts f (insts.take i)).values := by
  induction i with
  | zero => exact List.prefix_refl _
  | succ i ih =>
    obtain ⟨inst, hinst⟩ : ∃ inst, insts[i]? = some inst :=
      ⟨_, List.getElem?_eq_getElem (by omega)⟩
    obtain ⟨old, hold⟩ := Option.isSome_iff_exists.mp (hresult inst (List.mem_of_getElem? hinst))
    rw [copyInsts_take_succ hinst, Copies.push, hold]
    exact (ih (by omega)).trans (List.prefix_append _ _)

/-- The renaming moves no value that is not copied yet. -/
lemma rename_of_notMem (i : ℕ) (hi : i ≤ insts.length) {v : ValueId}
    (hv : ∀ j inst, j < i → insts[j]? = some inst → inst.result ≠ some v) :
    (copyInsts f (insts.take i)).rename v = v := by
  induction i with
  | zero => rfl
  | succ i ih =>
    obtain ⟨inst, hinst⟩ : ∃ inst, insts[i]? = some inst :=
      ⟨_, List.getElem?_eq_getElem (by omega)⟩
    obtain ⟨old, hold⟩ := Option.isSome_iff_exists.mp (hresult inst (List.mem_of_getElem? hinst))
    rw [copyInsts_take_succ hinst, Copies.push, hold]
    dsimp only
    rw [Function.update_of_ne]
    · exact ih (by omega) fun j inst' hj => hv j inst' (by omega)
    · rintro rfl
      exact hv i inst (Nat.lt_succ_self i) hinst hold

/-- A copied value's new name is its copy's. -/
lemma rename_of_result {i : ℕ} (hi : i ≤ insts.length) {j : ℕ} {inst : Inst} {v : ValueId}
    (hj : insts[j]? = some inst) (hv : inst.result = some v)
    (honly : ∀ k inst', insts[k]? = some inst' → inst'.result = some v → k = j) (hji : j < i) :
    (copyInsts f (insts.take i)).rename v = f.values.length + j := by
  induction i, hji using Nat.le_induction with
  | base =>
    rw [copyInsts_take_succ hj, Copies.push, hv]
    dsimp only
    rw [Function.update_self, (copyInsts_length (f := f) hresult j (by omega)).2]
  | succ i hij ih =>
    obtain ⟨inst', hinst'⟩ : ∃ inst', insts[i]? = some inst' :=
      ⟨_, List.getElem?_eq_getElem (by omega)⟩
    obtain ⟨old, hold⟩ := Option.isSome_iff_exists.mp (hresult inst' (List.mem_of_getElem? hinst'))
    rw [copyInsts_take_succ hinst', Copies.push, hold]
    dsimp only
    rw [Function.update_of_ne]
    · exact ih (by omega)
    · rintro rfl
      have := honly i inst' hinst' hold
      omega

end Copies

end Torajs.Egraph
