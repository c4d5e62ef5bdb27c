import ToraJs.Regalloc.Ir

/-!
# Executions

A run moves from point to point and keeps what every value's register holds.  Branches go
either way and an instruction may write anything, except for the kinds that move bits: a
copy writes what its source holds, a widening of a 32-bit value clears the top half, and a
32-bit load leaves it clear.  So every execution of the function is a run.

A value holds nothing before its first definition on the run, and a copy of nothing is not
executed.
-/

namespace Torajs.Regalloc

/-- What the values' registers hold. -/
abbrev Env := ValueId → Option ℕ

/-- What an instruction may write. -/
def Produces (env : Env) (n : ℕ) : InstKind → Prop
  | .copy _ (.value v) | .ptrToInt (.value v) | .intToPtr (.value v) => env v = some n
  | .zExtI32ToI64 (.value v) => ∃ m, env v = some m ∧ n = m % 2 ^ 32
  | .load .i32 _ _ => n < 2 ^ 32
  | _ => True

/-- The instruction at a point. -/
def Func.instAt (f : Func) (x : Point) : Option Inst :=
  (f.blocks[x.block]?).bind fun b => b.insts[x.slot]?

/-- A state of a run. -/
structure Config where
  point : Point
  env : Env

/-- What arriving at a point does to the registers: the write half of an instruction with a
result writes it. -/
inductive Func.Writes (f : Func) (x : Point) (env : Env) : Env → Prop
  | keep : (∀ v, ¬ f.DefsAt v x) → Func.Writes f x env env
  | define {inst : Inst} {r : ValueId} {n : ℕ} : x.write = true → f.instAt x = some inst →
      inst.result = some r → Produces env n inst.kind →
      Func.Writes f x env (Function.update env r (some n))

/-- The states of the runs: at the entry only the parameters hold something. -/
inductive Func.Reachable (f : Func) : Config → Prop
  | entry {env : Env} : (∀ v, (env v).isSome ↔ v ∈ f.params) → Func.Reachable f ⟨entryPoint, env⟩
  | step {x y : Point} {env env' : Env} : Func.Reachable f ⟨x, env⟩ → f.Step x y →
      f.Writes y env env' → Func.Reachable f ⟨y, env'⟩

variable {f : Func}

/-- An instruction's slot. -/
lemma Func.slotAt_of_instAt {x : Point} {inst : Inst} (h : f.instAt x = some inst) :
    f.slotAt x = some inst.slot := by
  obtain ⟨b, hb, hk⟩ := Option.bind_eq_some_iff.mp h
  have hlt := (List.getElem?_eq_some_iff.mp hk).1
  rw [Func.slotAt, hb, Option.bind_some, Block.slots,
    List.getElem?_append_left (by rwa [List.length_map]), List.getElem?_map, hk]
  rfl

/-- Only instructions define. -/
lemma Func.defsAt_iff {v : ValueId} {x : Point} :
    f.DefsAt v x ↔ x.write = true ∧ ∃ inst, f.instAt x = some inst ∧ inst.result = some v := by
  constructor
  · rintro ⟨hw, s, hs, hres⟩
    obtain ⟨b, hb, hk⟩ := Option.bind_eq_some_iff.mp hs
    rw [Block.slots] at hk
    by_cases hlt : x.slot < b.insts.length
    · rw [List.getElem?_append_left (by rwa [List.length_map]), List.getElem?_map] at hk
      obtain ⟨inst, hinst, rfl⟩ := Option.map_eq_some_iff.mp hk
      exact ⟨hw, inst, by rw [Func.instAt, hb, Option.bind_some, hinst], hres⟩
    · -- the terminator's slot has no result
      rw [List.getElem?_append_right (by rw [List.length_map]; omega)] at hk
      have hmem := List.mem_of_getElem? hk
      obtain rfl := List.mem_singleton.mp hmem
      cases hres
  · rintro ⟨hw, inst, hinst, hres⟩
    exact ⟨hw, inst.slot, f.slotAt_of_instAt hinst, hres⟩

/-- A point is written to from its own reading half. -/
lemma Func.Step.of_write {x y : Point} (h : f.Step x y) (hw : y.write = true) :
    x = ⟨y.block, y.slot, false⟩ := by
  cases h with
  | write _ _ => rfl
  | next _ _ => cases hw
  | branch _ _ _ => cases hw

/-- A step writes the values that its point defines, and no others. -/
lemma Func.Writes.eq_of_not_defsAt {x : Point} {env env' : Env} (h : f.Writes x env env')
    {v : ValueId} (hdef : ¬ f.DefsAt v x) : env' v = env v := by
  cases h with
  | keep _ => rfl
  | @define inst r n hw hinst hres _ =>
    refine Function.update_of_ne ?_ _ _
    rintro rfl
    exact hdef (Func.defsAt_iff.mpr ⟨hw, inst, hinst, hres⟩)

/-- What a step writes to a value that its point defines. -/
lemma Func.Writes.produces {x : Point} {env env' : Env} (h : f.Writes x env env') {v : ValueId}
    (hdef : f.DefsAt v x) :
    ∃ inst n, f.instAt x = some inst ∧ inst.result = some v ∧ Produces env n inst.kind ∧
      env' = Function.update env v (some n) := by
  cases h with
  | keep hnone => exact absurd hdef (hnone v)
  | @define inst r n hw hinst hres hprod =>
    obtain ⟨_, inst', hinst', hres'⟩ := Func.defsAt_iff.mp hdef
    obtain rfl := Option.some.inj (hinst.symm.trans hinst')
    obtain rfl := Option.some.inj (hres.symm.trans hres')
    exact ⟨inst, n, hinst, hres, hprod, rfl⟩

/-- Two values that hold the same wherever both are live and hold something. -/
def Func.Agree (f : Func) (v w : ValueId) : Prop :=
  ∀ c, f.Reachable c → f.LiveAt v c.point → f.LiveAt w c.point →
    ∀ m n, c.env v = some m → c.env w = some n → m = n

lemma Func.Agree.refl (f : Func) (v : ValueId) : f.Agree v v :=
  fun _ _ _ _ _ _ hm hn => Option.some.inj (hm.symm.trans hn)

lemma Func.Agree.symm {v w : ValueId} (h : f.Agree v w) : f.Agree w v :=
  fun c hc hw hv m n hm hn => (h c hc hv hw n m hn hm).symm

/-! ### Moves -/

/-- An instruction that moves the bits of a value, on every run. -/
def Func.Moves (f : Func) (inst : Inst) (v : ValueId) : Prop :=
  v ∈ visitInstOperands inst.kind ∧
    ∀ c, f.Reachable c → ∀ n, Produces c.env n inst.kind → c.env v = some n

/-- **A copy agrees with its source's class**: where every definition of `w` moves `v`, `w`
agrees with every value that agrees with `v` and is not written while `w` is live. -/
theorem Func.agree_of_moves {v w u : ValueId} (hparam : w ∉ f.params)
    (hmoves : ∀ x inst, f.instAt x = some inst → inst.result = some w → f.Moves inst v)
    (hagree : f.Agree v u) (hkill : ∀ x, f.DefsAt u x → ¬ f.LiveAt w x) : f.Agree w u := by
  intro c hc
  induction hc with
  | @entry env henv =>
    intro _ _ m n hm _
    have hm : env w = some m := hm
    exact absurd ((henv w).mp (by rw [hm]; rfl)) hparam
  | @step x y env env' hreach hstep hwrites ih =>
    intro hw hu m n hm hn
    by_cases hdu : f.DefsAt u y
    · exact absurd hw (hkill y hdu)
    · have hux : f.LiveAt u x := Func.LiveAt.step hstep hdu hu
      have hnx : env u = some n := by rw [← hwrites.eq_of_not_defsAt hdu]; exact hn
      by_cases hdw : f.DefsAt w y
      · -- the copy: its source is live where it reads, and agrees with `u` there
        obtain ⟨inst, k, hinst, hres, hprod, rfl⟩ := hwrites.produces hdw
        obtain ⟨hread, hsame⟩ := hmoves y inst hinst hres
        have hx := hstep.of_write hdw.1
        have hvx : f.LiveAt v x := by
          refine Func.LiveAt.use ⟨by rw [hx], inst.slot, ?_, hread⟩
          rw [hx]
          exact f.slotAt_of_instAt (x := ⟨y.block, y.slot, false⟩) hinst
        have hm : Function.update env w (some k) w = some m := hm
        rw [Function.update_self] at hm
        obtain rfl := Option.some.inj hm
        exact hagree ⟨x, env⟩ hreach hvx hux _ n (hsame ⟨x, env⟩ hreach _ hprod) hnx
      · refine ih (Func.LiveAt.step hstep hdw hw) hux m n ?_ hnx
        rw [← hm]
        exact (hwrites.eq_of_not_defsAt hdw).symm

/-- A value that only 32-bit loads define has its top half clear. -/
lemma Func.lt_of_loads {v : ValueId} (hparam : v ∉ f.params)
    (hloads : ∀ x inst, f.instAt x = some inst → inst.result = some v →
      ∃ ptr off, inst.kind = .load .i32 ptr off)
    {c : Config} (hc : f.Reachable c) : ∀ m, c.env v = some m → m < 2 ^ 32 := by
  induction hc with
  | @entry env henv =>
    intro m hm
    have hm : env v = some m := hm
    exact absurd ((henv v).mp (by rw [hm]; rfl)) hparam
  | @step x y env env' hreach hstep hwrites ih =>
    intro m hm
    by_cases hdef : f.DefsAt v y
    · obtain ⟨inst, k, hinst, hres, hprod, rfl⟩ := hwrites.produces hdef
      obtain ⟨ptr, off, hkind⟩ := hloads y inst hinst hres
      rw [hkind] at hprod
      have hm : Function.update env v (some k) v = some m := hm
      rw [Function.update_self] at hm
      obtain rfl := Option.some.inj hm
      exact hprod
    · exact ih m ((hwrites.eq_of_not_defsAt hdef).symm.trans hm)

end Torajs.Regalloc
