import ToraJs.Egraph.Optimize

/-!
# Values in single assignment

In a function that defines every value once, a definition is ahead of every use: it is in
a block that dominates the use's block, or further up in the same block.

What the pure instructions ahead of a point compute is still in their registers when
control is there, because what is defined later is no operand of what is ahead.
-/

namespace Torajs.Egraph

open Dominance (Path Reachable Dominates)

variable {f : Func}

/-! ### Points -/

/-- The entry reaches the block. -/
def Func.Reached (f : Func) (b : BlockId) : Prop :=
  Reachable (Dominator.Edge f.cfg) (Dominator.entryId f.cfg) b

/-- Every way to the second block passes the first. -/
def Func.Dom (f : Func) (a b : BlockId) : Prop :=
  Dominates (Dominator.Edge f.cfg) (Dominator.entryId f.cfg) a b

/-- The instruction at a point. -/
def Func.InstAt (f : Func) (b k : ℕ) (inst : Inst) : Prop :=
  ∃ blk, f.BlockAt b blk ∧ blk.insts[k]? = some inst

/-- The value is defined at the point. -/
def Func.DefAt (f : Func) (v : ValueId) (b k : ℕ) : Prop :=
  ∃ inst, f.InstAt b k inst ∧ inst.result = some v

/-- **Single assignment**: a value has one definition, a parameter none. -/
structure Func.Ssa (f : Func) : Prop where
  unique : ∀ {v b k b' k'}, f.DefAt v b k → f.DefAt v b' k' → b = b' ∧ k = k'
  param : ∀ {v b k}, v ∈ f.params → ¬ f.DefAt v b k

/-- A point that every way to another point passes. -/
def Func.Precedes (f : Func) (b j c k : ℕ) : Prop := b = c ∧ j ≤ k ∨ f.Dom b c ∧ b ≠ c

/-- A value that is there whichever way control came to the point. -/
def Func.Avail (f : Func) (v : ValueId) (b k : ℕ) : Prop :=
  v ∈ f.params ∨ ∃ d j, f.DefAt v d j ∧ f.Precedes d (j + 1) b k

lemma Func.InstAt.unique {b k : ℕ} {inst inst' : Inst} (h : f.InstAt b k inst)
    (h' : f.InstAt b k inst') : inst = inst' := by
  obtain ⟨blk, hblk, hinst⟩ := h
  obtain ⟨blk', hblk', hinst'⟩ := h'
  obtain rfl := hblk.unique hblk'
  exact Option.some.inj (hinst.symm.trans hinst')

lemma Func.Dom.reached {a b : BlockId} (h : f.Dom a b) (hb : f.Reached b) : f.Reached a := by
  obtain ⟨p, hp⟩ := hb
  exact hp.reachable_of_mem (h p hp)

lemma Func.Dom.antisymm {a b : BlockId} (hab : f.Dom a b) (hba : f.Dom b a) (hb : f.Reached b) :
    a = b := Dominates.antisymm hb hab hba

lemma Func.Dom.trans {a b c : BlockId} (hab : f.Dom a b) (hbc : f.Dom b c) : f.Dom a c :=
  Dominates.trans hab hbc

lemma Func.Dom.refl (b : BlockId) : f.Dom b b := Dominates.refl b

lemma Func.Precedes.dom {b j c k : ℕ} (h : f.Precedes b j c k) : f.Dom b c := by
  rcases h with ⟨rfl, _⟩ | ⟨h, _⟩
  · exact Func.Dom.refl b
  · exact h

lemma Func.Precedes.refl (b k : ℕ) : f.Precedes b k b k := Or.inl ⟨rfl, le_rfl⟩

lemma Func.Precedes.within {b j k : ℕ} (h : j ≤ k) : f.Precedes b j b k := Or.inl ⟨rfl, h⟩

lemma Func.Precedes.trans {a i b j c k : ℕ} (hab : f.Precedes a i b j) (hbc : f.Precedes b j c k)
    (hc : f.Reached c) : f.Precedes a i c k := by
  rcases hbc with ⟨rfl, hjk⟩ | ⟨hbc, hne⟩
  · rcases hab with ⟨rfl, hij⟩ | hab
    · exact Or.inl ⟨rfl, hij.trans hjk⟩
    · exact Or.inr hab
  · rcases hab with ⟨rfl, _⟩ | ⟨hab, _⟩
    · exact Or.inr ⟨hbc, hne⟩
    · refine Or.inr ⟨hab.trans hbc, ?_⟩
      rintro rfl
      exact hne (hbc.antisymm hab hc)

/-- Points do not precede each other. -/
lemma Func.Precedes.not_succ {b j k c : ℕ} (h : f.Precedes b j c k)
    (h' : f.Precedes c (k + 1) b j) (hc : f.Reached c) : False := by
  rcases h with ⟨rfl, hjk⟩ | ⟨hbc, hne⟩
  · rcases h' with ⟨_, hkj⟩ | ⟨_, hne⟩
    · omega
    · exact hne rfl
  · rcases h' with ⟨rfl, _⟩ | ⟨hcb, _⟩
    · exact hne rfl
    · exact hne (hbc.antisymm hcb hc)

lemma Func.Avail.mono {v b j c k : ℕ} (h : f.Avail v b j) (hbc : f.Precedes b j c k)
    (hc : f.Reached c) : f.Avail v c k := by
  rcases h with hparam | ⟨d, i, hdef, hd⟩
  · exact Or.inl hparam
  · exact Or.inr ⟨d, i, hdef, hd.trans hbc hc⟩

/-- Nothing that is defined at a point is there before it. -/
lemma Func.Avail.ne_of_defAt (hssa : f.Ssa) {v w b k : ℕ} (h : f.Avail v b k)
    (hw : f.DefAt w b k) (hb : f.Reached b) : v ≠ w := by
  rintro rfl
  rcases h with hparam | ⟨d, i, hdef, hd⟩
  · exact hssa.param hparam hw
  · obtain ⟨rfl, rfl⟩ := hssa.unique hdef hw
    exact (Func.Precedes.refl d i).not_succ hd hb

/-- What is there at a block's start was there at the end of every block that branches to it. -/
lemma Func.Avail.of_branch (hwf : f.WellFormed) {v b t : ℕ} {blk : Block} (hblk : f.BlockAt b blk)
    (ht : t ∈ successors blk.term) (h : f.Avail v t 0) : f.Avail v b blk.insts.length := by
  rcases h with hparam | ⟨d, i, hdef, ⟨_, hle⟩ | ⟨hdom, hne⟩⟩
  · exact Or.inl hparam
  · exact absurd hle (Nat.not_succ_le_zero i)
  · refine Or.inr ⟨d, i, hdef, ?_⟩
    have hdb : f.Dom d b := Dominates.pred hdom hne (hwf.edge_cfg hblk ht)
    by_cases heq : d = b
    · subst heq
      obtain ⟨inst, ⟨blk', hblk', hinst⟩, _⟩ := hdef
      obtain rfl := hblk'.unique hblk
      exact Or.inl ⟨rfl, (List.getElem?_eq_some_iff.mp hinst).1⟩
    · exact Or.inr ⟨hdb, heq⟩

/-! ### Uses -/

/-- Inside a block control defines what the block's instructions define. -/
lemma Func.Walk.within_defs {b : BlockId} {blk : Block} (hblk : f.BlockAt b blk)
    {defs : List ValueId} (h : f.Walk b 0 defs) : ∀ k, k ≤ blk.insts.length →
      ∃ defs', f.Walk b k defs' ∧ ∀ v ∈ defs', v ∈ defs ∨ ∃ j, f.DefAt v b j := by
  intro k
  induction k with
  | zero => exact fun _ => ⟨defs, h, fun v hv => Or.inl hv⟩
  | succ k ih =>
    intro hk
    obtain ⟨defs', hwalk', hdefs'⟩ := ih (Nat.le_of_succ_le hk)
    have hinst : blk.insts[k]? = some blk.insts[k] := List.getElem?_eq_getElem hk
    refine ⟨_, hwalk'.next hblk hinst, fun v hv => ?_⟩
    rcases List.mem_append.mp hv with hres | hv
    · exact Or.inr ⟨k, _, ⟨blk, hblk, hinst⟩, Option.mem_toList.mp hres⟩
    · exact hdefs' v hv

/-- Along a path of blocks control defines what their instructions define. -/
lemma Func.WellFormed.walk_of_path (hwf : f.WellFormed) {b : BlockId} {p : List BlockId}
    (hp : Path (Dominator.Edge f.cfg) (Dominator.entryId f.cfg) b p) :
    ∃ defs, f.Walk b 0 defs ∧ ∀ v ∈ defs, v ∈ f.params ∨ ∃ c ∈ p, ∃ j, f.DefAt v c j := by
  induction hp with
  | root =>
    refine ⟨f.params, ?_, fun v hv => Or.inl hv⟩
    rw [hwf.entryId_cfg]
    exact Func.Walk.entry
  | @step b c p hp hedge ih =>
    obtain ⟨defs, hwalk, hdefs⟩ := ih
    obtain ⟨blk, hblk, hc⟩ := hwf.exists_of_edge hedge
    obtain ⟨defs', hwalk', hdefs'⟩ := hwalk.within_defs hblk blk.insts.length le_rfl
    refine ⟨defs', hwalk'.branch hblk hc, fun v hv => ?_⟩
    rcases hdefs' v hv with hv | ⟨j, hdef⟩
    · exact (hdefs v hv).imp_right fun ⟨d, hd, hdef⟩ => ⟨d, List.mem_cons_of_mem _ hd, hdef⟩
    · exact Or.inr ⟨b, List.mem_cons_of_mem _ hp.mem_self, j, hdef⟩

/-- **What is read is there.** -/
lemma Func.WellFormed.avail_of_read (hwf : f.WellFormed) (hssa : f.Ssa) {b k : ℕ} {blk : Block}
    (hb : f.Reached b) (hblk : f.BlockAt b blk) (hk : k ≤ blk.insts.length) {v : ValueId}
    (hv : v ∈ blk.readsAt k) : f.Avail v b k := by
  by_cases hparam : v ∈ f.params
  · exact Or.inl hparam
  -- on every path the value is defined, in a block of the path
  have hpath : ∀ p, Path (Dominator.Edge f.cfg) (Dominator.entryId f.cfg) b p →
      ∃ c ∈ p, ∃ j, f.DefAt v c j := by
    intro p hp
    obtain ⟨defs, hwalk, hdefs⟩ := hwf.walk_of_path hp
    obtain ⟨defs', hwalk', hdefs'⟩ := hwalk.within_defs hblk k hk
    rcases hdefs' v (hwf.defined b k defs' hwalk' blk hblk v hv) with hmem | ⟨j, hdef⟩
    · exact (hdefs v hmem).resolve_left hparam
    · exact ⟨b, hp.mem_self, j, hdef⟩
  obtain ⟨p, hp⟩ := hb
  obtain ⟨d, _, j, hdef⟩ := hpath p hp
  refine Or.inr ⟨d, j, hdef, ?_⟩
  by_cases hdb : d = b
  · subst hdb
    have honly : f.OnlyDef v d j := ⟨hparam, fun b i blk inst hblk hinst hres => by
      obtain ⟨rfl, rfl⟩ := hssa.unique hdef ⟨inst, ⟨blk, hblk, hinst⟩, hres⟩
      exact ⟨rfl, rfl⟩⟩
    obtain ⟨defs, hwalk, _⟩ := hwf.walk_of_path hp
    obtain ⟨defs', hwalk', _⟩ := hwalk.within_defs hblk k hk
    exact Func.Precedes.within (hwf.lt_of_read honly hwalk' hblk hv)
  · refine Or.inr ⟨fun q hq => ?_, hdb⟩
    obtain ⟨c, hc, i, hdef'⟩ := hpath q hq
    rwa [(hssa.unique hdef hdef').1]

/-! ### What the pure instructions say -/

variable {V World : Type} {I : Interp V World} {enc : OtherKind → List V → V}

/-- What a pure instruction computes, the encodings included. -/
def InstKind.value (I : Interp V World) (enc : OtherKind → List V → V) (ρ : ValueId → V)
    (kind : InstKind) : Option V :=
  match kind with
  | .other k args => if k.isEncode then some (enc k (args.map (·.eval I ρ))) else none
  | _ => kind.pureValue I ρ

/-- An interpretation under which the rewrite rules and the folding of branches are right, and an
encoding leaves the world alone. -/
structure Interp.Lawful (I : Interp V World) (enc : OtherKind → List V → V) : Prop where
  truth : ∀ b, I.truth (I.constBool b) = b
  identity : ∀ x, I.unary .identity x = x
  rewrite : ∀ {kind kind' : InstKind}, applyRewrites builtinRules kind = some kind' →
    ∀ ρ, kind'.pureValue I ρ = kind.pureValue I ρ
  encode : ∀ k, OtherKind.isEncode k = true →
    ∀ args w, I.act (.other k) args w = some (enc k args, w)

/-- A pure instruction has a value. -/
lemma InstKind.exists_value {kind : InstKind} (h : kind.isPure = true) (ρ : ValueId → V) :
    ∃ x, kind.value I enc ρ = some x := by
  cases kind with
  | other k args => exact ⟨_, if_pos h⟩
  | binOp op a b | iCmp op a b | fCmp op a b | unary op a | select op a b c => exact ⟨_, rfl⟩
  | addr a | copy ty a | alloca ty | allocaBytes n | load ty p off | store x p off => cases h

/-- **A pure instruction computes its value** and leaves the world alone. -/
lemma Inst.run_of_value (hI : I.Lawful enc) {values : List SsaType} {ρ : ValueId → V} {w : World}
    {inst : Inst} {x : V} (h : inst.kind.value I enc ρ = some x) :
    inst.run I values ρ w = some (x, w) := by
  cases hkind : inst.kind with
  | other k args =>
    rw [hkind, InstKind.value] at h
    split_ifs at h with hk
    have hpure : inst.kind.pureValue I ρ = none := by rw [hkind]; rfl
    have haction : inst.action? values = some (.other k) := by rw [Inst.action?, hkind]
    rw [Inst.run, hpure, haction, Option.bind_some, hI.encode k hk, hkind]
    exact congrArg (fun y => some (y, w)) (Option.some.inj h)
  | _ =>
    rw [hkind] at h
    exact Inst.run_of_pureValue (hkind ▸ h)

/-- Operands that hold the same give the same value. -/
lemma InstKind.value_remap {h : Operand → Operand} {ρ ρ' : ValueId → V} {kind : InstKind}
    (hh : ∀ a ∈ kind.operands, (h a).eval I ρ' = a.eval I ρ) :
    (kind.remap h).value I enc ρ' = kind.value I enc ρ := by
  cases kind with
  | other k args =>
    have hargs : (args.map h).map (·.eval I ρ') = args.map (·.eval I ρ) := by
      rw [List.map_map]
      exact List.map_congr_left fun a ha => hh a ha
    rw [InstKind.remap, InstKind.value, InstKind.value, hargs]
  | _ => simp_all [InstKind.remap, InstKind.value, InstKind.pureValue, InstKind.operands]

lemma InstKind.value_congr {ρ ρ' : ValueId → V} {kind : InstKind}
    (h : ∀ v ∈ visitValueOperands kind, ρ' v = ρ v) :
    kind.value I enc ρ' = kind.value I enc ρ := by
  have hid : kind.remap id = kind := by
    cases kind <;> simp [InstKind.remap]
  have hmap : (kind.remap id).value I enc ρ' = kind.value I enc ρ :=
    InstKind.value_remap fun a ha => Operand.eval_congr fun v hv =>
      h v (mem_visitValueOperands ha hv)
  rwa [hid] at hmap

/-- **The pure instructions ahead of a point hold there**: each register has what its instruction
computes from the others. -/
def Func.Sat (f : Func) (I : Interp V World) (enc : OtherKind → List V → V) (ρ : ValueId → V)
    (b k : ℕ) : Prop :=
  ∀ d j inst r, f.InstAt d j inst → inst.result = some r → inst.kind.isPure = true →
    f.Precedes d (j + 1) b k → inst.kind.value I enc ρ = some (ρ r)

lemma Func.Sat.mono {ρ : ValueId → V} {b j c k : ℕ} (h : f.Sat I enc ρ c k)
    (hbc : f.Precedes b j c k) (hc : f.Reached c) : f.Sat I enc ρ b j :=
  fun d i inst r hinst hres hpure hd => h d i inst r hinst hres hpure (hd.trans hbc hc)

/-- Nothing is ahead of the entry. -/
lemma Func.WellFormed.sat_entry (hwf : f.WellFormed) (ρ : ValueId → V) : f.Sat I enc ρ 0 0 := by
  rintro d j inst r _ _ _ (⟨_, hle⟩ | ⟨hdom, hne⟩)
  · exact absurd hle (Nat.not_succ_le_zero j)
  · have hroot : f.Dom d (Dominator.entryId f.cfg) := by rwa [hwf.entryId_cfg]
    exact absurd (hroot.eq_root.trans hwf.entryId_cfg) hne

/-- **An instruction keeps what was ahead of it**, and adds itself. -/
lemma Func.Sat.next (hwf : f.WellFormed) (hssa : f.Ssa) {ρ : ValueId → V} {b k : ℕ} {inst : Inst}
    (h : f.Sat I enc ρ b k) (hb : f.Reached b) (hinst : f.InstAt b k inst) {x : V}
    (hx : inst.kind.isPure = true → inst.kind.value I enc ρ = some x) :
    f.Sat I enc (inst.write ρ x) b (k + 1) := by
  intro d j inst' r hinst' hres hpure hd
  have hdreach : f.Reached d := hd.dom.reached hb
  -- what the instruction ahead reads is ahead of it, so it is not written here
  have hread : ∀ v ∈ visitValueOperands inst'.kind, f.Avail v d j := by
    intro v hv
    obtain ⟨blk, hblk, hk⟩ := hinst'
    refine hwf.avail_of_read hssa hdreach hblk (List.getElem?_eq_some_iff.mp hk).1.le ?_
    rwa [Block.readsAt_inst hk]
  have hkeep : ∀ v, f.Avail v b k → inst.write ρ x v = ρ v := fun v hv =>
    Inst.write_ne (fun hres => hv.ne_of_defAt hssa ⟨inst, hinst, hres⟩ hb rfl) ρ x
  rcases hd with ⟨rfl, hjk⟩ | hd
  · rcases Nat.lt_or_eq_of_le hjk with hlt | heq
    · have hprec : f.Precedes d (j + 1) d k := Func.Precedes.within (Nat.le_of_lt_succ hlt)
      rw [hkeep r (Or.inr ⟨d, j, ⟨inst', hinst', hres⟩, hprec⟩),
        ← h d j inst' r hinst' hres hpure hprec]
      exact InstKind.value_congr fun v hv => hkeep v
        ((hread v hv).mono (Func.Precedes.within (Nat.le_of_lt (Nat.lt_of_succ_lt_succ hlt))) hb)
    · obtain rfl := Nat.succ.inj heq
      obtain rfl := hinst.unique hinst'
      rw [Inst.write_self hres, ← hx hpure]
      exact InstKind.value_congr fun v hv => hkeep v (hread v hv)
  · have hprec : f.Precedes d (j + 1) b k := Or.inr hd
    rw [hkeep r (Or.inr ⟨d, j, ⟨inst', hinst', hres⟩, hprec⟩),
      ← h d j inst' r hinst' hres hpure hprec]
    exact InstKind.value_congr fun v hv => hkeep v ((hread v hv).mono (Or.inr hd) hb)

/-- A branch keeps what was ahead of it. -/
lemma Func.Sat.branch (hwf : f.WellFormed) {ρ : ValueId → V} {b t : ℕ} {blk : Block}
    (h : f.Sat I enc ρ b blk.insts.length) (hblk : f.BlockAt b blk)
    (ht : t ∈ successors blk.term) : f.Sat I enc ρ t 0 := by
  rintro d j inst r hinst hres hpure (⟨_, hle⟩ | ⟨hdom, hne⟩)
  · exact absurd hle (Nat.not_succ_le_zero j)
  · refine h d j inst r hinst hres hpure ?_
    have hdb : f.Dom d b := Dominates.pred hdom hne (hwf.edge_cfg hblk ht)
    by_cases heq : d = b
    · subst heq
      obtain ⟨blk', hblk', hk⟩ := hinst
      obtain rfl := hblk'.unique hblk
      exact Func.Precedes.within (List.getElem?_eq_some_iff.mp hk).1
    · exact Or.inr ⟨hdb, heq⟩

end Torajs.Egraph
