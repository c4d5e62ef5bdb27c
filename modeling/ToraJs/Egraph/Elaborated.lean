import ToraJs.Egraph.HoistSound

/-!
# What elaboration writes

The second phase leaves the e-graph.  Of an instruction of a block the entry reaches it
writes the canonical form: behind what the block has so far, or behind everything of a block
above, where the value was noted to move to; or it writes nothing, where uses read a literal
or another value.

`Elaborated` says that of all blocks at once: every block has, in order, what its own
instructions left, then the values that moved to its end, each behind its operands.
-/

namespace Torajs.Egraph

open TreeNumbering (Anc)

variable {V World : Type} {f : Func} {I : Interp V World} {enc : OtherKind → List V → V}
  {e₀ e : Graph} {canon : ValueId → ValueId} {key : ValueId → InstKind}

/-! ### What the first phase hands over -/

/-- **What the second phase relies on.** -/
structure Ready (f : Func) (I : Interp V World) (enc : OtherKind → List V → V) (e : Graph)
    (canon : ValueId → ValueId) : Prop where
  len : e.len = f.values.length
  flat : e.Flat canon
  param : ∀ v ∈ f.params, canon v = v ∧ e.valueToConst v = none ∧ e.availableBlock v = none
  known : ∀ {d j inst r}, f.Reached d → f.InstAt d j inst → inst.result = some r →
    Known f I enc e canon d j inst r
  resolved : ∀ {v b k}, f.Reached b → f.Avail v b k → Resolved f I enc canon v b k
  placed : ∀ {d j inst r t}, f.Reached d → f.InstAt d j inst → inst.result = some r →
    e.availableBlock r = some t → canon r = r ∧ e.valueToConst r = none ∧
      inst.kind.isPure = true ∧ f.Dom t d ∧ ∀ v ∈ visitValueOperands (e.baseKind inst),
        canon v ∈ f.params ∨ ∃ i m, f.DefAt (canon v) i m ∧ f.Dom (e.placeOf (canon v) i) t

lemma Hoisted.ready (hf : f.Lowered)
    (hw : Walked f I enc (fun d _ => f.Reached d) e₀ canon key) (h : Hoisted f e₀ canon e) :
    Ready f I enc e canon where
  len := h.len.trans hw.len
  flat := h.flat hw.flat
  param v hv := by
    obtain ⟨hself, hconst, _, hav⟩ := hw.untouched v (hw.len ▸ hf.wellFormed.param_lt v hv)
      fun d j hdef _ => hf.ssa.param hv hdef
    refine ⟨hself, ?_, (h.none_iff v).mpr hav⟩
    rw [h.same]
    exact hconst
  known hd hinst hres := by
    have hs := hw.settled _ _ _ _ hinst hres hd
    rw [h.same]
    exact ⟨hs.avail, hs.pure, hs.eq, hs.width, hs.copied, hs.const, hs.rewritten⟩
  resolved hb hv := hw.resolved hf hb (fun _ _ _ _ hp => hp.dom.reached hb) hv
  placed {d j inst r t} hd hinst hres ht := by
    have hbase : e.baseKind inst = e₀.baseKind inst := by
      rw [h.same]
      rfl
    have hconst : e.valueToConst r = e₀.valueToConst r := by rw [h.same]
    obtain ⟨t₀, ht₀⟩ : ∃ t₀, e₀.availableBlock r = some t₀ := by
      refine Option.ne_none_iff_exists'.mp fun hnone => ?_
      rw [(h.none_iff r).mpr hnone] at ht
      cases ht
    obtain ⟨_, hself, hnone, hpure⟩ := (hw.settled d j inst r hinst hres hd).available t₀ ht₀
    rw [hbase, hconst]
    exact ⟨hself, hnone, hpure, h.placed d j inst r t hd hinst hres ht⟩

/-! ### The kind an instruction is written with -/

lemma Graph.baseKind_void {inst : Inst} (hres : inst.result = none) :
    e.baseKind inst = inst.kind := by
  rw [Graph.baseKind, hres]
  rfl

lemma Graph.baseKind_result {inst : Inst} {r : ValueId} (hres : inst.result = some r) :
    e.baseKind inst = (e.rewrittenKind r).getD inst.kind := by
  rw [Graph.baseKind, hres]
  rfl

lemma InstKind.isPure_remap (h : Operand → Operand) (kind : InstKind) :
    (kind.remap h).isPure = kind.isPure := by
  cases kind <;> rfl

namespace Ready

variable {b k : ℕ} {inst : Inst} {r : ValueId}

/-- What holds of the instruction's own kind and of a rewritten one holds of the kind it is
written with. -/
lemma base_cases (h : Ready f I enc e canon) (hb : f.Reached b) (hinst : f.InstAt b k inst) :
    e.baseKind inst = inst.kind ∨ inst.kind.isArith = true ∧ (e.baseKind inst).isArith = true ∧
      (∀ a, e.baseKind inst ≠ .unary .identity a) ∧
      (∀ v ∈ visitValueOperands (e.baseKind inst), f.Avail v b k) ∧
      ∀ ρ, f.Sat I enc ρ b k →
        (e.baseKind inst).value I enc ρ = inst.kind.value I enc ρ := by
  cases hres : inst.result with
  | none => exact Or.inl (Graph.baseKind_void hres)
  | some r =>
    rw [Graph.baseKind_result hres]
    cases hkind : e.rewrittenKind r with
    | none => exact Or.inl rfl
    | some kind => exact Or.inr ((h.known hb hinst hres).rewritten kind hkind)

lemma base_avail (hf : f.Lowered) (h : Ready f I enc e canon) (hb : f.Reached b)
    (hinst : f.InstAt b k inst) : ∀ v ∈ visitValueOperands (e.baseKind inst), f.Avail v b k := by
  rcases h.base_cases hb hinst with heq | ⟨_, _, _, havail, _⟩
  · rw [heq]
    exact fun v hv => hf.avail hb hinst hv
  · exact havail

lemma base_isLate (hf : f.Lowered) (h : Ready f I enc e canon) (hb : f.Reached b)
    (hinst : f.InstAt b k inst) : (e.baseKind inst).isLate = false := by
  rcases h.base_cases hb hinst with heq | ⟨_, harith, _⟩
  · rw [heq]
    exact hf.early b inst hinst.hasInst
  · exact InstKind.isLate_of_isArith harith

lemma base_isPure (h : Ready f I enc e canon) (hb : f.Reached b) (hinst : f.InstAt b k inst) :
    (e.baseKind inst).isPure = inst.kind.isPure := by
  rcases h.base_cases hb hinst with heq | ⟨harith, harith', _⟩
  · rw [heq]
  · rw [InstKind.isPure_of_isArith harith, InstKind.isPure_of_isArith harith']

/-- A copy was one before. -/
lemma kind_of_base_identity (h : Ready f I enc e canon) (hb : f.Reached b)
    (hinst : f.InstAt b k inst) {a : Operand} (hbase : e.baseKind inst = .unary .identity a) :
    inst.kind = .unary .identity a := by
  rcases h.base_cases hb hinst with heq | ⟨_, _, hne, _⟩
  · rw [← heq, hbase]
  · exact absurd hbase (hne a)

lemma base_value (h : Ready f I enc e canon) (hb : f.Reached b) (hinst : f.InstAt b k inst)
    {ρ : ValueId → V} (hρ : f.Sat I enc ρ b k) :
    (e.baseKind inst).value I enc ρ = inst.kind.value I enc ρ := by
  rcases h.base_cases hb hinst with heq | ⟨_, _, _, _, hvalue⟩
  · rw [heq]
  · exact hvalue ρ hρ

/-- **An instruction does the same with the kind it is written with.** -/
lemma base_run (hI : I.Lawful enc) (h : Ready f I enc e canon) (hb : f.Reached b)
    (hinst : f.InstAt b k inst) {ρ : ValueId → V} (hρ : f.Sat I enc ρ b k) (w : World) :
    (Inst.mk inst.result (e.baseKind inst)).run I f.values ρ w = inst.run I f.values ρ w := by
  rcases h.base_cases hb hinst with heq | ⟨harith, _, _, _, hvalue⟩
  · rw [heq]
  · obtain ⟨x, hx⟩ : ∃ x, inst.kind.value I enc ρ = some x :=
      InstKind.exists_value (InstKind.isPure_of_isArith harith) ρ
    rw [Inst.run_of_value hI hx]
    exact Inst.run_of_value hI ((hvalue ρ hρ).trans hx)

/-! ### Operands -/

/-- **A value read as a literal is that literal.** -/
lemma literal (h : Ready f I enc e canon) (hb : f.Reached b) {v : ValueId} (hv : f.Avail v b k)
    {op : Operand} (hop : e.valueToConst v = some op) :
    op.value? = none ∧ isI32 f.values op = isI32 f.values (.value v) ∧
      ∀ ρ, f.Sat I enc ρ b k → ρ v = op.eval I ρ := by
  rcases hv with hparam | ⟨d, j, ⟨inst, hinst, hres⟩, hd⟩
  · rw [(h.param v hparam).2.1] at hop
    cases hop
  · obtain ⟨_, _, hnone, hwidth, hvalue⟩ :=
      (h.known (hd.dom.reached hb) hinst hres).const op hop
    exact ⟨hnone, hwidth, fun ρ hρ => hvalue ρ (hρ.mono hd hb)⟩

end Ready

/-- The registers of both runs agree on the canonical values that are there and are no literals. -/
def Agree (f : Func) (e : Graph) (canon : ValueId → ValueId) (ρ ρ' : ValueId → V) (b k : ℕ) :
    Prop :=
  ∀ c, f.Avail c b k → canon c = c → e.valueToConst c = none → ρ' c = ρ c

namespace Ready

variable {b k : ℕ} {inst : Inst} {r : ValueId}

/-- What is left of an operand: a literal, or a canonical value. -/
lemma resolve_cases (h : Ready f I enc e canon) (hb : f.Reached b) {v : ValueId}
    (hv : f.Avail v b k) :
    (∃ op, e.valueToConst (canon v) = some op ∧ e.resolve canon (.value v) = op ∧
        op.value? = none) ∨
      e.valueToConst (canon v) = none ∧ e.resolve canon (.value v) = .value (canon v) := by
  cases hconst : e.valueToConst (canon v) with
  | none => exact Or.inr ⟨rfl, by rw [Graph.resolve, hconst]; rfl⟩
  | some op =>
    refine Or.inl ⟨op, rfl, by rw [Graph.resolve, hconst]; rfl, ?_⟩
    exact (h.literal hb (h.resolved hb hv).avail hconst).1

/-- **An operand reads the same.** -/
lemma eval_resolve (h : Ready f I enc e canon) (hb : f.Reached b) {a : Operand}
    (ha : ∀ v, a.value? = some v → f.Avail v b k) {ρ ρ' : ValueId → V} (hρ : f.Sat I enc ρ b k)
    (hagree : Agree f e canon ρ ρ' b k) : (e.resolve canon a).eval I ρ' = a.eval I ρ := by
  cases a with
  | value v =>
    have hr := h.resolved hb (ha v rfl)
    rcases h.resolve_cases hb (ha v rfl) with ⟨op, hconst, heq, hnone⟩ | ⟨hconst, heq⟩
    · rw [heq]
      calc op.eval I ρ' = op.eval I ρ := Operand.eval_congr fun w hw => by
            rw [hnone] at hw
            cases hw
        _ = ρ (canon v) := ((h.literal hb hr.avail hconst).2.2 ρ hρ).symm
        _ = ρ v := (hr.eq ρ hρ).symm
    · rw [heq]
      exact (hagree (canon v) hr.avail hr.idem hconst).trans (hr.eq ρ hρ).symm
  | _ => rfl

lemma isI32_resolve (h : Ready f I enc e canon) (hb : f.Reached b) {a : Operand}
    (ha : ∀ v, a.value? = some v → f.Avail v b k) :
    isI32 f.values (e.resolve canon a) = isI32 f.values a := by
  cases a with
  | value v =>
    have hr := h.resolved hb (ha v rfl)
    rcases h.resolve_cases hb (ha v rfl) with ⟨op, hconst, heq, _⟩ | ⟨_, heq⟩
    · rw [heq, (h.literal hb hr.avail hconst).2.1, hr.width]
    · rw [heq, hr.width]
  | _ => rfl

/-- The values an instruction is left with are canonical and no literals. -/
lemma mem_values_resolve (h : Ready f I enc e canon) (hb : f.Reached b) {kind : InstKind}
    (hkind : ∀ v ∈ visitValueOperands kind, f.Avail v b k) {w : ValueId}
    (hw : w ∈ visitValueOperands (kind.remap (e.resolve canon))) :
    ∃ v ∈ visitValueOperands kind, canon v = w ∧ e.valueToConst w = none := by
  rw [visitValueOperands, InstKind.operands_remap] at hw
  obtain ⟨a, ha, haw⟩ := List.mem_filterMap.mp hw
  obtain ⟨x, hx, rfl⟩ := List.mem_map.mp ha
  cases x with
  | value v =>
    have hv := mem_visitValueOperands hx rfl
    rcases h.resolve_cases hb (hkind v hv) with ⟨op, _, heq, hnone⟩ | ⟨hconst, heq⟩
    · rw [heq, hnone] at haw
      cases haw
    · rw [heq] at haw
      obtain rfl := Option.some.inj haw
      exact ⟨v, hv, rfl, hconst⟩
  | _ => cases haw

end Ready

/-! ### What becomes of an instruction -/

/-- The instruction with what is left of its operands. -/
def Graph.written (e : Graph) (canon : ValueId → ValueId) (inst : Inst) : Inst :=
  ⟨inst.result, (e.baseKind inst).remap (e.resolve canon)⟩

/-- The value an instruction defines is written in another block. -/
structure Moves (f : Func) (e : Graph) (t d : BlockId) (j : ℕ) (inst : Inst) (c : ValueId) :
    Prop where
  reached : f.Reached d
  instAt : f.InstAt d j inst
  result : inst.result = some c
  place : e.availableBlock c = some t
  ne : t ≠ d

/-- An instruction that is written in its own block. -/
def Stays (e : Graph) (canon : ValueId → ValueId) (b : BlockId) (inst : Inst) : Prop :=
  ∀ r, inst.result = some r → canon r = r → ∀ t, e.availableBlock r = some t → t = b

/-- An instruction that is not written in its own block: uses of its result read a literal or
another value, or it moved. -/
def Needless (e : Graph) (canon : ValueId → ValueId) (b : BlockId) (inst : Inst) : Prop :=
  inst.kind.isPure = true ∧ ∀ r, inst.result = some r → canon r = r → e.valueToConst r = none →
    ∃ t, e.availableBlock r = some t ∧ t ≠ b

/-- What the block of an instruction has of it. -/
def Fate (e : Graph) (canon : ValueId → ValueId) (b : BlockId) (inst : Inst) (out : List Inst) :
    Prop :=
  out = [e.written canon inst] ∧ Stays e canon b inst ∨ out = [] ∧ Needless e canon b inst

/-- **One instruction's way**: what its block has of it, what is noted as there, and the push to
another block. -/
structure Goes (f : Func) (e : Graph) (canon : ValueId → ValueId) (b : BlockId) (k : ℕ)
    (inst : Inst) (el el' : ScopedHashMap ValueId BlockId) (blocks blocks' : List Block)
    (out : List Inst) : Prop where
  fate : Fate e canon b inst out
  noted : el' = el ∧ (∀ r, inst.result = some r → canon r = r → e.valueToConst r ≠ none) ∨
    ∃ r t, inst.result = some r ∧ el' = (el.insert (canon r) t).1
  pushed : blocks' = blocks ∧ (∀ t c, ¬ Moves f e t b k inst c) ∨
    ∃ t c, Moves f e t b k inst c ∧ blocks' = pushInst blocks t (e.written canon inst)

section Step

variable {doms : Dominator.Doms} {dom : Dominator.Tree} {b k : ℕ} {inst : Inst} {r : ValueId}
  {el : ScopedHashMap ValueId BlockId} {blocks : List Block}

/-- A value that stands for another is written nowhere. -/
lemma Ready.not_moves (h : Ready f I enc e canon) (hb : f.Reached b) (hinst : f.InstAt b k inst)
    (hnot : ∀ r, inst.result = some r → canon r = r → e.valueToConst r = none →
      ∀ t, e.availableBlock r = some t → t = b) (t : BlockId) (c : ValueId) :
    ¬ Moves f e t b k inst c := by
  intro hm
  obtain ⟨hself, hconst, _⟩ := h.placed hb hinst hm.result hm.place
  exact hm.ne (hnot c hm.result hself hconst t hm.place)

/-- The lookups of `emit` on a flat table. -/
lemma Ready.emitInst_eq (h : Ready f I enc e canon) (hr : r < e.len) (kind : InstKind)
    (out : List Inst) : emitInst dom b r kind (⟨e, el, blocks⟩, out) =
      if (e.valueToConst (canon r)).isSome then some (⟨e, el, blocks⟩, out)
      else if canon r ≠ r ∧ el.containsKey (canon r) then some (⟨e, el, blocks⟩, out)
      else
        let target := emitBlock dom b (e.availableBlock (canon r))
        if target = b ∨ blocks.length ≤ target then
          some (⟨e, (el.insert (canon r) target).1, blocks⟩, out ++ [⟨some r, kind⟩])
        else some
          (⟨e, (el.insert (canon r) target).1, pushInst blocks target ⟨some r, kind⟩⟩, out) := by
  rw [emitInst]
  simp only [h.flat.optValue_eq hr, h.flat.constOf_eq hr, Option.bind_eq_bind, Option.bind_some]

/-- The block of a value that stands for itself. -/
lemma Ready.emitBlock_eq (h : Ready f I enc e canon) (ht : f.TreeOf doms dom) (hb : f.Reached b)
    (hinst : f.InstAt b k inst) (hres : inst.result = some r) :
    emitBlock dom b (e.availableBlock r) = (e.availableBlock r).getD b := by
  cases hav : e.availableBlock r with
  | none => rfl
  | some t =>
    obtain ⟨_, _, _, hdom, _⟩ := h.placed hb hinst hres hav
    rw [emitBlock, Option.getD_some]
    by_cases heq : t = b
    · rw [if_neg fun hand => hand.1 heq, heq]
    · exact if_pos ⟨heq, (ht.built.dominates_iff ht.cfg (hdom.reached hb) hb).mpr hdom⟩

lemma Ready.emitInst_spec (hf : f.Lowered) (h : Ready f I enc e canon) (ht : f.TreeOf doms dom)
    (hb : f.Reached b) (hinst : f.InstAt b k inst) (hres : inst.result = some r)
    (hthere : ∀ c, f.Avail c b k → c ∉ f.params → canon c = c → e.valueToConst c = none →
      el.containsKey c = true) (hlen : blocks.length = f.blocks.length) (out : List Inst) :
    ∃ el' blocks' o, emitInst dom b r ((e.baseKind inst).remap (e.resolve canon))
        (⟨e, el, blocks⟩, out) = some (⟨e, el', blocks'⟩, out ++ o) ∧
      Goes f e canon b k inst el el' blocks blocks' o := by
  have hr : r < e.len := h.len ▸ hf.wellFormed.result_lt b inst hinst.hasInst r hres
  have hknown := h.known hb hinst hres
  have honly : ∀ {c}, inst.result = some c → c = r := fun hc =>
    Option.some.inj (hc.symm.trans hres)
  have hwritten : e.written canon inst = ⟨some r, (e.baseKind inst).remap (e.resolve canon)⟩ := by
    rw [Graph.written, hres]
  rw [h.emitInst_eq hr]
  split
  · -- uses read a literal
    next hsome =>
    obtain ⟨op, hop⟩ := Option.isSome_iff_exists.mp hsome
    have hconst : canon r = r → e.valueToConst r ≠ none := fun hself hnone => by
      rw [hself, hnone] at hop
      cases hop
    refine ⟨el, blocks, [], by rw [List.append_nil], ⟨Or.inr ⟨rfl, ?_, fun c hc hself hnone => ?_⟩,
      Or.inl ⟨rfl, fun c hc hself => ?_⟩,
      Or.inl ⟨rfl, h.not_moves hb hinst fun c hc hself hnone => ?_⟩⟩⟩
    · by_cases hself : canon r = r
      · exact (hknown.const op (hself ▸ hop)).1
      · exact hknown.pure hself
    all_goals obtain rfl := honly hc
    · exact absurd hnone (hconst hself)
    · exact hconst hself
    · exact absurd hnone (hconst hself)
  · next hconst =>
    have hnone := Option.not_isSome_iff_eq_none.mp hconst
    split
    · -- uses read an earlier value
      next halias =>
      refine ⟨el, blocks, [], by rw [List.append_nil], ⟨Or.inr ⟨rfl, hknown.pure halias.1,
        fun c hc hself _ => ?_⟩, Or.inl ⟨rfl, fun c hc hself => ?_⟩,
        Or.inl ⟨rfl, h.not_moves hb hinst fun c hc hself _ => ?_⟩⟩⟩
      all_goals
        obtain rfl := honly hc
        exact absurd hself halias.1
    · next halias =>
      dsimp only
      by_cases hself : canon r = r
      · rw [hself, h.emitBlock_eq ht hb hinst hres]
        cases hav : e.availableBlock r with
        | none =>
          refine ⟨_, blocks, _, if_pos (Or.inl rfl),
            ⟨Or.inl ⟨hwritten ▸ rfl, fun c hc _ t hct => ?_⟩,
            Or.inr ⟨r, _, hres, by rw [hself]⟩,
            Or.inl ⟨rfl, h.not_moves hb hinst fun c hc _ _ t hct => ?_⟩⟩⟩
          all_goals
            obtain rfl := honly hc
            rw [hav] at hct
            cases hct
        | some t =>
          rw [Option.getD_some]
          obtain ⟨_, _, hpure, hdom, _⟩ := h.placed hb hinst hres hav
          by_cases htb : t = b
          · refine ⟨_, blocks, _, if_pos (Or.inl htb),
              ⟨Or.inl ⟨hwritten ▸ rfl, fun c hc _ t' hct => ?_⟩,
              Or.inr ⟨r, _, hres, by rw [hself]⟩,
              Or.inl ⟨rfl, h.not_moves hb hinst fun c hc _ _ t' hct => ?_⟩⟩⟩
            all_goals
              obtain rfl := honly hc
              rw [← htb]
              exact Option.some.inj (hct.symm.trans hav)
          · have hlt : t < blocks.length := by
              obtain ⟨defs, hwalk⟩ := hf.wellFormed.exists_walk (hdom.reached hb)
              obtain ⟨blk, hblk⟩ := hf.wellFormed.blockAt_of_walk hwalk
              rw [hlen]
              exact hblk.lt
            refine ⟨_, _, [], (if_neg ?_).trans (by rw [List.append_nil]),
              ⟨Or.inr ⟨rfl, hpure, fun c hc _ _ => ?_⟩, Or.inr ⟨r, _, hres, by rw [hself]⟩,
              Or.inr ⟨t, r, ⟨hb, hinst, hres, hav, htb⟩, by rw [hwritten]⟩⟩⟩
            · rintro (heq | hle)
              · exact htb heq
              · exact absurd hlt (Nat.not_lt.mpr hle)
            · obtain rfl := honly hc
              exact ⟨t, hav, htb⟩
      · -- the value is a parameter's, and nothing reads the result
        have hparam : canon r ∈ f.params := by
          by_contra hparam
          refine halias
            ⟨hself, hthere _ (hknown.avail.resolve_left hself) hparam (h.flat.idem hr) hnone⟩
        rw [(h.param _ hparam).2.2]
        refine ⟨_, blocks, _, if_pos (Or.inl rfl), ⟨Or.inl ⟨hwritten ▸ rfl, fun c hc hself' => ?_⟩,
          Or.inr ⟨r, _, hres, rfl⟩, Or.inl ⟨rfl, h.not_moves hb hinst fun c hc hself' => ?_⟩⟩⟩
        all_goals
          obtain rfl := honly hc
          exact absurd hself' hself

section Cases

variable {kind : InstKind} {a : Operand} {out : List Inst}

/-- A copy of another value is one more alias. -/
lemma elaborateInst_alias {target : ValueId} (hres : inst.result = some r)
    (hc : canonicalizeOperands (e.baseKind inst) e = some (.unary .identity (.value target), e)) :
    elaborateInst dom b (⟨e, el, blocks⟩, out) inst =
      (e.setOptValue r target).map fun e' => (⟨e', el, blocks⟩, out) := by
  rw [elaborateInst]
  change (canonicalizeOperands (e.baseKind inst) e).bind _ = _
  rw [hc, Option.bind_some, hres]

/-- Any other copy is dropped. -/
lemma elaborateInst_copy (ha : a.value? = none ∨ inst.result = none)
    (hc : canonicalizeOperands (e.baseKind inst) e = some (.unary .identity a, e)) :
    elaborateInst dom b (⟨e, el, blocks⟩, out) inst = some (⟨e, el, blocks⟩, out) := by
  rw [elaborateInst]
  change (canonicalizeOperands (e.baseKind inst) e).bind _ = _
  rw [hc, Option.bind_some]
  dsimp only
  split
  · next heq hres =>
    obtain ⟨_, rfl⟩ := InstKind.unary.inj heq
    rcases ha with ha | hnone
    · cases ha
    · rw [hres] at hnone
      cases hnone
  · rfl
  · next hnot => exact absurd rfl (hnot a)
  · next hnot => exact absurd rfl (hnot a)

/-- Everything else is emitted, -/
lemma elaborateInst_other (hne : ∀ a, kind ≠ .unary .identity a) (hres : inst.result = some r)
    (hc : canonicalizeOperands (e.baseKind inst) e = some (kind, e)) :
    elaborateInst dom b (⟨e, el, blocks⟩, out) inst =
      emitInst dom b r kind (⟨e, el, blocks⟩, out) := by
  rw [elaborateInst]
  change (canonicalizeOperands (e.baseKind inst) e).bind _ = _
  rw [hc, Option.bind_some]
  dsimp only
  split
  · exact absurd rfl (hne _)
  · exact absurd rfl (hne _)
  · next hres' =>
    obtain rfl := Option.some.inj (hres.symm.trans hres')
    rfl
  · next hres' =>
    rw [hres] at hres'
    cases hres'

/-- or, without a result, written where it is. -/
lemma elaborateInst_void (hne : ∀ a, kind ≠ .unary .identity a) (hres : inst.result = none)
    (hc : canonicalizeOperands (e.baseKind inst) e = some (kind, e)) :
    elaborateInst dom b (⟨e, el, blocks⟩, out) inst =
      some (⟨e, el, blocks⟩, out ++ [⟨none, kind⟩]) := by
  rw [elaborateInst]
  change (canonicalizeOperands (e.baseKind inst) e).bind _ = _
  rw [hc, Option.bind_some]
  dsimp only
  split
  · exact absurd rfl (hne _)
  · exact absurd rfl (hne _)
  · next hres' =>
    rw [hres] at hres'
    cases hres'
  · rfl

end Cases

/-- A copy is written nowhere. -/
lemma Ready.elaborateInst_identity (hf : f.Lowered) (h : Ready f I enc e canon) (hb : f.Reached b)
    (hinst : f.InstAt b k inst) {a : Operand} (hkind : inst.kind = .unary .identity a)
    (hc : canonicalizeOperands (e.baseKind inst) e = some (.unary .identity (e.resolve canon a), e))
    (out : List Inst) :
    elaborateInst dom b (⟨e, el, blocks⟩, out) inst = some (⟨e, el, blocks⟩, out) ∧
      Goes f e canon b k inst el el blocks blocks [] := by
  have hpure : inst.kind.isPure = true := by
    rw [hkind]
    rfl
  cases hres : inst.result with
  | none =>
    have hno : ∀ {r}, inst.result ≠ some r := fun hr => by
      rw [hres] at hr
      cases hr
    refine ⟨elaborateInst_copy (Or.inr hres) hc, ⟨Or.inr ⟨rfl, hpure, fun r hr => absurd hr hno⟩,
      Or.inl ⟨rfl, fun r hr => absurd hr hno⟩, Or.inl ⟨rfl, fun t c hm => absurd hm.result hno⟩⟩⟩
  | some r =>
    have hr : r < e.len := h.len ▸ hf.wellFormed.result_lt b inst hinst.hasInst r hres
    have hknown := h.known hb hinst hres
    -- the result stands for the operand, or is a literal
    have hgone : canon r = r → e.valueToConst r ≠ none := by
      intro hself hnone
      rcases hknown.copied a hkind with ⟨v, _, _, hne⟩ | hconst
      · exact hne hself
      · rw [hnone] at hconst
        cases hconst
    refine ⟨?_, ⟨Or.inr ⟨rfl, hpure, fun c hc hself hnone => ?_⟩,
      Or.inl ⟨rfl, fun c hc => ?_⟩, Or.inl ⟨rfl, h.not_moves hb hinst fun c hc hself hnone => ?_⟩⟩⟩
    · rcases hknown.copied a hkind with ⟨v, rfl, hcv, _⟩ | hconst
      · have hv : f.Avail v b k := hf.avail hb hinst (by
          rw [hkind]
          exact List.mem_singleton_self v)
        rcases h.resolve_cases hb hv with ⟨op, _, heq, hnone⟩ | ⟨_, heq⟩
        · exact elaborateInst_copy (Or.inl (heq ▸ hnone)) hc
        · rw [heq, ← hcv] at hc
          rw [elaborateInst_alias hres hc, h.flat.setOptValue_canon hr]
          rfl
      · refine elaborateInst_copy (Or.inl ?_) hc
        have hnone := (hknown.const a hconst).2.2.1
        cases a with
        | value w => cases hnone
        | _ => rfl
    all_goals
      obtain rfl := Option.some.inj (hres.symm.trans hc)
    · exact absurd hnone (hgone hself)
    · exact hgone
    · exact absurd hnone (hgone hself)

/-- **One instruction.** -/
lemma Ready.elaborateInst_spec (hf : f.Lowered) (h : Ready f I enc e canon) (ht : f.TreeOf doms dom)
    (hb : f.Reached b) (hinst : f.InstAt b k inst)
    (hthere : ∀ c, f.Avail c b k → c ∉ f.params → canon c = c → e.valueToConst c = none →
      el.containsKey c = true) (hlen : blocks.length = f.blocks.length) (out : List Inst) :
    ∃ el' blocks' o, elaborateInst dom b (⟨e, el, blocks⟩, out) inst =
        some (⟨e, el', blocks'⟩, out ++ o) ∧
      Goes f e canon b k inst el el' blocks blocks' o := by
  have hinside : (e.baseKind inst).Inside e.len := fun v hv =>
    h.len ▸ (h.base_avail hf hb hinst v hv).lt hf
  have hcanon := canonicalizeOperands_eq h.flat hinside (h.base_isLate hf hb hinst)
  by_cases hcopy : ∃ a, e.baseKind inst = .unary .identity a
  · obtain ⟨a, ha⟩ := hcopy
    have hkind := h.kind_of_base_identity hb hinst ha
    obtain ⟨heq, hgoes⟩ := h.elaborateInst_identity hf hb hinst hkind
      (hcanon.trans (by rw [ha]; rfl)) out
    exact ⟨el, blocks, [], by rw [heq, List.append_nil], hgoes⟩
  · have hne : ∀ a, (e.baseKind inst).remap (e.resolve canon) ≠ .unary .identity a := by
      intro a ha
      refine hcopy ?_
      cases hbase : e.baseKind inst with
      | unary op x =>
        rw [hbase] at ha
        obtain ⟨rfl, _⟩ := InstKind.unary.inj ha
        exact ⟨x, rfl⟩
      | _ =>
        rw [hbase] at ha
        cases ha
    cases hres : inst.result with
    | none =>
      have hno : ∀ {r}, inst.result ≠ some r := fun hr => by
        rw [hres] at hr
        cases hr
      refine ⟨el, blocks, _, elaborateInst_void hne hres hcanon,
        ⟨Or.inl ⟨by rw [Graph.written, hres], fun r hr => absurd hr hno⟩,
        Or.inl ⟨rfl, fun r hr => absurd hr hno⟩, Or.inl ⟨rfl, fun t c hm => absurd hm.result hno⟩⟩⟩
    | some r =>
      rw [elaborateInst_other hne hres hcanon]
      exact h.emitInst_spec hf ht hb hinst hres hthere hlen out

end Step

/-! ### The values that are there -/

/-- The values that the open blocks made there, canonical and no literals. -/
def Present (f : Func) (e : Graph) (canon : ValueId → ValueId) (reg : ℕ → ℕ → Prop)
    (path : List BlockId) (el : ScopedHashMap ValueId BlockId) : Prop :=
  ∃ layers : Scopes ValueId BlockId, el.Represents (layers ++ [fun _ => none]) ∧
    List.Forall₂ (fun b layer => ∀ j c, f.DefAt c b j → reg b j → canon c = c →
      e.valueToConst c = none → (layer c).isSome) path layers

section Present

variable {reg reg' : ℕ → ℕ → Prop} {path : List BlockId} {el el' : ScopedHashMap ValueId BlockId}
  {b k : ℕ} {inst : Inst}

lemma Present.new (f : Func) (e : Graph) (canon : ValueId → ValueId) (reg : ℕ → ℕ → Prop) :
    Present f e canon reg [] ScopedHashMap.new :=
  ⟨[], ScopedHashMap.Represents.new, List.Forall₂.nil⟩

lemma Present.containsKey (h : Present f e canon reg path el) {d j : ℕ} {c : ValueId}
    (hd : d ∈ path) (hdef : f.DefAt c d j) (hreg : reg d j) (hself : canon c = c)
    (hnone : e.valueToConst c = none) :
    el.containsKey c = true := by
  obtain ⟨layers, hel, hlayers⟩ := h
  rw [ScopedHashMap.containsKey, hel.get_eq]
  clear hel
  induction hlayers with
  | nil => cases hd
  | @cons a layer path layers hlayer _ ih =>
    rw [List.cons_append, Scopes.lookup_cons, Option.isSome_or, Bool.or_eq_true]
    rcases List.mem_cons.mp hd with rfl | hd
    · exact Or.inl (hlayer j c hdef hreg hself hnone)
    · exact Or.inr (ih hd)

/-- Fewer points need less. -/
lemma Present.congr (h : Present f e canon reg path el)
    (hreg : ∀ d ∈ path, ∀ j inst, f.InstAt d j inst → reg' d j → reg d j) :
    Present f e canon reg' path el := by
  obtain ⟨layers, hel, hlayers⟩ := h
  refine ⟨layers, hel, ?_⟩
  refine ((List.forall₂_and_left _ _).mpr ⟨hreg, hlayers⟩).imp ?_
  rintro d layer ⟨hd, hlayer⟩ j c ⟨inst, hinst, hres⟩ hr
  exact hlayer j c ⟨inst, hinst, hres⟩ (hd j inst hinst hr)

lemma Present.push (h : Present f e canon reg path el)
    (hnew : ∀ j inst, f.InstAt b j inst → ¬ reg b j) :
    Present f e canon reg (b :: path) el.pushScope := by
  obtain ⟨layers, hel, hlayers⟩ := h
  refine ⟨_ :: layers, hel.pushScope, List.Forall₂.cons (fun j c hdef hreg => ?_) hlayers⟩
  obtain ⟨inst, hinst, _⟩ := hdef
  exact absurd hreg (hnew j inst hinst)

lemma Present.pop (h : Present f e canon reg (b :: path) el) :
    ∃ el', el.popScope = some el' ∧ Present f e canon reg path el' := by
  obtain ⟨layers, hel, hlayers⟩ := h
  cases hlayers with
  | @cons _ layer _ layers _ hrest =>
    have hne : layers ++ [fun _ => none] ≠ [] :=
      List.append_ne_nil_of_right_ne_nil _ (List.cons_ne_nil _ _)
    obtain ⟨el', hel', hrep⟩ := hel.popScope hne
    exact ⟨el', hel', layers, hrep, hrest⟩

/-- **One instruction later** its value is there too. -/
lemma Present.goes {blocks blocks' : List Block} {out : List Inst}
    (h : Present f e canon reg (b :: path) el)
    (hg : Goes f e canon b k inst el el' blocks blocks' out)
    (hinst : f.InstAt b k inst) (hb : b ∉ path)
    (hreg : ∀ d j, reg' d j ↔ reg d j ∨ d = b ∧ j = k) :
    Present f e canon reg' (b :: path) el' := by
  have honly : ∀ {c}, f.DefAt c b k → inst.result = some c := by
    rintro c ⟨inst', hinst', hres⟩
    rwa [hinst.unique hinst']
  obtain ⟨layers, hel, hlayers⟩ := h
  cases hlayers with
  | @cons _ layer _ layers hlayer hrest =>
    have hrest' := ((List.forall₂_and_left _ _).mpr
      ⟨fun d hd => (ne_of_mem_of_not_mem hd hb : d ≠ b), hrest⟩)
    have htail : List.Forall₂ (fun d layer => ∀ j c, f.DefAt c d j → reg' d j → canon c = c →
        e.valueToConst c = none → (layer c).isSome) path layers := by
      refine hrest'.imp ?_
      rintro d layer ⟨hne, hd⟩ j c hdef hr
      exact hd j c hdef (((hreg d j).mp hr).resolve_right fun heq => hne heq.1)
    rcases hg.noted with ⟨rfl, hgone⟩ | ⟨r, t, hres, rfl⟩
    · refine ⟨layer :: layers, hel, List.Forall₂.cons (fun j c hdef hr hself hnone => ?_) htail⟩
      rcases (hreg b j).mp hr with hr | ⟨_, rfl⟩
      · exact hlayer j c hdef hr hself hnone
      · exact absurd hnone (hgone c (honly hdef) hself)
    · refine ⟨Function.update layer (canon r) (some t) :: layers, (hel.insert (canon r) t).1,
        List.Forall₂.cons (fun j c hdef hr hself hnone => ?_) htail⟩
      by_cases hcr : c = canon r
      · rw [hcr, Function.update_self]
        rfl
      · rw [Function.update_of_ne hcr]
        rcases (hreg b j).mp hr with hr | ⟨_, rfl⟩
        · exact hlayer j c hdef hr hself hnone
        · obtain rfl := Option.some.inj (hres.symm.trans (honly hdef))
          exact absurd hself.symm hcr

end Present

/-! ### The values that moved to the end of a block -/

/-- **The end of a block**: what moved there, each value behind its operands. -/
structure Tail (f : Func) (e : Graph) (canon : ValueId → ValueId) (reg : ℕ → ℕ → Prop) (t : BlockId)
    (tail : List Inst) : Prop where
  moved : ∀ x ∈ tail, ∃ d j inst c, reg d j ∧ Moves f e t d j inst c ∧ x = e.written canon inst
  complete : ∀ d j inst c, reg d j → Moves f e t d j inst c → e.written canon inst ∈ tail
  ordered : tail.Pairwise fun x y =>
    ∀ r, y.result = some r → x.result ≠ some r ∧ r ∉ visitValueOperands x.kind

section Tail

variable {reg reg' : ℕ → ℕ → Prop} {t b k : ℕ} {inst : Inst} {c : ValueId} {tail : List Inst}

/-- Only points with an instruction count. -/
lemma Tail.congr (h : Tail f e canon reg t tail)
    (hreg : ∀ d j inst, f.InstAt d j inst → (reg' d j ↔ reg d j)) : Tail f e canon reg' t tail where
  moved x hx := by
    obtain ⟨d, j, inst, c, hr, hm, heq⟩ := h.moved x hx
    exact ⟨d, j, inst, c, (hreg d j inst hm.instAt).mpr hr, hm, heq⟩
  complete d j inst c hr hm := h.complete d j inst c ((hreg d j inst hm.instAt).mp hr) hm
  ordered := h.ordered

/-- A point whose value does not move here. -/
lemma Tail.keep (h : Tail f e canon reg t tail) (hinst : f.InstAt b k inst)
    (hnot : ∀ c, ¬ Moves f e t b k inst c) (hreg : ∀ d j, reg' d j ↔ reg d j ∨ d = b ∧ j = k) :
    Tail f e canon reg' t tail where
  moved x hx := by
    obtain ⟨d, j, inst', c, hr, hm, heq⟩ := h.moved x hx
    exact ⟨d, j, inst', c, (hreg d j).mpr (Or.inl hr), hm, heq⟩
  complete d j inst' c hr hm := by
    rcases (hreg d j).mp hr with hr | ⟨rfl, rfl⟩
    · exact h.complete d j inst' c hr hm
    · obtain rfl := hinst.unique hm.instAt
      exact absurd hm (hnot c)
  ordered := h.ordered

/-- **A value that moves here** is behind its operands. -/
lemma Tail.push (hf : f.Lowered) (hready : Ready f I enc e canon) (h : Tail f e canon reg t tail)
    (hm : Moves f e t b k inst c)
    (hbehind : ∀ d j inst', f.InstAt d j inst' → reg d j → ¬ f.Precedes b (k + 1) d j)
    (hunseen : ¬ reg b k) (hreg : ∀ d j, reg' d j ↔ reg d j ∨ d = b ∧ j = k) :
    Tail f e canon reg' t (tail ++ [e.written canon inst]) where
  moved x hx := by
    rcases List.mem_append.mp hx with hx | hx
    · obtain ⟨d, j, inst', c', hr, hm', heq⟩ := h.moved x hx
      exact ⟨d, j, inst', c', (hreg d j).mpr (Or.inl hr), hm', heq⟩
    · exact ⟨b, k, inst, c, (hreg b k).mpr (Or.inr ⟨rfl, rfl⟩), hm, List.mem_singleton.mp hx⟩
  complete d j inst' c' hr hm' := by
    rcases (hreg d j).mp hr with hr | ⟨rfl, rfl⟩
    · exact List.mem_append_left _ (h.complete d j inst' c' hr hm')
    · rw [hm.instAt.unique hm'.instAt]
      exact List.mem_append_right _ (List.mem_singleton_self _)
  ordered := by
    refine List.pairwise_append.mpr
      ⟨h.ordered, List.pairwise_singleton _ _, fun x hx y hy r hr => ?_⟩
    obtain rfl := List.mem_singleton.mp hy
    obtain rfl : c = r := Option.some.inj (hm.result.symm.trans hr)
    obtain ⟨d, j, inst', c', hr', hm', rfl⟩ := h.moved x hx
    refine ⟨fun hres => ?_, fun hread => ?_⟩
    · obtain ⟨rfl, rfl⟩ := hf.ssa.unique ⟨inst', hm'.instAt, hres⟩ ⟨inst, hm.instAt, hm.result⟩
      exact hunseen hr'
    · -- an operand of an earlier value was ahead of it
      obtain ⟨v, hv, rfl, _⟩ := hready.mem_values_resolve hm'.reached
        (hready.base_avail hf hm'.reached hm'.instAt) hread
      have hav := hready.base_avail hf hm'.reached hm'.instAt v hv
      rcases (hready.resolved hm'.reached hav).avail with hparam | ⟨i, m, hdef, hp⟩
      · exact hf.ssa.param hparam ⟨inst, hm.instAt, hm.result⟩
      · obtain ⟨rfl, rfl⟩ := hf.ssa.unique hdef ⟨inst, hm.instAt, hm.result⟩
        exact hbehind d j inst' hm'.instAt hr' hp

end Tail

/-! ### Terminators -/

/-- A terminator with what is left of its operand; a branch whose outcome is known is plain. -/
def Graph.resolveTerm (e : Graph) (canon : ValueId → ValueId) : Terminator → Terminator
  | .br b => .br b
  | .condBr cond thenBlk elseBlk =>
    match e.resolve canon cond with
    | .constBool true => .br thenBlk
    | .constBool false => .br elseBlk
    | cond => if thenBlk = elseBlk then .br thenBlk else .condBr cond thenBlk elseBlk
  | .ret op => .ret (op.map (e.resolve canon))
  | .unreachable => .unreachable

lemma rewriteTerminator_eq (h : e.Flat canon) {term : Terminator}
    (hterm : ∀ v ∈ visitTerminatorValues term, v < e.len) :
    rewriteTerminator term e = some (e.resolveTerm canon term, e) := by
  cases term with
  | br b => rfl
  | unreachable => rfl
  | ret op =>
    cases op with
    | none => rfl
    | some a =>
      have ha : ∀ v, a.value? = some v → v < e.len := fun v hv =>
        hterm v (by rw [visitTerminatorValues, hv]; exact List.mem_singleton_self v)
      change (mapOperand a e).bind _ = _
      rw [mapOperand_eq h ha]
      rfl
  | condBr cond thenBlk elseBlk =>
    have hcond : ∀ v, cond.value? = some v → v < e.len := fun v hv =>
      hterm v (by rw [visitTerminatorValues, hv]; exact List.mem_singleton_self v)
    change (mapOperand cond e).bind _ = _
    rw [mapOperand_eq h hcond, Option.bind_some, Graph.resolveTerm]
    cases e.resolve canon cond with
    | constBool x => cases x <;> rfl
    | _ => rfl

/-- A folded branch leads where the branch did. -/
lemma mem_successors_resolveTerm {term : Terminator} {t : BlockId}
    (ht : t ∈ successors (e.resolveTerm canon term)) : t ∈ successors term := by
  cases term with
  | condBr cond thenBlk elseBlk =>
    have hthen : thenBlk ∈ successors (.condBr cond thenBlk elseBlk) := List.mem_cons_self
    have helse : elseBlk ∈ successors (.condBr cond thenBlk elseBlk) :=
      List.mem_cons_of_mem _ List.mem_cons_self
    rw [Graph.resolveTerm] at ht
    split at ht
    · rwa [List.mem_singleton.mp ht]
    · rwa [List.mem_singleton.mp ht]
    · split at ht
      · rwa [List.mem_singleton.mp ht]
      · exact ht
  | _ => exact ht

/-! ### Blocks -/

/-- **The blocks while they are written**: those that are done have what became of their
instructions, and what moved to their end so far. -/
structure Drafted (f : Func) (e : Graph) (canon : ValueId → ValueId) (reg : ℕ → ℕ → Prop)
    (done : List BlockId) (blocks : List Block) : Prop where
  length : blocks.length = f.blocks.length
  empty : ∀ b blk, f.BlockAt b blk → b ∉ done → blocks[b]? = some { blk with insts := [] }
  written : ∀ b blk, f.BlockAt b blk → b ∈ done → ∃ outs tail,
    blocks[b]? = some ⟨blk.id, outs.flatten ++ tail, e.resolveTerm canon blk.term⟩ ∧
    List.Forall₂ (Fate e canon b) blk.insts outs ∧ Tail f e canon reg b tail

section Draft

variable {reg reg' : ℕ → ℕ → Prop} {done : List BlockId} {b k : ℕ} {inst : Inst}
  {el el' : ScopedHashMap ValueId BlockId} {blocks blocks' : List Block} {out : List Inst}

lemma Drafted.congr (h : Drafted f e canon reg done blocks)
    (hreg : ∀ d j inst, f.InstAt d j inst → (reg' d j ↔ reg d j)) :
    Drafted f e canon reg' done blocks where
  length := h.length
  empty := h.empty
  written d blk hblk hd := by
    obtain ⟨outs, tail, hget, hfates, htail⟩ := h.written d blk hblk hd
    exact ⟨outs, tail, hget, hfates, htail.congr hreg⟩

lemma getElem?_pushInst (blocks : List Block) (t b : BlockId) (x : Inst) :
    (pushInst blocks t x)[b]? =
      (fun blk : Block => if t = b then { blk with insts := blk.insts ++ [x] } else blk) <$>
        blocks[b]? := List.getElem?_modify _ _ _ _

/-- **One instruction later.** -/
lemma Drafted.goes (hf : f.Lowered) (hready : Ready f I enc e canon)
    (h : Drafted f e canon reg done blocks) (hg : Goes f e canon b k inst el el' blocks blocks' out)
    (hinst : f.InstAt b k inst) (hdone : ∀ t, f.Dom t b → t ≠ b → t ∈ done)
    (hb : f.Reached b)
    (hbehind : ∀ d j inst', f.InstAt d j inst' → reg d j → ¬ f.Precedes b (k + 1) d j)
    (hunseen : ¬ reg b k) (hreg : ∀ d j, reg' d j ↔ reg d j ∨ d = b ∧ j = k) :
    Drafted f e canon reg' done blocks' := by
  rcases hg.pushed with ⟨rfl, hnot⟩ | ⟨t, c, hm, rfl⟩
  · refine ⟨h.length, h.empty, fun d blk hblk hd => ?_⟩
    obtain ⟨outs, tail, hget, hfates, htail⟩ := h.written d blk hblk hd
    exact ⟨outs, tail, hget, hfates, htail.keep hinst (hnot d) hreg⟩
  · have htdone : t ∈ done :=
      hdone t (hready.placed hb hm.instAt hm.result hm.place).2.2.2.1 hm.ne
    refine ⟨?_, fun d blk hblk hd => ?_, fun d blk hblk hd => ?_⟩
    · rw [pushInst, List.length_modify]
      exact h.length
    · rw [getElem?_pushInst, h.empty d blk hblk hd]
      have hne : t ≠ d := fun heq => hd (heq ▸ htdone)
      exact congrArg some (if_neg hne)
    · obtain ⟨outs, tail, hget, hfates, htail⟩ := h.written d blk hblk hd
      rw [getElem?_pushInst, hget]
      by_cases htd : t = d
      · subst htd
        refine ⟨outs, tail ++ [e.written canon inst], ?_, hfates,
          htail.push hf hready hm hbehind hunseen hreg⟩
        refine congrArg some ((if_pos rfl).trans ?_)
        rw [List.append_assoc]
      · refine ⟨outs, tail, congrArg some (if_neg htd), hfates,
          htail.keep hinst (fun c' hm' => htd ?_) hreg⟩
        have hcc : c = c' := Option.some.inj (hm.result.symm.trans hm'.result)
        exact Option.some.inj (hm.place.symm.trans (hcc ▸ hm'.place))

variable {doms : Dominator.Doms} {dom : Dominator.Tree} {path : List BlockId}

/-- Where the walk stands when it is at a block. -/
structure AtBlock (f : Func) (path done : List BlockId) (b : BlockId) : Prop where
  reached : f.Reached b
  mem_path : ∀ d, d ∈ path ↔ f.Dom d b ∧ d ≠ b
  path_done : ∀ d ∈ path, d ∈ done
  fresh : ∀ d ∈ done, ¬ f.Dom b d

lemma Func.TreeOf.atBlock (h : f.TreeOf doms dom)
    (hspot : TreeWalk.Spot (Dominator.treeParent dom.idom) (Dominator.entryId f.cfg) path done b)
    (hdone : ∀ d ∈ done, f.Reached d) : AtBlock f path done b := by
  have hb := h.anc_root_iff.mp hspot.root
  refine ⟨hb, fun d => ?_, hspot.path_done, fun d hd hdom => ?_⟩
  · rw [hspot.mem_path d, h.anc_iff hb]
  · exact hspot.fresh d ((h.anc_iff (hdone d hd)).mpr hdom) hd

/-- A point of a block the walk is at is ahead of none it has seen. -/
lemma AtBlock.not_precedes (h : AtBlock f path done b) {d j : ℕ} (hd : Passed done b k d j) :
    ¬ f.Precedes b (k + 1) d j := by
  rintro (⟨rfl, hle⟩ | ⟨hdom, hne⟩)
  · rcases hd with hd | ⟨_, hlt⟩
    · exact h.fresh b hd (Func.Dom.refl b)
    · exact absurd hle (Nat.not_le.mpr (Nat.lt_succ_of_lt hlt))
  · rcases hd with hd | ⟨heq, _⟩
    · exact h.fresh d hd hdom
    · exact hne heq.symm

/-- **The instructions of a block**, one after the other. -/
lemma Ready.foldl_elaborateInst (hf : f.Lowered) (h : Ready f I enc e canon)
    (ht : f.TreeOf doms dom)
    (hat : AtBlock f path done b) {blk : Block} (hblk : f.BlockAt b blk) :
    ∀ (insts : List Inst) (k : ℕ) (el : ScopedHashMap ValueId BlockId) (blocks : List Block)
      (outs : List (List Inst)), blk.insts.drop k = insts → k ≤ blk.insts.length →
      List.Forall₂ (Fate e canon b) (blk.insts.take k) outs →
      Present f e canon (Passed done b k) (b :: path) el →
      Drafted f e canon (Passed done b k) done blocks →
      ∃ el' blocks' outs', insts.foldlM (elaborateInst dom b) (⟨e, el, blocks⟩, outs.flatten) =
          some (⟨e, el', blocks'⟩, outs'.flatten) ∧
        List.Forall₂ (Fate e canon b) blk.insts outs' ∧
        Present f e canon (Passed done b blk.insts.length) (b :: path) el' ∧
        Drafted f e canon (Passed done b blk.insts.length) done blocks' := by
  intro insts
  induction insts with
  | nil =>
    intro k el blocks outs hdrop hk hfates hel hblocks
    obtain rfl : k = blk.insts.length := Nat.le_antisymm hk (List.drop_eq_nil_iff.mp hdrop)
    rw [List.take_length] at hfates
    exact ⟨el, blocks, outs, rfl, hfates, hel, hblocks⟩
  | cons inst insts ih =>
    intro k el blocks outs hdrop hk hfates hel hblocks
    have hget : blk.insts[k]? = some inst := by
      rw [← List.head?_drop, hdrop]
      rfl
    have hinst : f.InstAt b k inst := ⟨blk, hblk, hget⟩
    have hlt := (List.getElem?_eq_some_iff.mp hget).1
    have hreg : ∀ d j, Passed done b (k + 1) d j ↔ Passed done b k d j ∨ d = b ∧ j = k := by
      intro d j
      rw [Passed, Passed, Nat.lt_succ_iff_lt_or_eq, and_or_left, or_assoc]
    have hfresh : b ∉ done := fun hb => hat.fresh b hb (Func.Dom.refl b)
    have hbpath : b ∉ path := fun hb => ((hat.mem_path b).mp hb).2 rfl
    have hunseen : ¬ Passed done b k b k := by
      rintro (hb | ⟨_, hlt⟩)
      · exact hfresh hb
      · exact Nat.lt_irrefl k hlt
    -- a canonical value that is there was made by an open block
    have hthere : ∀ c, f.Avail c b k → c ∉ f.params → canon c = c → e.valueToConst c = none →
        el.containsKey c = true := by
      rintro c (hparam | ⟨d, j, hdef, hp⟩) hnot hself hnone
      · exact absurd hparam hnot
      · rcases hp with ⟨rfl, hle⟩ | ⟨hdom, hne⟩
        · exact hel.containsKey List.mem_cons_self hdef (Or.inr ⟨rfl, hle⟩) hself hnone
        · have hd := (hat.mem_path d).mpr ⟨hdom, hne⟩
          exact hel.containsKey (List.mem_cons_of_mem _ hd) hdef (Or.inl (hat.path_done d hd)) hself
            hnone
    obtain ⟨el₁, blocks₁, o, hstep, hgoes⟩ := h.elaborateInst_spec hf ht hat.reached hinst hthere
      hblocks.length outs.flatten
    have hfates₁ : List.Forall₂ (Fate e canon b) (blk.insts.take (k + 1)) (outs ++ [o]) := by
      rw [List.take_add_one, hget]
      exact List.rel_append hfates (List.Forall₂.cons hgoes.fate List.Forall₂.nil)
    obtain ⟨el', blocks', outs', hfold, hrest⟩ := ih (k + 1) el₁ blocks₁ (outs ++ [o])
      (by rw [← List.tail_drop, hdrop]; rfl) hlt hfates₁ (hel.goes hgoes hinst hbpath hreg)
      (hblocks.goes hf h hgoes hinst
        (fun t hdom hne => hat.path_done t ((hat.mem_path t).mpr ⟨hdom, hne⟩)) hat.reached
        (fun d j _ _ hd => hat.not_precedes hd) hunseen hreg)
    refine ⟨el', blocks', outs', ?_, hrest⟩
    rw [List.foldlM_cons, hstep]
    rwa [List.flatten_append, List.flatten_singleton] at hfold

/-- **A block.** -/
lemma Ready.elaborateBlock_spec (hf : f.Lowered) (h : Ready f I enc e canon)
    (ht : f.TreeOf doms dom) (hat : AtBlock f path done b)
    (hel : Present f e canon (fun d _ => d ∈ done) path el)
    (hblocks : Drafted f e canon (fun d _ => d ∈ done) done blocks) :
    ∃ el' blocks', elaborateBlock f dom b ⟨e, el, blocks⟩ = some ⟨e, el', blocks'⟩ ∧
      Present f e canon (fun d _ => d ∈ b :: done) (b :: path) el' ∧
      Drafted f e canon (fun d _ => d ∈ b :: done) (b :: done) blocks' := by
  obtain ⟨defs, hwalk⟩ := hf.wellFormed.exists_walk hat.reached
  obtain ⟨blk, hblk⟩ := hf.wellFormed.blockAt_of_walk hwalk
  have hfresh : b ∉ done := fun hb => hat.fresh b hb (Func.Dom.refl b)
  have hzero : ∀ d j, Passed done b 0 d j ↔ d ∈ done := fun d j => by
    rw [Passed]
    exact or_iff_left fun hlt => Nat.not_lt_zero j hlt.2
  have hend : ∀ d j inst, f.InstAt d j inst →
      (d ∈ b :: done ↔ Passed done b blk.insts.length d j) := by
    rintro d j inst ⟨blk', hblk', hinst⟩
    rw [Passed, List.mem_cons, or_comm]
    refine or_congr_right ⟨?_, And.left⟩
    rintro rfl
    obtain rfl := hblk'.unique hblk
    exact ⟨rfl, (List.getElem?_eq_some_iff.mp hinst).1⟩
  have hpush : Present f e canon (Passed done b 0) (b :: path) el.pushScope :=
    (hel.push fun _ _ _ => hfresh).congr fun d _ j _ _ hd => (hzero d j).mp hd
  obtain ⟨el', blocks', outs, hfold, hfates, hel', hblocks'⟩ := h.foldl_elaborateInst hf ht hat hblk
    blk.insts 0 el.pushScope blocks [] rfl (Nat.zero_le _) List.Forall₂.nil hpush
    (hblocks.congr fun d j _ _ => hzero d j)
  have hterm : rewriteTerminator blk.term e = some (e.resolveTerm canon blk.term, e) := by
    refine rewriteTerminator_eq h.flat fun v hv => ?_
    rw [h.len]
    exact hf.wellFormed.read_lt b blk hblk blk.insts.length v (by rwa [Block.readsAt_term])
  have hget : ∀ d, (blocks'.modify b fun blk' =>
        { blk' with insts := outs.flatten, term := e.resolveTerm canon blk.term })[d]? =
      (fun blk' : Block => if b = d then
        { blk' with insts := outs.flatten, term := e.resolveTerm canon blk.term } else blk') <$>
        blocks'[d]? := fun d => List.getElem?_modify _ _ _ _
  refine ⟨el', blocks'.modify b fun blk' =>
    { blk' with insts := outs.flatten, term := e.resolveTerm canon blk.term }, ?_, ?_, ?_, ?_, ?_⟩
  · have hsrc : f.blocks[b]? = some blk := hblk
    rw [elaborateBlock, hsrc]
    change (blk.insts.foldlM (elaborateInst dom b) (⟨e, el.pushScope, blocks⟩, [])).bind _ = _
    rw [show ([] : List Inst) = List.flatten [] from rfl, hfold, Option.bind_some]
    change (rewriteTerminator blk.term e).bind _ = _
    rw [hterm]
    rfl
  · exact hel'.congr fun d _ j inst hinst hd => (hend d j inst hinst).mp hd
  · rw [List.length_modify]
    exact hblocks'.length
  · intro d blk' hblk' hd
    rw [List.mem_cons, not_or] at hd
    rw [hget, hblocks'.empty d blk' hblk' hd.2]
    exact congrArg some (if_neg (Ne.symm hd.1))
  · intro d blk' hblk' hd
    rcases List.mem_cons.mp hd with rfl | hd
    · obtain rfl := hblk'.unique hblk
      refine ⟨outs, [], ?_, hfates, fun x hx => absurd hx List.not_mem_nil, ?_, List.Pairwise.nil⟩
      · rw [hget, hblocks'.empty d blk' hblk' hfresh, List.append_nil]
        exact congrArg some (if_pos rfl)
      · -- what moves to the end of the block is defined below it
        intro c j inst v hc hm
        have hdom := (h.placed hm.reached hm.instAt hm.result hm.place).2.2.2.1
        rcases List.mem_cons.mp hc with heq | hc
        · exact absurd heq.symm hm.ne
        · exact absurd hdom (hat.fresh c hc)
    · obtain ⟨outs', tail, hget', hfates', htail⟩ := hblocks'.written d blk' hblk' hd
      have hne : b ≠ d := fun heq => hfresh (heq ▸ hd)
      refine ⟨outs', tail, ?_, hfates', htail.congr hend⟩
      rw [hget, hget']
      exact congrArg some (if_neg hne)

end Draft

/-! ### The walk -/

/-- **What elaboration makes of the blocks**: of every block that the entry reaches, what became of
its instructions, in order, and the values that moved to its end. -/
structure Elaborated (f : Func) (e : Graph) (canon : ValueId → ValueId) (blocks : List Block) :
    Prop where
  length : blocks.length = f.blocks.length
  empty : ∀ b blk, f.BlockAt b blk → ¬ f.Reached b → blocks[b]? = some { blk with insts := [] }
  written : ∀ b blk, f.BlockAt b blk → f.Reached b → ∃ outs tail,
    blocks[b]? = some ⟨blk.id, outs.flatten ++ tail, e.resolveTerm canon blk.term⟩ ∧
    List.Forall₂ (Fate e canon b) blk.insts outs ∧ Tail f e canon (fun d _ => f.Reached d) b tail

section Walk

variable {doms : Dominator.Doms} {dom : Dominator.Tree}

/-- The ids of a function are below its number of blocks. -/
lemma Func.WellFormed.idSpan_cfg (hwf : f.WellFormed) :
    Dominator.idSpan f.cfg = f.blocks.length := by
  refine Nat.le_antisymm ?_ ?_
  · have hle : ∀ blocks : List Dominator.Block, (∀ blk ∈ blocks, blk.id < f.blocks.length) →
        (blocks.map fun blk => blk.id + 1).foldr max 0 ≤ f.blocks.length := by
      intro blocks
      induction blocks with
      | nil => exact fun _ => Nat.zero_le _
      | cons blk blocks ih =>
        intro hlt
        exact max_le (hlt blk List.mem_cons_self) (ih fun c hc => hlt c (List.mem_cons_of_mem _ hc))
    refine hle _ fun blk hblk => ?_
    obtain ⟨src, hsrc, rfl⟩ := List.mem_map.mp hblk
    exact (hwf.blockAt_id hsrc).lt
  · by_contra hlt
    obtain ⟨blk, hblk⟩ := Func.exists_blockAt_of_lt (Nat.not_le.mp hlt)
    refine Nat.lt_irrefl _ (Dominator.lt_idSpan (f := f.cfg) ?_)
    exact List.mem_map.mpr ⟨⟨blk.id, blk.term.skeleton⟩, List.mem_map.mpr ⟨blk, hblk.mem, rfl⟩,
      hwf.id_eq _ blk hblk⟩

/-- The children by the immediate dominators are those of the tree. -/
lemma treeChildren_eq (hwf : f.WellFormed) (ht : f.TreeOf doms dom) :
    treeChildren dom f.blocks.length = dom.children := by
  rw [ht.built.children, hwf.idSpan_cfg]
  funext p
  refine List.filter_congr fun b _ => decide_eq_decide.mpr ?_
  rw [dom.immediateDominator_eq, Dominator.treeParent_eq_some, and_assoc]

/-- **Elaboration ends**, and writes what `Elaborated` says. -/
theorem Ready.elaborate_walk (hf : f.Lowered) (h : Ready f I enc e canon) (ht : f.TreeOf doms dom) :
    ∃ s, TreeWalk.run (treeChildren dom f.blocks.length) (fun b => decide (b < f.blocks.length))
        (elaborateBlock f dom) closeBlock (2 * f.blocks.length) [.enter 0]
        ⟨e, ScopedHashMap.new, f.blocks.map fun blk => { blk with insts := [] }⟩ = some s ∧
      Elaborated f e canon s.blocks := by
  let Inv : List BlockId → List BlockId → Elaboration → Prop := fun path done s =>
    s.graph = e ∧ (∀ d ∈ done, f.Reached d) ∧
      Present f e canon (fun d _ => d ∈ done) path s.elaborated ∧
      Drafted f e canon (fun d _ => d ∈ done) done s.blocks
  have henter : ∀ path done b s,
      TreeWalk.Spot (Dominator.treeParent dom.idom) (Dominator.entryId f.cfg) path done b →
      Inv path done s →
        ∃ s', elaborateBlock f dom b s = some s' ∧ Inv (b :: path) (b :: done) s' := by
    rintro path done b ⟨_, el, blocks⟩ hspot ⟨rfl, hdone, hel, hblocks⟩
    have hat := ht.atBlock hspot hdone
    obtain ⟨el', blocks', hstep, hel', hblocks'⟩ := h.elaborateBlock_spec hf ht hat hel hblocks
    refine ⟨_, hstep, rfl, fun d hd => ?_, hel', hblocks'⟩
    rcases List.mem_cons.mp hd with rfl | hd
    · exact hat.reached
    · exact hdone d hd
  have hleave : ∀ b path done s, Inv (b :: path) done s →
      ∃ s', closeBlock s = some s' ∧ Inv path done s' := by
    rintro b path done ⟨_, el, blocks⟩ ⟨rfl, hdone, hel, hblocks⟩
    obtain ⟨el', hpop, hel'⟩ := hel.pop
    refine ⟨⟨_, el', blocks⟩, ?_, rfl, hdone, hel', hblocks⟩
    rw [closeBlock]
    dsimp only
    rw [hpop]
    rfl
  have hinit :
      Inv [] [] ⟨e, ScopedHashMap.new, f.blocks.map fun blk => { blk with insts := [] }⟩ := by
    refine ⟨rfl, fun d hd => absurd hd List.not_mem_nil, Present.new f e canon _,
      List.length_map _, fun b blk hblk _ => ?_, fun b blk _ hb => absurd hb List.not_mem_nil⟩
    have hget : f.blocks[b]? = some blk := hblk
    rw [List.getElem?_map, hget]
    rfl
  obtain ⟨s, done, hvisit, ⟨hgraph, hreach, _, hblocks⟩, hdone⟩ :=
    TreeWalk.visit_root ht.isTree (fun b hb => ht.rank_lt hb) henter hleave hinit
  have hdone' : ∀ b, b ∈ done ↔ f.Reached b := fun b => (hdone b).trans ht.anc_root_iff
  refine ⟨s, ?_, hblocks.length, fun b blk hblk hb => ?_, fun b blk hblk hb => ?_⟩
  · have hlt : ∀ b, f.Reached b → b < f.blocks.length := fun b hb => by
      obtain ⟨defs, hwalk⟩ := hf.wellFormed.exists_walk hb
      obtain ⟨blk, hblk⟩ := hf.wellFormed.blockAt_of_walk hwalk
      exact hblk.lt
    have hnodes : ∀ b, Anc (Dominator.treeParent dom.idom) (Dominator.entryId f.cfg) b →
        b ∈ List.range f.blocks.length := fun b hb =>
      List.mem_range.mpr (hlt b (ht.anc_root_iff.mp hb))
    rw [treeChildren_eq hf.wellFormed ht]
    refine (congrArg (fun r => TreeWalk.run _ _ _ _ _ [.enter r] _) hf.wellFormed.entryId_cfg.symm).trans
      (TreeWalk.run_root ht.isTree (fun b hb => ht.rank_lt hb) hnodes ?_ (fun b c hc => ?_) hvisit ?_)
    · exact decide_eq_true (hlt _ Dominance.Reachable.root)
    · rw [← treeChildren_eq hf.wellFormed ht] at hc
      exact decide_eq_true (List.mem_range.mp (List.mem_filter.mp hc).1)
    · rw [List.length_range]
  · exact hblocks.empty b blk hblk fun hmem => hb ((hdone' b).mp hmem)
  · obtain ⟨outs, tail, hget, hfates, htail⟩ := hblocks.written b blk hblk ((hdone' b).mpr hb)
    exact ⟨outs, tail, hget, hfates, htail.congr fun d j _ _ => (hdone' d).symm⟩

end Walk

end Torajs.Egraph
