import ToraJs.Egraph.Settled

/-!
# The walk of the first phase is sound

Every instruction of a block the entry reaches is recorded as one of a few things: an
effect, an alias, a literal, a value of its own, or a value of an earlier one's class.  The
invariant of the walk says of the values seen what `Settled` says; the table's layers hold
values of the open blocks, which are there in every block below.
-/

namespace Torajs.Egraph

open TreeNumbering (Anc)

variable {V World : Type} {f : Func} {I : Interp V World} {enc : OtherKind → List V → V}
  {reg : ℕ → ℕ → Prop} {e : Graph} {canon : ValueId → ValueId} {key : ValueId → InstKind}

section Step

/-! ### What an instruction is looked up as -/

/-- What the rules make of a pure instruction with canonical operands. -/
structure LookedUp (f : Func) (I : Interp V World) (enc : OtherKind → List V → V)
    (canon : ValueId → ValueId) (b k : ℕ) (inst : Inst) (kind : InstKind) : Prop where
  avail : ∀ v ∈ visitValueOperands kind, f.Avail v b k
  value : ∀ ρ, f.Sat I enc ρ b k → kind.value I enc ρ = inst.kind.value I enc ρ
  inputs : inst.kind.isArith = true →
    ∀ w ∈ visitValueOperands kind, ∃ v ∈ visitValueOperands inst.kind, canon v = w

/-- A value among canonical operands is the canonical value of an operand. -/
lemma mem_visitValueOperands_remap {kind : InstKind} {w : ValueId} :
    w ∈ visitValueOperands (kind.remap (Operand.canonical canon)) ↔
      ∃ v ∈ visitValueOperands kind, canon v = w := by
  rw [visitValueOperands, InstKind.operands_remap, List.mem_filterMap]
  constructor
  · rintro ⟨a, ha, hav⟩
    obtain ⟨x, hx, rfl⟩ := List.mem_map.mp ha
    cases x with
    | value v => exact ⟨v, mem_visitValueOperands hx rfl, Option.some.inj hav⟩
    | _ => cases hav
  · rintro ⟨v, hv, rfl⟩
    obtain ⟨a, ha, hav⟩ := List.mem_filterMap.mp hv
    refine ⟨a.canonical canon, List.mem_map_of_mem ha, ?_⟩
    cases a with
    | value u =>
      obtain rfl := Option.some.inj hav
      rfl
    | _ => cases hav

lemma Walked.canonical (hf : f.Lowered) (h : Walked f I enc reg e canon key) {b k : ℕ}
    {inst : Inst} (hb : f.Reached b) (hahead : Ahead f reg b k) (hinst : f.InstAt b k inst)
    (hpure : inst.kind.isPure = true) :
    LookedUp f I enc canon b k inst (inst.kind.canonical canon) := by
  have hresolved : ∀ v ∈ visitValueOperands inst.kind, Resolved f I enc canon v b k := fun v hv =>
    h.resolved hf hb hahead (hf.avail hb hinst hv)
  rcases InstKind.isArith_or_canonical hpure (hf.early b inst hinst.hasInst) with
    harith | ⟨⟨op, args, hkind⟩, hsame⟩
  · have hcanon : inst.kind.canonical canon = inst.kind.remap (Operand.canonical canon) :=
      if_pos (InstKind.isKeyed_of_isArith harith)
    rw [hcanon]
    refine ⟨fun v hv => ?_, fun ρ hρ => ?_, fun _ w hw => mem_visitValueOperands_remap.mp hw⟩
    · obtain ⟨u, hu, rfl⟩ := mem_visitValueOperands_remap.mp hv
      exact (hresolved u hu).avail
    · refine InstKind.value_remap fun a ha => ?_
      cases a with
      | value v => exact ((hresolved v (mem_visitValueOperands ha rfl)).eq ρ hρ).symm
      | _ => rfl
  · rw [hsame]
    refine ⟨fun v hv => hf.avail hb hinst hv, fun _ _ => rfl, fun harith => ?_⟩
    rw [hkind] at harith
    cases harith

lemma Walked.rewrite (hf : f.Lowered) (hI : I.Lawful enc) (h : Walked f I enc reg e canon key)
    {b k : ℕ} {inst : Inst} (hb : f.Reached b) (hahead : Ahead f reg b k)
    (hinst : f.InstAt b k inst) (hpure : inst.kind.isPure = true) :
    LookedUp f I enc canon b k inst (inst.kind.canonical canon).rewrite := by
  have hc := h.canonical hf hb hahead hinst hpure
  exact ⟨fun v hv => hc.avail v (visitValueOperands_rewrite v hv),
    fun ρ hρ => (value_rewrite hI _ ρ).trans (hc.value ρ hρ),
    fun harith w hw => hc.inputs harith w (visitValueOperands_rewrite w hw)⟩

/-- What a pure instruction was looked up as is what its result holds. -/
lemma LookedUp.result {b k : ℕ} {inst : Inst} {kind : InstKind} {r : ValueId}
    (h : LookedUp f I enc canon b k inst kind) (hb : f.Reached b) (hinst : f.InstAt b k inst)
    (hres : inst.result = some r) (hpure : inst.kind.isPure = true) {ρ : ValueId → V}
    (hρ : f.Sat I enc ρ b (k + 1)) : kind.value I enc ρ = some (ρ r) := by
  rw [h.value ρ (hρ.mono (Func.Precedes.within (Nat.le_succ k)) hb)]
  exact hρ b k inst r hinst hres hpure (Func.Precedes.refl b (k + 1))

/-! ### The table -/

/-- An entry of a block's layer: a canonical value that the block defines. -/
def Listed (f : Func) (I : Interp V World) (enc : OtherKind → List V → V) (reg : ℕ → ℕ → Prop)
    (canon : ValueId → ValueId) (key : ValueId → InstKind) (b : BlockId) (entry : GvnKey)
    (v : ValueId) : Prop :=
  ∃ j inst, f.InstAt b j inst ∧ inst.result = some v ∧ reg b j ∧ canon v = v ∧
    (f.values[v]?).getD .void = entry.1 ∧ key v = entry.2 ∧
    ∀ ρ, f.Sat I enc ρ b (j + 1) → entry.2.value I enc ρ = some (ρ v)

/-- The table has a layer for each open block. -/
def Layered (f : Func) (I : Interp V World) (enc : OtherKind → List V → V) (reg : ℕ → ℕ → Prop)
    (canon : ValueId → ValueId) (key : ValueId → InstKind) (path : List BlockId)
    (m : ScopedHashMap GvnKey ValueId) : Prop :=
  ∃ layers : Scopes GvnKey ValueId, m.Represents (layers ++ [fun _ => none]) ∧
    List.Forall₂ (fun b layer => ∀ entry v, layer entry = some v →
      Listed f I enc reg canon key b entry v) path layers

variable {path : List BlockId} {m : ScopedHashMap GvnKey ValueId}

lemma Layered.get (h : Layered f I enc reg canon key path m) {entry : GvnKey} {v : ValueId}
    (hv : m.get entry = some v) : ∃ b ∈ path, Listed f I enc reg canon key b entry v := by
  obtain ⟨layers, hm, hlayers⟩ := h
  rw [hm.get_eq] at hv
  clear hm
  induction hlayers with
  | nil => cases hv
  | @cons b layer path layers hlayer _ ih =>
    rw [List.cons_append, Scopes.lookup_cons] at hv
    cases hlookup : layer entry with
    | some w =>
      rw [hlookup, Option.some_or] at hv
      exact ⟨b, List.mem_cons_self, hlayer entry v (hlookup.trans hv)⟩
    | none =>
      rw [hlookup, Option.none_or] at hv
      obtain ⟨c, hc, hlisted⟩ := ih hv
      exact ⟨c, List.mem_cons_of_mem _ hc, hlisted⟩

/-- What is recorded at a new value leaves the entries. -/
lemma Layered.extend (h : Layered f I enc reg canon key path m) (hf : f.Lowered) {b k : ℕ}
    {inst : Inst} {r : ValueId} {reg' : ℕ → ℕ → Prop} {canon' : ValueId → ValueId}
    {key' : ValueId → InstKind} (hinst : f.InstAt b k inst) (hres : inst.result = some r)
    (hnew : ¬ reg b k) (hreg' : ∀ d j, reg d j → reg' d j)
    (hsame : ∀ v, v ≠ r → canon' v = canon v ∧ key' v = key v) :
    Layered f I enc reg' canon' key' path m := by
  obtain ⟨layers, hm, hlayers⟩ := h
  refine ⟨layers, hm, hlayers.imp fun c layer hlayer entry v hv => ?_⟩
  obtain ⟨j, inst', hinst', hres', hreg, hself, hty, hkey, hvalue⟩ := hlayer entry v hv
  have hne : v ≠ r := by
    rintro rfl
    obtain ⟨rfl, rfl⟩ := hf.ssa.unique ⟨inst', hinst', hres'⟩ ⟨inst, hinst, hres⟩
    exact hnew hreg
  obtain ⟨hc, hk⟩ := hsame v hne
  exact ⟨j, inst', hinst', hres', hreg' c j hreg, hc.trans hself, hty, hk.trans hkey, hvalue⟩

lemma Layered.push (h : Layered f I enc reg canon key path m) (b : BlockId) :
    Layered f I enc reg canon key (b :: path) m.pushScope := by
  obtain ⟨layers, hm, hlayers⟩ := h
  exact ⟨_ :: layers, hm.pushScope, List.Forall₂.cons (fun _ _ hv => by cases hv) hlayers⟩

lemma Layered.pop {b : BlockId} (h : Layered f I enc reg canon key (b :: path) m) :
    ∃ m', m.popScope = some m' ∧ Layered f I enc reg canon key path m' := by
  obtain ⟨layers, hm, hlayers⟩ := h
  cases hlayers with
  | @cons _ layer _ layers _ hrest =>
    have hne : layers ++ [fun _ => none] ≠ [] :=
      List.append_ne_nil_of_right_ne_nil _ (List.cons_ne_nil _ _)
    obtain ⟨m', hm', hrep⟩ := hm.popScope hne
    exact ⟨m', hm', layers, hrep, hrest⟩

lemma Layered.insert {b : BlockId} (h : Layered f I enc reg canon key (b :: path) m)
    {entry : GvnKey} {v : ValueId} (hv : Listed f I enc reg canon key b entry v) :
    Layered f I enc reg canon key (b :: path) (m.insert entry v).1 := by
  obtain ⟨layers, hm, hlayers⟩ := h
  cases hlayers with
  | @cons _ layer _ layers hlayer hrest =>
    refine ⟨Function.update layer entry (some v) :: layers, (hm.insert entry v).1,
      List.Forall₂.cons (fun entry' w hw => ?_) hrest⟩
    by_cases heq : entry' = entry
    · subst heq
      rw [Function.update_self] at hw
      obtain rfl := Option.some.inj hw
      exact hv
    · rw [Function.update_of_ne heq] at hw
      exact hlayer entry' w hw

/-! ### One instruction -/

/-- The point that the walk comes to next. -/
structure NextPoint (f : Func) (reg reg' : ℕ → ℕ → Prop) (b k : ℕ) (inst : Inst) : Prop where
  reached : f.Reached b
  instAt : f.InstAt b k inst
  unseen : ¬ reg b k
  ahead : Ahead f reg b k
  reg_iff : ∀ d j, reg' d j ↔ reg d j ∨ d = b ∧ j = k

variable {reg' : ℕ → ℕ → Prop} {b k : ℕ} {inst : Inst} {r : ValueId}

/-- An instruction without a result. -/
lemma Walked.void (h : Walked f I enc reg e canon key) (hn : NextPoint f reg reg' b k inst)
    (hres : inst.result = none) : Walked f I enc reg' e canon key where
  len := h.len
  flat := h.flat
  reached d j inst' hinst' hreg := by
    rcases (hn.reg_iff d j).mp hreg with hreg | ⟨rfl, _⟩
    · exact h.reached d j inst' hinst' hreg
    · exact hn.reached
  closed d j inst₁ c i inst₂ hinst₁ hinst₂ hreg hd := by
    rw [hn.reg_iff]
    rcases (hn.reg_iff c i).mp hreg with hreg | ⟨rfl, rfl⟩
    · exact Or.inl (h.closed d j inst₁ c i inst₂ hinst₁ hinst₂ hreg hd)
    · exact Or.inl (hn.ahead d j inst₁ hinst₁ hd)
  untouched v hv hunseen := h.untouched v hv fun d j hdef hreg =>
    hunseen d j hdef ((hn.reg_iff d j).mpr (Or.inl hreg))
  settled d j inst' w hinst' hres' hreg := by
    rcases (hn.reg_iff d j).mp hreg with hreg | ⟨rfl, rfl⟩
    · exact h.settled d j inst' w hinst' hres' hreg
    · obtain rfl := hn.instAt.unique hinst'
      rw [hres] at hres'
      cases hres'

/-- An instruction with an effect stays as it is. -/
lemma Walked.skeleton (hf : f.Lowered) (h : Walked f I enc reg e canon key)
    (hn : NextPoint f reg reg' b k inst) (hres : inst.result = some r)
    (hpure : inst.kind.isPure = false) : Walked f I enc reg' e canon key := by
  obtain ⟨_, hself, hconst, hrew, havail⟩ := h.unseen hf hn.instAt hres hn.unseen
  have harith : inst.kind.isArith ≠ true := fun harith => by
    rw [InstKind.isPure_of_isArith harith] at hpure
    cases hpure
  refine h.extend hf hn.reached hn.instAt hres hn.unseen hn.ahead hn.reg_iff rfl h.flat
    (fun v _ => ⟨rfl, rfl, rfl, rfl, rfl⟩) ?_
  refine ⟨⟨Or.inl hself, fun hne => absurd hself hne, fun ρ _ => by rw [hself], by rw [hself],
    fun a ha => ?_, fun op hop => ?_, fun kind hkind => ?_⟩, fun h => absurd h harith,
    fun h => absurd (hpure.symm.trans h) Bool.false_ne_true, fun t ht => ?_⟩
  · rw [ha] at hpure
    cases hpure
  · rw [hconst] at hop
    cases hop
  · rw [hrew] at hkind
    cases hkind
  · rw [havail] at ht
    cases ht

/-- Canonical operands leave the kind. -/
lemma InstKind.isArith_canonical (kind : InstKind) :
    (kind.canonical canon).isArith = kind.isArith := by
  rw [InstKind.canonical]
  split
  · cases kind <;> rfl
  · rfl

lemma InstKind.isPure_canonical (kind : InstKind) :
    (kind.canonical canon).isPure = kind.isPure := by
  rw [InstKind.canonical]
  split
  · cases kind <;> rfl
  · rfl

/-- Arithmetic is looked up as arithmetic. -/
lemma isArith_rewrite_canonical {kind : InstKind} (h : kind.isArith = true) :
    (kind.canonical canon).rewrite.isArith = true := by
  rcases rewrite_eq_or_isArith (kind.canonical canon) with heq | ⟨_, harith⟩
  · rwa [heq, InstKind.isArith_canonical]
  · exact harith

/-- A copy with its canonical operand. -/
lemma InstKind.canonical_identity {a : Operand} (h : inst.kind = .unary .identity a) :
    (inst.kind.canonical canon).rewrite = .unary .identity (a.canonical canon) := by
  have hc : inst.kind.canonical canon = .unary .identity (a.canonical canon) := by
    rw [h]
    rfl
  have hnone : applyRewrites builtinRules (.unary .identity (a.canonical canon)) = none := by
    rw [← Option.not_isSome_iff_eq_none, Option.isSome_iff_exists]
    rintro ⟨kind', hkind'⟩
    rcases binOp_or_wide_of_applyRewrites hkind' with ⟨_, _, _, heq⟩ | ⟨_, _, _, heq⟩
    · cases heq
    · rcases heq with ⟨_, _, _, heq⟩ | ⟨_, _, _, heq⟩ | ⟨_, heq⟩ <;> cases heq
  rw [hc, InstKind.rewrite, applyRewritesRecursive, Rewrite.rewriteLimit, applyRewritesLoop, hnone]

/-- **An alias**: the rules found that the result is another value. -/
lemma Walked.setOptValue (hf : f.Lowered) (hI : I.Lawful enc) (h : Walked f I enc reg e canon key)
    (hlay : Layered f I enc reg canon key path e.gvnMap) (hn : NextPoint f reg reg' b k inst)
    (hres : inst.result = some r) (hpure : inst.kind.isPure = true) {t : ValueId}
    (hrk : (inst.kind.canonical canon).rewrite = .unary .identity (.value t)) :
    ∃ e' canon' key', e.setOptValue r t = some e' ∧ Walked f I enc reg' e' canon' key' ∧
      Layered f I enc reg' canon' key' path e'.gvnMap := by
  obtain ⟨hlt, hself, hconst, hrew, havail⟩ := h.unseen hf hn.instAt hres hn.unseen
  have hrw := h.rewrite hf hI hn.reached hn.ahead hn.instAt hpure
  have harith : inst.kind.isArith = true := by
    rcases rewrite_eq_or_isArith (inst.kind.canonical canon) with heq | ⟨harith, _⟩
    · have hsame : (inst.kind.canonical canon).isArith = inst.kind.isArith :=
        InstKind.isArith_canonical _
      rw [← hsame, ← heq, hrk]
      rfl
    · rwa [InstKind.isArith_canonical] at harith
  have htmem : t ∈ visitValueOperands (inst.kind.canonical canon).rewrite := by
    rw [hrk]
    exact List.mem_singleton_self t
  have ht := hrw.avail t htmem
  obtain ⟨u, hu, hut⟩ := hrw.inputs harith t htmem
  have htlt : t < e.len := h.len ▸ ht.lt hf
  have htself : canon t = t := by
    rw [← hut]
    exact h.flat.idem (h.len ▸ (hf.avail hn.reached hn.instAt hu).lt hf)
  have hne : t ≠ r := ht.ne_of_defAt hf.ssa ⟨inst, hn.instAt, hres⟩ hn.reached
  obtain ⟨e', he', hflat, rfl⟩ := h.flat.setOptValue hlt hself
    (h.alone hf hn.instAt hres hn.unseen) htlt htself hne
  have hur : ∀ v ∈ visitValueOperands inst.kind, v ≠ r := fun v hv =>
    (hf.avail hn.reached hn.instAt hv).ne_of_defAt hf.ssa ⟨inst, hn.instAt, hres⟩ hn.reached
  refine ⟨_, Function.update canon r t, key, he', ?_, ?_⟩
  · refine h.extend hf hn.reached hn.instAt hres hn.unseen hn.ahead hn.reg_iff rfl hflat
      (fun v hv => ⟨Function.update_of_ne hv _ _, rfl, rfl, rfl, rfl⟩) ?_
    have hcr : Function.update canon r t r = t := Function.update_self _ _ _
    refine ⟨⟨Or.inr (by rw [hcr]; exact ht), fun _ => hpure, fun ρ hρ => ?_, ?_, fun a ha => ?_,
      fun op hop => ?_, fun kind hkind => ?_⟩, fun _ => ?_, fun _ hcr' => ?_, fun t' ht' => ?_⟩
    · have hvalue := hrw.result hn.reached hn.instAt hres hpure hρ
      rw [hrk] at hvalue
      rw [hcr, ← Option.some.inj hvalue]
      exact hI.identity _
    · rw [hcr]
      refine isI32_of_rewrite hres (hf.fixedWidth b inst hn.instAt.hasInst) (fun v hv => ?_) hrk
      exact (h.resolved hf hn.reached hn.ahead (hf.avail hn.reached hn.instAt hv)).width
    · rw [InstKind.canonical_identity ha] at hrk
      have hval := (InstKind.unary.inj hrk).2
      cases a with
      | value v =>
        have hv : v ∈ visitValueOperands inst.kind := by
          rw [ha]
          exact List.mem_singleton_self v
        refine Or.inl ⟨v, rfl, ?_, ?_⟩
        · rw [hcr, Function.update_of_ne (hur v hv)]
          exact (Operand.value.inj hval).symm
        · rw [hcr]
          exact hne
      | _ => cases hval
    · exact absurd (hconst.symm.trans hop) (by simp)
    · exact absurd (hrew.symm.trans hkind) (by simp)
    · refine Or.inl ⟨u, hu, ?_⟩
      rw [hcr, Function.update_of_ne (hur u hu), hut]
    · exact absurd (hcr.symm.trans hcr') hne
    · exact absurd (havail.symm.trans ht') (by simp)
  · exact hlay.extend hf hn.instAt hres hn.unseen
      (fun d j hreg => (hn.reg_iff d j).mpr (Or.inl hreg))
      fun v hv => ⟨Function.update_of_ne hv _ _, rfl⟩

/-- The values of canonical arithmetic. -/
lemma mem_visitValueOperands_canonical {kind : InstKind} (h : kind.isArith = true) {w : ValueId} :
    w ∈ visitValueOperands (kind.canonical canon) ↔
      ∃ v ∈ visitValueOperands kind, canon v = w := by
  rw [InstKind.canonical, if_pos (InstKind.isKeyed_of_isArith h)]
  exact mem_visitValueOperands_remap

/-- **A literal**: the rules found that the result is a constant. -/
lemma Walked.setConst (hf : f.Lowered) (hI : I.Lawful enc) (h : Walked f I enc reg e canon key)
    (hlay : Layered f I enc reg canon key path e.gvnMap) (hn : NextPoint f reg reg' b k inst)
    (hres : inst.result = some r) (hpure : inst.kind.isPure = true) {op : Operand}
    (hrk : (inst.kind.canonical canon).rewrite = .unary .identity op) (hop : op.value? = none) :
    ∃ e' canon' key', e.setConst r op = some e' ∧ Walked f I enc reg' e' canon' key' ∧
      Layered f I enc reg' canon' key' path e'.gvnMap := by
  obtain ⟨hlt, hself, hconst, hrew, havail⟩ := h.unseen hf hn.instAt hres hn.unseen
  have hrw := h.rewrite hf hI hn.reached hn.ahead hn.instAt hpure
  refine ⟨_, canon, Function.update key r (inst.kind.canonical canon),
    h.flat.setConst hlt hself op, ?_, ?_⟩
  · refine h.extend hf hn.reached hn.instAt hres hn.unseen hn.ahead hn.reg_iff rfl
      (h.flat.congr rfl rfl rfl)
      (fun v hv => ⟨rfl, Function.update_of_ne hv _ _, Function.update_of_ne hv _ _, rfl, rfl⟩) ?_
    have hnew : ∀ {op'}, Function.update e.valueToConst r (some op) r = some op' → op' = op := by
      intro op' hop'
      rw [Function.update_self] at hop'
      exact (Option.some.inj hop').symm
    refine ⟨⟨Or.inl hself, fun hne => absurd hself hne, fun ρ _ => by rw [hself], by rw [hself],
      fun a ha => Or.inr ?_, fun op' hop' => ?_, fun kind hkind => ?_⟩, fun harith => Or.inr ?_,
      fun _ _ hkarith v hv => ?_, fun t ht => ?_⟩
    · rw [InstKind.canonical_identity ha] at hrk
      have hval := (InstKind.unary.inj hrk).2
      have ha' : a = op := by
        cases a with
        | value v =>
          rw [← hval] at hop
          cases hop
        | _ => exact hval
      rw [ha']
      exact Function.update_self _ _ _
    · obtain rfl := hnew hop'
      refine ⟨hpure, hself, hop, ?_, fun ρ hρ => ?_⟩
      · refine isI32_of_rewrite hres (hf.fixedWidth b inst hn.instAt.hasInst) (fun v hv => ?_) hrk
        exact (h.resolved hf hn.reached hn.ahead (hf.avail hn.reached hn.instAt hv)).width
      · have hvalue := hrw.result hn.reached hn.instAt hres hpure hρ
        rw [hrk] at hvalue
        rw [← Option.some.inj hvalue]
        exact hI.identity _
    · exact absurd (hrew.symm.trans hkind) (by simp)
    · rw [hself, Function.update_self, InstKind.isArith_canonical]
      exact ⟨harith, fun w hw => (mem_visitValueOperands_canonical harith).mp hw⟩
    · rw [Function.update_self, InstKind.isArith_canonical] at hkarith
      rw [Function.update_self, mem_visitValueOperands_canonical hkarith]
      have hbase : Graph.baseKind { e with
          valueToConst := Function.update e.valueToConst r (some op) } inst = inst.kind := by
        rw [Graph.baseKind, hres, Option.bind_some]
        dsimp only
        rw [hrew, Option.getD_none]
      rw [hbase] at hv
      exact ⟨v, hv, rfl⟩
    · exact absurd (havail.symm.trans ht) (by simp)
  · exact hlay.extend hf hn.instAt hres hn.unseen
      (fun d j hreg => (hn.reg_iff d j).mpr (Or.inl hreg))
      fun v hv => ⟨rfl, Function.update_of_ne hv _ _⟩

/-- The instruction that the rules made is what was recorded. -/
def Noted (e : Graph) (r : ValueId) (canonKind : InstKind) (e' : Graph) : Prop :=
  e'.valueToConst = e.valueToConst ∧
    e'.rewrittenKind = if canonKind.rewrite ≠ canonKind then
      Function.update e.rewrittenKind r (some canonKind.rewrite) else e.rewrittenKind

/-- What the tables say of a value that was looked up, as far as the lookup's result does not
matter. -/
lemma Walked.noted (hf : f.Lowered) (hI : I.Lawful enc) (h : Walked f I enc reg e canon key)
    (hn : NextPoint f reg reg' b k inst) (hres : inst.result = some r)
    (hpure : inst.kind.isPure = true) {e' : Graph}
    (hnoted : Noted e r (inst.kind.canonical canon) e')
    (hrk : ∀ a, (inst.kind.canonical canon).rewrite ≠ .unary .identity a) :
    (∀ a, inst.kind ≠ .unary .identity a) ∧ e'.valueToConst r = none ∧
    (∀ kind, e'.rewrittenKind r = some kind → inst.kind.isArith = true ∧ kind.isArith = true ∧
      (∀ a, kind ≠ .unary .identity a) ∧ (∀ v ∈ visitValueOperands kind, f.Avail v b k) ∧
      ∀ ρ, f.Sat I enc ρ b k → kind.value I enc ρ = inst.kind.value I enc ρ) ∧
    ((inst.kind.canonical canon).rewrite.isArith = true →
      ∀ v ∈ visitValueOperands (e'.baseKind inst),
        canon v ∈ visitValueOperands (inst.kind.canonical canon).rewrite) := by
  obtain ⟨hlt, hself, hconst, hrew, havail⟩ := h.unseen hf hn.instAt hres hn.unseen
  have hrw := h.rewrite hf hI hn.reached hn.ahead hn.instAt hpure
  obtain ⟨hc, hk⟩ := hnoted
  refine ⟨fun a ha => hrk _ (InstKind.canonical_identity ha), by rw [hc]; exact hconst,
    fun kind hkind => ?_, fun hkarith v hv => ?_⟩
  · rw [hk] at hkind
    split_ifs at hkind with hne
    · rw [Function.update_self] at hkind
      obtain rfl := Option.some.inj hkind
      obtain ⟨harith, hrarith⟩ := (rewrite_eq_or_isArith _).resolve_left hne
      rw [InstKind.isArith_canonical] at harith
      exact ⟨harith, hrarith, hrk, hrw.avail, hrw.value⟩
    · rw [hrew] at hkind
      cases hkind
  · have harith : inst.kind.isArith = true := by
      rcases rewrite_eq_or_isArith (inst.kind.canonical canon) with heq | ⟨harith, _⟩
      · rwa [heq, InstKind.isArith_canonical] at hkarith
      · rwa [InstKind.isArith_canonical] at harith
    rw [Graph.baseKind, hres, Option.bind_some, hk] at hv
    split_ifs at hv with hne
    · rw [Function.update_self] at hv
      obtain ⟨u, hu, rfl⟩ := hrw.inputs harith v hv
      rwa [h.flat.idem (h.len ▸ (hf.avail hn.reached hn.instAt hu).lt hf)]
    · rw [hrew] at hv
      rw [not_not.mp hne, mem_visitValueOperands_canonical harith]
      exact ⟨v, hv, rfl⟩

/-- **A value that stays its own**, new to the table or behind a full class. -/
lemma Walked.own (hf : f.Lowered) (hI : I.Lawful enc) (h : Walked f I enc reg e canon key)
    (hn : NextPoint f reg reg' b k inst) (hres : inst.result = some r)
    (hpure : inst.kind.isPure = true) {e' : Graph}
    (hnoted : Noted e r (inst.kind.canonical canon) e')
    (hrk : ∀ a, (inst.kind.canonical canon).rewrite ≠ .unary .identity a) (hlen : e'.len = e.len)
    (hflat : e'.Flat canon)
    (havail' : ∀ v, v ≠ r → e'.availableBlock v = e.availableBlock v)
    (hblock : ∀ t, e'.availableBlock r = some t → t = b) :
    Walked f I enc reg' e' canon
      (Function.update key r (inst.kind.canonical canon).rewrite) := by
  obtain ⟨hlt, hself, hconst, hrew, havail⟩ := h.unseen hf hn.instAt hres hn.unseen
  have hrw := h.rewrite hf hI hn.reached hn.ahead hn.instAt hpure
  obtain ⟨hnot, hnone, hrewritten, hbase⟩ := h.noted hf hI hn hres hpure hnoted hrk
  refine h.extend hf hn.reached hn.instAt hres hn.unseen hn.ahead hn.reg_iff hlen hflat
    (fun v hv => ⟨rfl, Function.update_of_ne hv _ _, by rw [hnoted.1], ?_, havail' v hv⟩) ?_
  · rw [hnoted.2]
    split
    · exact Function.update_of_ne hv _ _
    · rfl
  · refine ⟨⟨Or.inl hself, fun hne => absurd hself hne, fun ρ _ => by rw [hself], by rw [hself],
      fun a ha => absurd ha (hnot a), fun op hop => ?_, hrewritten⟩, fun harith => Or.inr ?_,
      fun _ _ hkarith v hv => ?_, fun t ht => ⟨hblock t ht, hself, hnone, hpure⟩⟩
    · rw [hnone] at hop
      cases hop
    · rw [hself, Function.update_self]
      exact ⟨isArith_rewrite_canonical harith, hrw.inputs harith⟩
    · rw [Function.update_self] at hkarith ⊢
      exact hbase hkarith v hv

/-- **A value that joins an earlier one's class.** -/
lemma Walked.joined (hf : f.Lowered) (hI : I.Lawful enc) (h : Walked f I enc reg e canon key)
    (hn : NextPoint f reg reg' b k inst) (hres : inst.result = some r)
    (hpure : inst.kind.isPure = true) {e' : Graph}
    (hnoted : Noted e r (inst.kind.canonical canon) e')
    (hrk : ∀ a, (inst.kind.canonical canon).rewrite ≠ .unary .identity a) (hlen : e'.len = e.len)
    {c : BlockId} {t : ValueId} (hflat : e'.Flat (Function.update canon r t))
    (hlisted : Listed f I enc reg canon key c
      ((f.values[r]?).getD .void, (inst.kind.canonical canon).rewrite) t)
    (hc : ∀ j, reg c j → f.Precedes c (j + 1) b k)
    (havail' : e'.availableBlock = e.availableBlock) :
    Walked f I enc reg' e' (Function.update canon r t) key := by
  obtain ⟨hlt, hself, hconst, hrew, havail⟩ := h.unseen hf hn.instAt hres hn.unseen
  have hrw := h.rewrite hf hI hn.reached hn.ahead hn.instAt hpure
  obtain ⟨hnot, hnone, hrewritten, hbase⟩ := h.noted hf hI hn hres hpure hnoted hrk
  obtain ⟨j, inst', hinst', hres', hreg, htself, hty, hkey, hvalue⟩ := hlisted
  have hprec := hc j hreg
  have ht : f.Avail t b k := Or.inr ⟨c, j, ⟨inst', hinst', hres'⟩, hprec⟩
  have hne : t ≠ r := ht.ne_of_defAt hf.ssa ⟨inst, hn.instAt, hres⟩ hn.reached
  have hcr : Function.update canon r t r = t := Function.update_self _ _ _
  have hur : ∀ v ∈ visitValueOperands inst.kind, v ≠ r := fun v hv =>
    (hf.avail hn.reached hn.instAt hv).ne_of_defAt hf.ssa ⟨inst, hn.instAt, hres⟩ hn.reached
  refine h.extend hf hn.reached hn.instAt hres hn.unseen hn.ahead hn.reg_iff hlen hflat
    (fun v hv => ⟨Function.update_of_ne hv _ _, rfl, by rw [hnoted.1], ?_, by rw [havail']⟩) ?_
  · rw [hnoted.2]
    split
    · exact Function.update_of_ne hv _ _
    · rfl
  · refine ⟨⟨Or.inr (by rw [hcr]; exact ht), fun _ => hpure, fun ρ hρ => ?_, ?_,
      fun a ha => absurd ha (hnot a), fun op hop => ?_, hrewritten⟩, fun harith => Or.inr ?_,
      fun _ hcr' => absurd (hcr.symm.trans hcr') hne, fun t' ht' => ?_⟩
    · -- both hold what the common instruction computes
      have hr := hrw.result hn.reached hn.instAt hres hpure hρ
      have hst := hvalue ρ ((hρ.mono (Func.Precedes.within (Nat.le_succ k)) hn.reached).mono hprec
        hn.reached)
      rw [hcr]
      exact Option.some.inj (hr.symm.trans hst)
    · have hi32 : ∀ ty : Option SsaType, (ty = some .i32) ↔ ty.getD .void = .i32 := by
        intro ty
        cases ty <;> simp
      rw [hcr, isI32, isI32, decide_eq_decide, hi32, hi32, hty]
    · rw [hnone] at hop
      cases hop
    · rw [hcr, hkey]
      refine ⟨isArith_rewrite_canonical harith, fun w hw => ?_⟩
      obtain ⟨v, hv, hcv⟩ := hrw.inputs harith w hw
      exact ⟨v, hv, by rw [Function.update_of_ne (hur v hv), hcv]⟩
    · rw [havail', havail] at ht'
      cases ht'

/-- **A rewritten instruction is looked up.** -/
lemma Walked.lookUp (hf : f.Lowered) (hI : I.Lawful enc) (h : Walked f I enc reg e canon key)
    (hlay : Layered f I enc reg canon key (b :: path) e.gvnMap)
    (hn : NextPoint f reg reg' b k inst)
    (hopen : ∀ c ∈ b :: path, ∀ j, reg c j → f.Precedes c (j + 1) b k)
    (hres : inst.result = some r) (hpure : inst.kind.isPure = true)
    (hrk : ∀ a, (inst.kind.canonical canon).rewrite ≠ .unary .identity a) :
    ∃ e' canon' key', lookUp f b r (inst.kind.canonical canon).rewrite
        (if (inst.kind.canonical canon).rewrite ≠ inst.kind.canonical canon then
          e.setRewrittenKind r (inst.kind.canonical canon).rewrite else e) = some e' ∧
      Walked f I enc reg' e' canon' key' ∧
      Layered f I enc reg' canon' key' (b :: path) e'.gvnMap := by
  obtain ⟨hlt, hself, hconst, hrew, havail⟩ := h.unseen hf hn.instAt hres hn.unseen
  have hrw := h.rewrite hf hI hn.reached hn.ahead hn.instAt hpure
  have hregsub : ∀ d j, reg d j → reg' d j := fun d j hreg => (hn.reg_iff d j).mpr (Or.inl hreg)
  set rk := (inst.kind.canonical canon).rewrite with hrkdef
  set e₁ := if rk ≠ inst.kind.canonical canon then e.setRewrittenKind r rk else e with he₁
  have hshape : e₁.len = e.len ∧ e₁.leader = e.leader ∧ e₁.valueToOptValue = e.valueToOptValue ∧
      e₁.availableBlock = e.availableBlock ∧ e₁.gvnMap = e.gvnMap ∧
      Noted e r (inst.kind.canonical canon) e₁ := by
    rw [he₁]
    split
    · next hne => exact ⟨rfl, rfl, rfl, rfl, rfl, rfl, (if_pos hne).symm⟩
    · next hne => exact ⟨rfl, rfl, rfl, rfl, rfl, rfl, (if_neg hne).symm⟩
  obtain ⟨hlen₁, hleader₁, hopt₁, havail₁, hgvn₁, hnoted₁⟩ := hshape
  have hflat₁ : e₁.Flat canon := h.flat.congr hlen₁ hleader₁ hopt₁
  have halone : ∀ w < e₁.len, canon w = r → w = r := by
    rw [hlen₁]
    exact h.alone hf hn.instAt hres hn.unseen
  rw [Torajs.Egraph.lookUp, hgvn₁]
  cases hget : e.gvnMap.get ((f.values[r]?).getD .void, rk) with
  | some t =>
    dsimp only
    obtain ⟨c, hcmem, hlisted⟩ := hlay.get hget
    obtain ⟨j, inst', hinst', hres', hreg, htself, _⟩ := id hlisted
    have ht : f.Avail t b k := Or.inr ⟨c, j, ⟨inst', hinst', hres'⟩, hopen c hcmem j hreg⟩
    have hne : t ≠ r := ht.ne_of_defAt hf.ssa ⟨inst, hn.instAt, hres⟩ hn.reached
    have htlt : t < e₁.len := hlen₁ ▸ h.len ▸ ht.lt hf
    rcases hflat₁.unionInto (hlen₁ ▸ hlt) hself halone htlt htself hne with
      hfull | ⟨e₂, hunion, hflat₂, heq⟩
    · refine ⟨e₁, canon, _, by rw [hfull]; rfl, h.own hf hI hn hres hpure hnoted₁ hrk hlen₁ hflat₁
        (fun v _ => by rw [havail₁]) (fun t' ht' => ?_), ?_⟩
      · rw [havail₁, havail] at ht'
        cases ht'
      · rw [hgvn₁]
        exact hlay.extend hf hn.instAt hres hn.unseen hregsub
          fun v hv => ⟨rfl, Function.update_of_ne hv _ _⟩
    · have hnoted₂ : Noted e r (inst.kind.canonical canon) e₂ := by
        rw [heq]
        exact hnoted₁
      have hlen₂ : e₂.len = e.len := by
        rw [heq]
        exact hlen₁
      have havail₂ : e₂.availableBlock = e.availableBlock := by
        rw [heq]
        exact havail₁
      refine ⟨e₂, _, key, by rw [hunion]; rfl, h.joined hf hI hn hres hpure hnoted₂ hrk hlen₂ hflat₂
        hlisted (hopen c hcmem) havail₂, ?_⟩
      have hgvn₂ : e₂.gvnMap = e.gvnMap := by
        rw [heq]
        exact hgvn₁
      rw [hgvn₂]
      exact hlay.extend hf hn.instAt hres hn.unseen hregsub
        fun v hv => ⟨Function.update_of_ne hv _ _, rfl⟩
  | none =>
    dsimp only
    have hset : ∀ m, ({ e₁ with gvnMap := m } : Graph).setAvailableBlock r b =
        { e₁ with gvnMap := m, availableBlock := Function.update e.availableBlock r (some b) } := by
      intro m
      have hltm : r < ({ e₁ with gvnMap := m } : Graph).len := hlen₁ ▸ hlt
      rw [Graph.setAvailableBlock, if_pos hltm, ← havail₁]
    rw [hset]
    refine ⟨_, canon, Function.update key r rk, rfl, ?_, ?_⟩
    · refine h.own hf hI hn hres hpure hnoted₁ hrk hlen₁ (hflat₁.congr rfl rfl rfl)
        (fun v hv => Function.update_of_ne hv _ _) fun t ht => ?_
      dsimp only at ht
      rw [Function.update_self] at ht
      exact (Option.some.inj ht).symm
    · refine Layered.insert (hlay.extend hf hn.instAt hres hn.unseen hregsub
        fun v hv => ⟨rfl, Function.update_of_ne hv _ _⟩) ?_
      exact ⟨k, inst, hn.instAt, hres, (hn.reg_iff b k).mpr (Or.inr ⟨rfl, rfl⟩), hself, rfl,
        Function.update_self _ _ _, fun ρ hρ => hrw.result hn.reached hn.instAt hres hpure hρ⟩

/-- **`process_inst` keeps the invariant.** -/
lemma Walked.processInst (hf : f.Lowered) (hI : I.Lawful enc) (h : Walked f I enc reg e canon key)
    (hlay : Layered f I enc reg canon key (b :: path) e.gvnMap)
    (hn : NextPoint f reg reg' b k inst)
    (hopen : ∀ c ∈ b :: path, ∀ j, reg c j → f.Precedes c (j + 1) b k) :
    ∃ e' canon' key', processInst f b e inst = some e' ∧ Walked f I enc reg' e' canon' key' ∧
      Layered f I enc reg' canon' key' (b :: path) e'.gvnMap := by
  have hregsub : ∀ d j, reg d j → reg' d j := fun d j hreg => (hn.reg_iff d j).mpr (Or.inl hreg)
  rw [Torajs.Egraph.processInst]
  cases hres : inst.result with
  | none =>
    refine ⟨e, canon, key, rfl, h.void hn hres, ?_⟩
    obtain ⟨layers, hm, hlayers⟩ := hlay
    refine ⟨layers, hm, hlayers.imp fun c layer hlayer entry v hv => ?_⟩
    obtain ⟨j, inst', hinst', hres', hreg, hrest⟩ := hlayer entry v hv
    exact ⟨j, inst', hinst', hres', hregsub c j hreg, hrest⟩
  | some r =>
    have hinside : inst.kind.Inside e.len := fun v hv =>
      h.len ▸ (hf.avail hn.reached hn.instAt hv).lt hf
    dsimp only
    rw [optCanonicalize_eq h.flat hinside, Option.bind_some]
    dsimp only
    rw [InstKind.isPure_canonical]
    cases hpure : inst.kind.isPure with
    | false =>
      refine ⟨e, canon, key, rfl, h.skeleton hf hn hres hpure, ?_⟩
      exact hlay.extend hf hn.instAt hres hn.unseen hregsub fun v _ => ⟨rfl, rfl⟩
    | true =>
      rw [if_pos rfl, record]
      split
      · next t hrk => exact h.setOptValue hf hI hlay hn hres hpure hrk
      · next op hop hrk =>
        refine h.setConst hf hI hlay hn hres hpure hrk ?_
        cases op with
        | value v => exact absurd rfl (hop v)
        | _ => rfl
      · next _ hnot => exact h.lookUp hf hI hlay hn hopen hres hpure hnot

/-! ### A block -/

/-- The points seen inside a block, behind the blocks that are done. -/
def Passed (done : List BlockId) (b k : ℕ) (d j : ℕ) : Prop := d ∈ done ∨ d = b ∧ j < k

/-- Only points with an instruction count. -/
lemma Walked.congr (h : Walked f I enc reg e canon key) {reg' : ℕ → ℕ → Prop}
    (hreg : ∀ d j inst, f.InstAt d j inst → (reg' d j ↔ reg d j)) :
    Walked f I enc reg' e canon key where
  len := h.len
  flat := h.flat
  reached d j inst hinst hr := h.reached d j inst hinst ((hreg d j inst hinst).mp hr)
  closed d j inst c k inst' hinst hinst' hr hd := (hreg d j inst hinst).mpr
    (h.closed d j inst c k inst' hinst hinst' ((hreg c k inst' hinst').mp hr) hd)
  untouched v hv hunseen := h.untouched v hv fun d j hdef hr => by
    obtain ⟨inst, hinst, hres⟩ := hdef
    exact hunseen d j ⟨inst, hinst, hres⟩ ((hreg d j inst hinst).mpr hr)
  settled d j inst r hinst hres hr := h.settled d j inst r hinst hres ((hreg d j inst hinst).mp hr)

lemma Layered.congr {m : ScopedHashMap GvnKey ValueId}
    (h : Layered f I enc reg canon key path m) {reg' : ℕ → ℕ → Prop}
    (hreg : ∀ d j inst, f.InstAt d j inst → reg d j → reg' d j) :
    Layered f I enc reg' canon key path m := by
  obtain ⟨layers, hm, hlayers⟩ := h
  refine ⟨layers, hm, hlayers.imp fun c layer hlayer entry v hv => ?_⟩
  obtain ⟨j, inst, hinst, hres, hr, hrest⟩ := hlayer entry v hv
  exact ⟨j, inst, hinst, hres, hreg c j inst hinst hr, hrest⟩

/-- The table is no part of what is said of the values. -/
lemma Walked.withTable (h : Walked f I enc reg e canon key) (m : ScopedHashMap GvnKey ValueId) :
    Walked f I enc reg { e with gvnMap := m } canon key where
  len := h.len
  flat := h.flat.congr rfl rfl rfl
  reached := h.reached
  closed := h.closed
  untouched := h.untouched
  settled d j inst r hinst hres hr := by
    have hs := h.settled d j inst r hinst hres hr
    exact ⟨⟨hs.avail, hs.pure, hs.eq, hs.width, hs.copied, hs.const, hs.rewritten⟩, hs.inputs,
      hs.base, hs.available⟩

/-- **The instructions of a block**, one after the other. -/
lemma Walked.foldl_processInst (hf : f.Lowered) (hI : I.Lawful enc) {done : List BlockId}
    {blk : Block}
    (hb : f.Reached b) (hblk : f.BlockAt b blk) (hfresh : b ∉ done)
    (hdone : ∀ d, f.Dom d b → d ≠ b → d ∈ done) (hpath : ∀ d ∈ path, f.Dom d b ∧ d ≠ b) :
    ∀ (insts : List Inst) (k : ℕ) (e : Graph) (canon : ValueId → ValueId)
      (key : ValueId → InstKind), blk.insts.drop k = insts → k ≤ blk.insts.length →
      Walked f I enc (Passed done b k) e canon key →
      Layered f I enc (Passed done b k) canon key (b :: path) e.gvnMap →
      ∃ e' canon' key', insts.foldlM (Torajs.Egraph.processInst f b) e = some e' ∧
        Walked f I enc (Passed done b blk.insts.length) e' canon' key' ∧
        Layered f I enc (Passed done b blk.insts.length) canon' key' (b :: path) e'.gvnMap := by
  intro insts
  induction insts with
  | nil =>
    intro k e canon key hdrop hk h hlay
    obtain rfl : k = blk.insts.length := Nat.le_antisymm hk (List.drop_eq_nil_iff.mp hdrop)
    exact ⟨e, canon, key, rfl, h, hlay⟩
  | cons inst insts ih =>
    intro k e canon key hdrop hk h hlay
    have hinst : blk.insts[k]? = some inst := by
      rw [← List.head?_drop, hdrop]
      rfl
    have hnext : NextPoint f (Passed done b k) (Passed done b (k + 1)) b k inst := by
      refine ⟨hb, ⟨blk, hblk, hinst⟩, ?_, fun d j _ _ hd => ?_, fun d j => ?_⟩
      · rintro (hmem | ⟨_, hlt⟩)
        · exact hfresh hmem
        · exact Nat.lt_irrefl k hlt
      · rcases hd with ⟨rfl, hjk⟩ | ⟨hdom, hne⟩
        · exact Or.inr ⟨rfl, hjk⟩
        · exact Or.inl (hdone d hdom hne)
      · rw [Passed, Passed, Nat.lt_succ_iff_lt_or_eq, and_or_left, or_assoc]
    have hopen : ∀ c ∈ b :: path, ∀ j, Passed done b k c j → f.Precedes c (j + 1) b k := by
      intro c hc j hreg
      rcases List.mem_cons.mp hc with rfl | hc
      · exact Func.Precedes.within (hreg.resolve_left hfresh).2
      · exact Or.inr (hpath c hc)
    obtain ⟨e₁, canon₁, key₁, he₁, h₁, hlay₁⟩ := h.processInst hf hI hlay hnext hopen
    obtain ⟨e', canon', key', he', h', hlay'⟩ := ih (k + 1) e₁ canon₁ key₁
      (by rw [← List.tail_drop, hdrop]; rfl) (List.getElem?_eq_some_iff.mp hinst).1 h₁ hlay₁
    exact ⟨e', canon', key', by rw [List.foldlM_cons, he₁]; exact he', h', hlay'⟩

end Step

/-! ### The tree -/

section Tree

variable {doms : Dominator.Doms} {dom : Dominator.Tree}

/-- The dominator tree of a function. -/
structure Func.TreeOf (f : Func) (doms : Dominator.Doms) (dom : Dominator.Tree) : Prop where
  cfg : Dominator.WellFormed f.cfg
  built : Dominator.Built f.cfg doms dom

lemma Func.TreeOf.isTree (h : f.TreeOf doms dom) :
    TreeNumbering.IsTree dom.children (Dominator.treeParent dom.idom) (Dominator.entryId f.cfg)
      (fun b => (Dominator.indexTable dom.rpo b).getD 0) := by
  rw [h.built.children]
  exact Dominator.isTree_blocks h.cfg h.built.isRpo h.built.isDoms h.built.idom

/-- The nodes of the tree are the blocks the entry reaches. -/
lemma Func.TreeOf.anc_root_iff (h : f.TreeOf doms dom) {b : BlockId} :
    Anc (Dominator.treeParent dom.idom) (Dominator.entryId f.cfg) b ↔ f.Reached b := by
  constructor
  · intro hb
    cases hb with
    | refl => exact Dominance.Reachable.root
    | @up _ p hp _ =>
      obtain ⟨k, _, hk, _⟩ := (h.built.idom b p).mp (Dominator.treeParent_eq_some.mp hp).1
      exact h.built.isRpo.reachable hk
  · intro hb
    exact (h.built.anc_iff h.cfg Dominance.Reachable.root hb).mpr (Dominance.Dominates.root b)

/-- Its ancestors are the dominators. -/
lemma Func.TreeOf.anc_iff (h : f.TreeOf doms dom) {a b : BlockId} (hb : f.Reached b) :
    Anc (Dominator.treeParent dom.idom) a b ↔ f.Dom a b := by
  constructor
  · intro hanc
    rcases TreeWalk.anc_total (h.anc_root_iff.mpr hb) hanc with hra | har
    · exact (h.built.anc_iff h.cfg (h.anc_root_iff.mp hra) hb).mp hanc
    · cases har with
      | refl => exact Dominance.Dominates.root b
      | up hp _ => exact absurd (h.isTree.root.symm.trans hp) (by simp)
  · exact fun hdom => (h.built.anc_iff h.cfg (hdom.reached hb) hb).mpr hdom

/-- The tree is no deeper than it has blocks. -/
lemma Func.TreeOf.rank_lt (h : f.TreeOf doms dom) {b : BlockId}
    (hb : Anc (Dominator.treeParent dom.idom) (Dominator.entryId f.cfg) b) :
    (Dominator.indexTable dom.rpo b).getD 0 < dom.rpo.length := by
  obtain ⟨k, hk⟩ := h.built.isRpo.exists_position (h.anc_root_iff.mp hb)
  rw [(Dominator.indexTable_eq_some h.built.isRpo.nodup).mpr hk]
  exact Dominator.lt_of_position hk

/-- Where a walk stands. -/
lemma Func.TreeOf.spot (h : f.TreeOf doms dom) {path done : List BlockId} {b : BlockId}
    (hspot : TreeWalk.Spot (Dominator.treeParent dom.idom) (Dominator.entryId f.cfg) path done b) :
    f.Reached b ∧ b ∉ done ∧ (∀ d, f.Dom d b → d ≠ b → d ∈ done) ∧
      ∀ d ∈ path, f.Dom d b ∧ d ≠ b := by
  have hb := h.anc_root_iff.mp hspot.root
  refine ⟨hb, hspot.fresh b (Anc.refl b), fun d hd hne => ?_, fun d hd => ?_⟩
  · exact hspot.path_done d ((hspot.mem_path d).mpr ⟨(h.anc_iff hb).mpr hd, hne⟩)
  · obtain ⟨hanc, hne⟩ := (hspot.mem_path d).mp hd
    exact ⟨(h.anc_iff hb).mp hanc, hne⟩

/-- **The walk of the first phase**: it ends, and what is said then is right of every value of the
blocks the entry reaches. -/
theorem Walked.visitDomNested (hf : f.Lowered) (hI : I.Lawful enc) (ht : f.TreeOf doms dom) :
    ∃ e canon key, visitDomNested f dom (Dominator.entryId f.cfg) (Graph.new f.values.length) =
        some e ∧ Walked f I enc (fun d _ => f.Reached d) e canon key := by
  let Inv : List BlockId → List BlockId → Graph → Prop := fun path done e =>
    ∃ canon key, Walked f I enc (fun d _ => d ∈ done) e canon key ∧
      Layered f I enc (fun d _ => d ∈ done) canon key path e.gvnMap
  have henter : ∀ path done b e,
      TreeWalk.Spot (Dominator.treeParent dom.idom) (Dominator.entryId f.cfg) path done b →
      Inv path done e → ∃ e', enterBlock f b e = some e' ∧ Inv (b :: path) (b :: done) e' := by
    rintro path done b e hspot ⟨canon, key, h, hlay⟩
    obtain ⟨hb, hfresh, hdone, hpath⟩ := ht.spot hspot
    obtain ⟨defs, hwalk⟩ := hf.wellFormed.exists_walk hb
    obtain ⟨blk, hblk⟩ := hf.wellFormed.blockAt_of_walk hwalk
    have hzero : ∀ d j, Passed done b 0 d j ↔ d ∈ done := fun d j => by
      rw [Passed]
      exact or_iff_left fun hlt => Nat.not_lt_zero j hlt.2
    have hend : ∀ d j inst, f.InstAt d j inst →
        (d ∈ b :: done ↔ Passed done b blk.insts.length d j) := by
      rintro d j inst ⟨blk', hblk', hinst⟩
      rw [Passed, List.mem_cons, or_comm]
      refine or_congr_right ⟨?_, And.left⟩
      rintro rfl
      obtain rfl := hblk'.unique hblk
      exact ⟨rfl, (List.getElem?_eq_some_iff.mp hinst).1⟩
    obtain ⟨e', canon', key', he', h', hlay'⟩ := Walked.foldl_processInst hf hI hb hblk hfresh hdone
      hpath blk.insts 0 { e with gvnMap := e.gvnMap.pushScope } canon key rfl (Nat.zero_le _)
      ((h.withTable _).congr fun d j _ _ => hzero d j)
      ((hlay.push b).congr fun d j _ _ hd => (hzero d j).mpr hd)
    refine ⟨e', ?_, canon', key', h'.congr hend, hlay'.congr fun d j inst hinst hr =>
      (hend d j inst hinst).mpr hr⟩
    have hget : f.blocks[b]? = some blk := hblk
    rw [enterBlock, hget]
    exact he'
  have hleave : ∀ b path done e, Inv (b :: path) done e →
      ∃ e', leaveBlock e = some e' ∧ Inv path done e' := by
    rintro b path done e ⟨canon, key, h, hlay⟩
    obtain ⟨m, hm, hlay'⟩ := hlay.pop
    exact ⟨{ e with gvnMap := m }, by rw [leaveBlock, hm]; rfl, canon, key, h.withTable m, hlay'⟩
  have hinit : Inv [] [] (Graph.new f.values.length) := by
    refine ⟨id, fun _ => .alloca .void, ⟨rfl, Graph.Flat.new _,
      fun _ _ _ _ hd => absurd hd List.not_mem_nil,
      fun _ _ _ _ _ _ _ _ hd _ => absurd hd List.not_mem_nil,
      fun v _ _ => ⟨rfl, rfl, rfl, rfl⟩, fun _ _ _ _ _ _ hd => absurd hd List.not_mem_nil⟩,
      [], ScopedHashMap.Represents.new, List.Forall₂.nil⟩
  obtain ⟨e, done, he, ⟨canon, key, h, _⟩, hdone⟩ :=
    TreeWalk.visit_root ht.isTree (fun b hb => ht.rank_lt hb) henter hleave hinit
  refine ⟨e, canon, key, he, h.congr fun d j _ _ => ?_⟩
  rw [hdone, ht.anc_root_iff]

end Tree

end Torajs.Egraph
