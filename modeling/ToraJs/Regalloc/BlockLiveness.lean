import ToraJs.Lib.DepthFirst
import ToraJs.Regalloc.Ir

/-!
# Block live sets

`ssa::liveness_blocks`: one scan collects the upward-exposed reads, the definitions and
the edges, then for every value the blocks are walked backwards from its exposed reads
until a block that defines it.

The results say that the sets are closed: an exposed read makes the value live in, a value
live into a block is live out of its predecessors, and a value live out of a block that
does not define it is live in.
-/

namespace Torajs.Regalloc

/-! ### The scan -/

/-- `Scan`, without the slot numbering and the edges. -/
structure Scan where
  uses : List (ValueId × ℕ)
  defs : List (ValueId × ℕ)
  defIn : ValueId → Option ℕ
  useIn : ValueId → Option ℕ

/-- `Scan::read`. -/
def Scan.read (s : Scan) (b : ℕ) (v : ValueId) : Scan :=
  if s.defIn v ≠ some b ∧ s.useIn v ≠ some b then
    { s with useIn := Function.update s.useIn v (some b), uses := s.uses ++ [(v, b)] }
  else s

/-- `Scan::write`. -/
def Scan.write (s : Scan) (b : ℕ) (v : ValueId) : Scan :=
  if s.defIn v ≠ some b then
    { s with defIn := Function.update s.defIn v (some b), defs := s.defs ++ [(v, b)] }
  else s

/-- The scan of one instruction. -/
def Scan.inst (b : ℕ) (s : Scan) (inst : Inst) : Scan :=
  let s' := (visitValueOperands inst.kind).foldl (fun s v => s.read b v) s
  match inst.result with
  | some r => s'.write b r
  | none => s'

/-- The scan of one block. -/
def Scan.block (s : Scan) (bi : Block × ℕ) : Scan :=
  (visitTerminatorOperands bi.1.term).foldl (fun s v => s.read bi.2 v)
    (bi.1.insts.foldl (Scan.inst bi.2) s)

/-- `scan`. -/
def scan (f : Func) : Scan :=
  f.blocks.zipIdx.foldl Scan.block ⟨[], [], fun _ => none, fun _ => none⟩

/-- The pairs `(succ, block)` of `scan`. -/
def edges (f : Func) : List (ℕ × ℕ) :=
  f.blocks.zipIdx.flatMap fun bi =>
    (successors bi.1.term).filterMap fun t => (f.pos t).map fun succ => (succ, bi.2)

/-- `Csr::group` and `Csr::get`: the items of a key, in order. -/
def itemsOf (pairs : List (ℕ × ℕ)) (k : ℕ) : List ℕ :=
  (pairs.filter fun p => p.1 = k).map Prod.snd

/-! ### The walk of one value -/

/-- The worklist loop for one value: the blocks it is live into and those it is live out
of. -/
def walkUp (preds : ℕ → List ℕ) (defines : ℕ → Bool) :
    ℕ → List ℕ → (ℕ → Bool) → (ℕ → Bool) → Option ((ℕ → Bool) × (ℕ → Bool))
  | _, [], live, out => some (live, out)
  | 0, _ :: _, _, _ => none
  | fuel + 1, b :: work, live, out =>
    if live b then walkUp preds defines fuel work live out
    else
      let live' := Function.update live b true
      let out' := (preds b).foldl (fun out p => Function.update out p true) out
      let pushed := (preds b).filter fun p => !defines p && !live' p
      walkUp preds defines fuel (pushed.reverse ++ work) live' out'

/-- The walk of the value `v`.  Every block is taken once, with its predecessors. -/
def walkOf (f : Func) (v : ValueId) : Option ((ℕ → Bool) × (ℕ → Bool)) :=
  let uses := itemsOf (scan f).uses v
  let defs := itemsOf (scan f).defs v
  let preds := itemsOf (edges f)
  walkUp preds (fun b => b ∈ defs)
    (DepthFirst.work preds (List.range f.blocks.length) (fun _ => false) + uses.length)
    uses.reverse (fun _ => false) (fun _ => false)

/-- `BlockLiveness`: the members of each set ascend. -/
structure BlockLiveness where
  start : ℕ → ℕ
  stop : ℕ → ℕ
  liveIn : ℕ → List ValueId
  liveOut : ℕ → List ValueId

/-- `compute_block_liveness`. -/
def computeBlockLiveness (f : Func) : Option BlockLiveness := do
  let walks ← (List.range f.values.length).mapM (walkOf f)
  some
    { start := f.start
      stop := f.stop
      liveIn := fun b => (walks.zipIdx.filter fun w => w.1.1 b).map Prod.snd
      liveOut := fun b => (walks.zipIdx.filter fun w => w.1.2 b).map Prod.snd }

/-! ### What the scan finds -/

/-- Some slot defines the value. -/
def Defines (slots : List Slot) (v : ValueId) : Prop := ∃ s ∈ slots, s.result = some v

/-- Some slot reads the value before any defines it. -/
def Exposed : List Slot → ValueId → Prop
  | [], _ => False
  | s :: rest, v => v ∈ s.reads ∨ s.result ≠ some v ∧ Exposed rest v

lemma exposed_append {l l' : List Slot} {v : ValueId} :
    Exposed (l ++ l') v ↔ Exposed l v ∨ ¬ Defines l v ∧ Exposed l' v := by
  induction l with
  | nil => simp [Exposed, Defines]
  | cons s l ih =>
    rw [List.cons_append, Exposed, Exposed, ih]
    have hdef : Defines (s :: l) v ↔ s.result = some v ∨ Defines l v := by simp [Defines]
    rw [hdef, not_or]
    tauto

lemma defines_append {l l' : List Slot} {v : ValueId} :
    Defines (l ++ l') v ↔ Defines l v ∨ Defines l' v := by
  simp [Defines, or_and_right, exists_or]

/-- The scan of one slot. -/
def Scan.slot (b : ℕ) (s : Scan) (slot : Slot) : Scan :=
  let s' := slot.reads.foldl (fun s v => s.read b v) s
  match slot.result with
  | some r => s'.write b r
  | none => s'

lemma Scan.block_eq {s : Scan} {b : Block} {i : ℕ} (h : ∀ inst ∈ b.insts, ¬ inst.kind.isIdentity) :
    s.block (b, i) = b.slots.foldl (Scan.slot i) s := by
  rw [Scan.block, Block.slots, List.foldl_append, List.foldl_map]
  have hinst : ∀ insts : List Inst, (∀ inst ∈ insts, ¬ inst.kind.isIdentity) → ∀ s : Scan,
      insts.foldl (Scan.inst i) s = insts.foldl (fun s inst => s.slot i inst.slot) s := by
    intro insts
    induction insts with
    | nil => exact fun _ _ => rfl
    | cons inst insts ih =>
      intro hinsts s
      rw [List.foldl_cons, List.foldl_cons, ih fun x hx => hinsts x (List.mem_cons_of_mem _ hx)]
      have hkind := Bool.eq_false_iff.mpr (hinsts inst List.mem_cons_self)
      rw [Scan.inst, Scan.slot, Inst.slot, visitInstOperands_eq hkind]
  rw [hinst b.insts h]
  rfl

/-- The scan after the slots `l` of block `b`. -/
structure ScanInv (done : ℕ → ValueId → Prop) (b : ℕ) (l : List Slot) (s : Scan) : Prop where
  defIn : ∀ v, s.defIn v = some b → Defines l v
  defIn_le : ∀ v j, s.defIn v = some j → j ≤ b
  useIn : ∀ v, s.useIn v = some b → (v, b) ∈ s.uses
  useIn_le : ∀ v j, s.useIn v = some j → j ≤ b
  uses : ∀ v, Exposed l v → (v, b) ∈ s.uses
  defs : ∀ v j, (v, j) ∈ s.defs → done j v ∨ j = b ∧ Defines l v

section ScanSteps

variable {done : ℕ → ValueId → Prop} {b : ℕ} {l : List Slot} {s : Scan}

/-- A read records the value unless the block defined it before. -/
lemma Scan.read_spec (h : ScanInv done b l s) (v : ValueId) :
    ScanInv done b l (s.read b v) ∧ (¬ Defines l v → (v, b) ∈ (s.read b v).uses) ∧
      ∀ p ∈ s.uses, p ∈ (s.read b v).uses := by
  rw [Scan.read]
  split_ifs with hnew
  · refine ⟨{ defIn := h.defIn
              defIn_le := h.defIn_le
              useIn := fun w hw => ?_
              useIn_le := fun w j hw => ?_
              uses := fun w hw => List.mem_append_left _ (h.uses w hw)
              defs := h.defs }, fun _ => List.mem_append_right _ (List.mem_singleton.mpr rfl),
      fun p hp => List.mem_append_left _ hp⟩
    · by_cases hwv : w = v
      · rw [hwv]
        exact List.mem_append_right _ (List.mem_singleton.mpr rfl)
      · dsimp only at hw
        rw [Function.update_of_ne hwv] at hw
        exact List.mem_append_left _ (h.useIn w hw)
    · by_cases hwv : w = v
      · dsimp only at hw
        rw [hwv, Function.update_self] at hw
        exact (Option.some.inj hw).ge
      · dsimp only at hw
        rw [Function.update_of_ne hwv] at hw
        exact h.useIn_le w j hw
  · refine ⟨h, fun hdef => ?_, fun p hp => hp⟩
    rw [not_and_or, not_not, not_not] at hnew
    rcases hnew with hd | hu
    · exact absurd (h.defIn v hd) hdef
    · exact h.useIn v hu

lemma Scan.foldl_read (reads : List ValueId) : ∀ {s : Scan}, ScanInv done b l s →
    ScanInv done b l (reads.foldl (fun s v => s.read b v) s) ∧
      (∀ v ∈ reads, ¬ Defines l v → (v, b) ∈ (reads.foldl (fun s v => s.read b v) s).uses) ∧
      ∀ p ∈ s.uses, p ∈ (reads.foldl (fun s v => s.read b v) s).uses := by
  induction reads with
  | nil => exact fun h => ⟨h, by simp, fun _ hp => hp⟩
  | cons v reads ih =>
    intro s h
    obtain ⟨hinv, hnew, hmono⟩ := Scan.read_spec h v
    obtain ⟨hinv', hnew', hmono'⟩ := ih hinv
    refine ⟨hinv', ?_, fun p hp => hmono' p (hmono p hp)⟩
    intro w hw hdef
    rcases List.mem_cons.mp hw with rfl | hw
    · exact hmono' _ (hnew hdef)
    · exact hnew' w hw hdef

lemma Scan.slot_spec (h : ScanInv done b l s) (slot : Slot) :
    ScanInv done b (l ++ [slot]) (s.slot b slot) ∧ ∀ p ∈ s.uses, p ∈ (s.slot b slot).uses := by
  obtain ⟨hinv, hnew, hmono⟩ := Scan.foldl_read slot.reads h
  rw [Scan.slot]
  set s' := slot.reads.foldl (fun s v => s.read b v) s
  have hexposed : ∀ v, Exposed (l ++ [slot]) v → (v, b) ∈ s'.uses := by
    intro v hv
    rcases exposed_append.mp hv with hv | ⟨hdef, hv | ⟨_, hv⟩⟩
    · exact hinv.uses v hv
    · exact hnew v hv hdef
    · exact absurd hv id
  have hdefs : ∀ {v}, Defines l v → Defines (l ++ [slot]) v := fun hv =>
    defines_append.mpr (Or.inl hv)
  have hweak : ScanInv done b (l ++ [slot]) s' :=
    { hinv with
      defIn := fun v hv => hdefs (hinv.defIn v hv)
      uses := hexposed
      defs := fun v j hv => (hinv.defs v j hv).imp id fun ⟨hj, hd⟩ => ⟨hj, hdefs hd⟩ }
  cases hres : slot.result with
  | none => exact ⟨hweak, hmono⟩
  | some r =>
    have hr : Defines (l ++ [slot]) r :=
      defines_append.mpr (Or.inr ⟨slot, List.mem_singleton.mpr rfl, hres⟩)
    dsimp only
    rw [Scan.write]
    split_ifs with hnewdef
    · refine ⟨{ defIn := fun v hv => ?_
                defIn_le := fun v j hv => ?_
                useIn := hweak.useIn
                useIn_le := hweak.useIn_le
                uses := hweak.uses
                defs := fun v j hv => ?_ }, hmono⟩
      · by_cases hvr : v = r
        · exact hvr ▸ hr
        · dsimp only at hv
          rw [Function.update_of_ne hvr] at hv
          exact hweak.defIn v hv
      · by_cases hvr : v = r
        · dsimp only at hv
          rw [hvr, Function.update_self] at hv
          exact (Option.some.inj hv).ge
        · dsimp only at hv
          rw [Function.update_of_ne hvr] at hv
          exact hweak.defIn_le v j hv
      · rcases List.mem_append.mp hv with hv | hv
        · exact hweak.defs v j hv
        · obtain ⟨rfl, rfl⟩ := Prod.mk.inj (List.mem_singleton.mp hv)
          exact Or.inr ⟨rfl, hr⟩
    · exact ⟨hweak, hmono⟩

lemma Scan.slots_spec (rest : List Slot) : ∀ {l : List Slot} {s : Scan}, ScanInv done b l s →
    ScanInv done b (l ++ rest) (rest.foldl (Scan.slot b) s) ∧
      ∀ p ∈ s.uses, p ∈ (rest.foldl (Scan.slot b) s).uses := by
  induction rest with
  | nil =>
    intro l s h
    rw [List.append_nil]
    exact ⟨h, fun _ hp => hp⟩
  | cons slot rest ih =>
    intro l s h
    obtain ⟨hinv, hmono⟩ := Scan.slot_spec h slot
    obtain ⟨hinv', hmono'⟩ := ih hinv
    rw [List.append_assoc, List.singleton_append] at hinv'
    exact ⟨hinv', fun p hp => hmono' p (hmono p hp)⟩

end ScanSteps

/-- The block at a position defines the value. -/
def Func.BlockDefines (f : Func) (i : ℕ) (v : ValueId) : Prop :=
  ∃ b, f.blocks[i]? = some b ∧ Defines b.slots v

/-- The scan after the blocks before position `i`. -/
structure ScannedTo (f : Func) (i : ℕ) (s : Scan) : Prop where
  defIn_lt : ∀ v j, s.defIn v = some j → j < i
  useIn_lt : ∀ v j, s.useIn v = some j → j < i
  uses : ∀ v j b, j < i → f.blocks[j]? = some b → Exposed b.slots v → (v, j) ∈ s.uses
  defs : ∀ v j, (v, j) ∈ s.defs → f.BlockDefines j v

lemma ScannedTo.block {f : Func} {i : ℕ} {s : Scan} {b : Block} (h : ScannedTo f i s)
    (hb : f.blocks[i]? = some b) (hid : ∀ inst ∈ b.insts, ¬ inst.kind.isIdentity) :
    ScannedTo f (i + 1) (s.block (b, i)) := by
  have hstart : ScanInv f.BlockDefines i [] s :=
    { defIn := fun v hv => absurd (h.defIn_lt v i hv) (Nat.lt_irrefl i)
      defIn_le := fun v j hv => (h.defIn_lt v j hv).le
      useIn := fun v hv => absurd (h.useIn_lt v i hv) (Nat.lt_irrefl i)
      useIn_le := fun v j hv => (h.useIn_lt v j hv).le
      uses := fun v hv => absurd hv id
      defs := fun v j hv => Or.inl (h.defs v j hv) }
  obtain ⟨hinv, hmono⟩ := Scan.slots_spec b.slots hstart
  rw [List.nil_append] at hinv
  rw [Scan.block_eq hid]
  refine ⟨fun v j hv => Nat.lt_succ_of_le (hinv.defIn_le v j hv),
    fun v j hv => Nat.lt_succ_of_le (hinv.useIn_le v j hv), fun v j c hj hc hv => ?_,
    fun v j hv => ?_⟩
  · by_cases hji : j = i
    · subst hji
      obtain rfl := Option.some.inj (hb.symm.trans hc)
      exact hinv.uses v hv
    · exact hmono _ (h.uses v j c (by omega) hc hv)
  · rcases hinv.defs v j hv with hd | ⟨rfl, hd⟩
    · exact hd
    · exact ⟨b, hb, hd⟩

lemma Func.not_isIdentity {f : Func} (h : f.visitable = true) {b : Block} (hb : b ∈ f.blocks) :
    ∀ inst ∈ b.insts, ¬ inst.kind.isIdentity := by
  intro inst hinst
  rw [Func.visitable, Bool.and_eq_true, List.all_eq_true] at h
  have := List.all_eq_true.mp (h.1 b hb) inst hinst
  simpa using this

/-- **The scan finds every exposed read, and only definitions.** -/
lemma scan_spec {f : Func} (h : f.visitable = true) : ScannedTo f f.blocks.length (scan f) := by
  have key : ∀ (rest : List Block) (i : ℕ) (s : Scan), f.blocks.drop i = rest →
      ScannedTo f i s → ScannedTo f (i + rest.length) ((rest.zipIdx i).foldl Scan.block s) := by
    intro rest
    induction rest with
    | nil => exact fun i s _ hs => hs
    | cons b rest ih =>
      intro i s hdrop hs
      have hb : f.blocks[i]? = some b := by
        rw [← List.head?_drop, hdrop, List.head?_cons]
      have hrest : f.blocks.drop (i + 1) = rest := by
        rw [← List.tail_drop, hdrop, List.tail_cons]
      have hs' := hs.block hb (Func.not_isIdentity h (List.mem_of_getElem? hb))
      have := ih (i + 1) _ hrest hs'
      rw [List.length_cons, show i + (rest.length + 1) = i + 1 + rest.length by omega]
      exact this
  have := key f.blocks 0 ⟨[], [], fun _ => none, fun _ => none⟩ List.drop_zero
    ⟨nofun, nofun, fun _ j _ hj => absurd hj (Nat.not_lt_zero j), nofun⟩
  rwa [Nat.zero_add] at this

lemma mem_itemsOf {pairs : List (ℕ × ℕ)} {k x : ℕ} : x ∈ itemsOf pairs k ↔ (k, x) ∈ pairs := by
  rw [itemsOf, List.mem_map]
  constructor
  · rintro ⟨⟨a, b⟩, hp, rfl⟩
    obtain ⟨hp, hk⟩ := List.mem_filter.mp hp
    have hk : a = k := by simpa using hk
    exact hk ▸ hp
  · intro hp
    exact ⟨(k, x), List.mem_filter.mpr ⟨hp, by simp⟩, rfl⟩

/-! ### What the walk computes -/

/-- What holds before every round of the worklist loop. -/
structure WalkInv (preds : ℕ → List ℕ) (defines : ℕ → Bool) (uses : List ℕ) (work : List ℕ)
    (live out : ℕ → Bool) : Prop where
  seeds : ∀ b ∈ uses, live b = true ∨ b ∈ work
  marks : ∀ b, live b = true → ∀ p ∈ preds b, out p = true
  carries : ∀ p, out p = true → defines p = true ∨ live p = true ∨ p ∈ work

lemma foldl_mark {ps : List ℕ} : ∀ {out : ℕ → Bool} (q : ℕ),
    ps.foldl (fun out p => Function.update out p true) out q = true ↔ out q = true ∨ q ∈ ps := by
  induction ps with
  | nil => simp
  | cons p ps ih =>
    intro out q
    rw [List.foldl_cons, ih, List.mem_cons]
    by_cases hq : q = p
    · simp [hq]
    · simp [hq]

/-- What the walk of a value leaves: the sets are closed. -/
structure Closed (preds : ℕ → List ℕ) (defines : ℕ → Bool) (uses : List ℕ) (live out : ℕ → Bool) :
    Prop where
  seeds : ∀ b ∈ uses, live b = true
  marks : ∀ b, live b = true → ∀ p ∈ preds b, out p = true
  carries : ∀ p, out p = true → defines p = true ∨ live p = true

lemma walkUp_spec {preds : ℕ → List ℕ} {defines : ℕ → Bool} {uses : List ℕ} {n : ℕ}
    (hpreds : ∀ b, ∀ p ∈ preds b, p < n) (fuel : ℕ) :
    ∀ (work : List ℕ) (live out : ℕ → Bool), (∀ b ∈ work, b < n) →
      WalkInv preds defines uses work live out →
      DepthFirst.work preds (List.range n) live + work.length ≤ fuel →
      ∃ live' out', walkUp preds defines fuel work live out = some (live', out') ∧
        Closed preds defines uses live' out' := by
  induction fuel with
  | zero =>
    intro work live out _ h hfuel
    obtain rfl : work = [] := List.length_eq_zero_iff.mp (by omega)
    refine ⟨live, out, rfl, fun b hb => (h.seeds b hb).resolve_right (by simp), h.marks, fun p hp => ?_⟩
    simpa using h.carries p hp
  | succ fuel ih =>
    intro work live out hwork h hfuel
    cases work with
    | nil =>
      refine ⟨live, out, rfl, fun b hb => (h.seeds b hb).resolve_right (by simp), h.marks,
        fun p hp => ?_⟩
      simpa using h.carries p hp
    | cons b work =>
      rw [List.length_cons] at hfuel
      have hrest : ∀ c ∈ work, c < n := fun c hc => hwork c (List.mem_cons_of_mem _ hc)
      rw [walkUp]
      by_cases hb : live b = true
      · rw [if_pos hb]
        refine ih work live out hrest ⟨fun c hc => ?_, h.marks, fun p hp => ?_⟩ (by omega)
        · rcases h.seeds c hc with hl | hm
          · exact Or.inl hl
          · rcases List.mem_cons.mp hm with rfl | hm
            · exact Or.inl hb
            · exact Or.inr hm
        · rcases h.carries p hp with hd | hl | hm
          · exact Or.inl hd
          · exact Or.inr (Or.inl hl)
          · rcases List.mem_cons.mp hm with rfl | hm
            · exact Or.inr (Or.inl hb)
            · exact Or.inr (Or.inr hm)
      · rw [if_neg hb]
        dsimp only
        set live' := Function.update live b true with hlive'
        have hmono : ∀ {c}, live c = true → live' c = true := by
          intro c hc
          by_cases hcb : c = b
          · rw [hcb, hlive', Function.update_self]
          · rwa [hlive', Function.update_of_ne hcb]
        have hself : live' b = true := by rw [hlive', Function.update_self]
        have hmem : ∀ {c}, c ∈ b :: work → live' c = true ∨
            c ∈ ((preds b).filter fun p => !defines p && !live' p).reverse ++ work := by
          intro c hc
          rcases List.mem_cons.mp hc with rfl | hc
          · exact Or.inl hself
          · exact Or.inr (List.mem_append_right _ hc)
        refine ih _ live' _ ?_ ⟨fun c hc => ?_, fun c hc p hp => ?_, fun p hp => ?_⟩ ?_
        · intro c hc
          rcases List.mem_append.mp hc with hc | hc
          · exact hpreds b c (List.mem_filter.mp (List.mem_reverse.mp hc)).1
          · exact hrest c hc
        · rcases h.seeds c hc with hl | hm
          · exact Or.inl (hmono hl)
          · exact hmem hm
        · rw [foldl_mark]
          by_cases hcb : c = b
          · exact Or.inr (hcb ▸ hp)
          · rw [hlive', Function.update_of_ne hcb] at hc
            exact Or.inl (h.marks c hc p hp)
        · rcases (foldl_mark p).mp hp with hp | hp
          · rcases h.carries p hp with hd | hl | hm
            · exact Or.inl hd
            · exact Or.inr (Or.inl (hmono hl))
            · exact Or.inr (hmem hm)
          · by_cases hd : defines p = true
            · exact Or.inl hd
            · by_cases hl : live' p = true
              · exact Or.inr (Or.inl hl)
              · refine Or.inr (Or.inr (List.mem_append_left _ (List.mem_reverse.mpr ?_)))
                exact List.mem_filter.mpr ⟨hp, by simp [hd, hl]⟩
        · have hbn : b ∈ List.range n := List.mem_range.mpr (hwork b List.mem_cons_self)
          have hstep := DepthFirst.work_update preds hbn (Bool.eq_false_iff.mpr hb)
          have hlen := List.length_filter_le (fun p => !defines p && !live' p) (preds b)
          rw [List.length_append, List.length_reverse]
          rw [← hlive'] at hstep
          omega

lemma Func.pos_spec {f : Func} {t : BlockId} {j : ℕ} (h : f.pos t = some j) :
    ∃ b, f.blocks[j]? = some b ∧ b.id = t := by
  obtain ⟨⟨b, i⟩, hlast, rfl⟩ := Option.map_eq_some_iff.mp h
  obtain ⟨hmem, hid⟩ := List.mem_filter.mp (List.mem_of_getLast? hlast)
  exact ⟨b, List.mk_mem_zipIdx_iff_getElem?.mp hmem, by simpa using hid⟩

lemma mem_edges {f : Func} {i j : ℕ} :
    (j, i) ∈ edges f ↔ ∃ b t, f.blocks[i]? = some b ∧ t ∈ successors b.term ∧ f.pos t = some j := by
  rw [edges, List.mem_flatMap]
  constructor
  · rintro ⟨⟨b, k⟩, hb, hmem⟩
    obtain ⟨t, ht, hpos⟩ := List.mem_filterMap.mp hmem
    obtain ⟨succ, hsucc, heq⟩ := Option.map_eq_some_iff.mp hpos
    obtain ⟨rfl, rfl⟩ := Prod.mk.inj heq
    exact ⟨b, t, List.mk_mem_zipIdx_iff_getElem?.mp hb, ht, hsucc⟩
  · rintro ⟨b, t, hb, ht, hpos⟩
    exact ⟨(b, i), List.mk_mem_zipIdx_iff_getElem?.mpr hb,
      List.mem_filterMap.mpr ⟨t, ht, by rw [hpos, Option.map_some]⟩⟩

lemma Scan.uses_lt {f : Func} {v : ValueId} {b : ℕ} (hb : (v, b) ∈ (scan f).uses) :
    b < f.blocks.length := by
  have hread : ∀ (b : ℕ) (reads : List ValueId) (s : Scan),
      ∀ p ∈ (reads.foldl (fun s v => s.read b v) s).uses, p ∈ s.uses ∨ p.2 = b := by
    intro b reads
    induction reads with
    | nil => exact fun s p hp => Or.inl hp
    | cons v reads ih =>
      intro s p hp
      rcases ih _ p hp with hp | hp
      · change p ∈ (s.read b v).uses at hp
        rw [Scan.read] at hp
        split_ifs at hp
        · rcases List.mem_append.mp hp with hp | hp
          · exact Or.inl hp
          · exact Or.inr (by rw [List.mem_singleton.mp hp])
        · exact Or.inl hp
      · exact Or.inr hp
  have hinst : ∀ (b : ℕ) (insts : List Inst) (s : Scan),
      ∀ p ∈ (insts.foldl (Scan.inst b) s).uses, p ∈ s.uses ∨ p.2 = b := by
    intro b insts
    induction insts with
    | nil => exact fun s p hp => Or.inl hp
    | cons inst insts ih =>
      intro s p hp
      rcases ih _ p hp with hp | hp
      · refine hread b (visitValueOperands inst.kind) s p ?_
        rw [Scan.inst] at hp
        cases hres : inst.result with
        | none => rwa [hres] at hp
        | some r =>
          rw [hres] at hp
          dsimp only at hp
          rw [Scan.write] at hp
          split_ifs at hp <;> exact hp
      · exact Or.inr hp
  have key : ∀ (l : List (Block × ℕ)) (s : Scan), ∀ p ∈ (l.foldl Scan.block s).uses,
      p ∈ s.uses ∨ ∃ bi ∈ l, p.2 = bi.2 := by
    intro l
    induction l with
    | nil => exact fun s p hp => Or.inl hp
    | cons bi l ih =>
      intro s p hp
      rcases ih _ p hp with hp | ⟨bj, hbj, hp⟩
      · rcases hread bi.2 _ _ p hp with hp | hp
        · exact (hinst bi.2 _ _ p hp).imp id fun hp => ⟨bi, List.mem_cons_self, hp⟩
        · exact Or.inr ⟨bi, List.mem_cons_self, hp⟩
      · exact Or.inr ⟨bj, List.mem_cons_of_mem _ hbj, hp⟩
  rcases key _ _ _ hb with hb | ⟨⟨blk, i⟩, hi, hb⟩
  · cases hb
  · have := (List.getElem?_eq_some_iff.mp (List.mk_mem_zipIdx_iff_getElem?.mp hi)).1
    have hb : b = i := hb
    rwa [hb]

lemma walkOf_spec (f : Func) (v : ValueId) :
    ∃ live out, walkOf f v = some (live, out) ∧
      Closed (itemsOf (edges f)) (fun b => b ∈ itemsOf (scan f).defs v)
        (itemsOf (scan f).uses v) live out := by
  have hpreds : ∀ b, ∀ p ∈ itemsOf (edges f) b, p < f.blocks.length := by
    intro b p hp
    obtain ⟨blk, t, hblk, _, _⟩ := mem_edges.mp (mem_itemsOf.mp hp)
    exact (List.getElem?_eq_some_iff.mp hblk).1
  refine walkUp_spec hpreds _ _ _ _ ?_ ⟨fun b hb => ?_, nofun, nofun⟩ ?_
  · intro b hb
    exact Scan.uses_lt (mem_itemsOf.mp (List.mem_reverse.mp hb))
  · exact Or.inr (List.mem_reverse.mpr hb)
  · rw [List.length_reverse]

/-! ### The live sets -/

/-- What the analyses rely on: the live sets are closed. -/
structure LiveSets (f : Func) (bl : BlockLiveness) : Prop where
  start : bl.start = f.start
  stop : bl.stop = f.stop
  exposed : ∀ i b v, f.blocks[i]? = some b → Exposed b.slots v → v ∈ bl.liveIn i
  edge : ∀ i j b t v, f.blocks[i]? = some b → t ∈ successors b.term → f.pos t = some j →
    v ∈ bl.liveIn j → v ∈ bl.liveOut i
  through : ∀ i b v, f.blocks[i]? = some b → v ∈ bl.liveOut i → ¬ Defines b.slots v →
    v ∈ bl.liveIn i

lemma mapM_some {β : Type} {g : ℕ → Option β} : ∀ (l : List ℕ), (∀ x ∈ l, ∃ w, g x = some w) →
    ∃ ws, l.mapM g = some ws ∧
      ∀ (i x : ℕ), l[i]? = some x → ∃ w, ws[i]? = some w ∧ g x = some w := by
  intro l
  induction l with
  | nil => exact fun _ => ⟨[], rfl, by simp⟩
  | cons x l ih =>
    intro h
    obtain ⟨w, hw⟩ := h x List.mem_cons_self
    obtain ⟨ws, hws, hspec⟩ := ih fun y hy => h y (List.mem_cons_of_mem _ hy)
    refine ⟨w :: ws, by simp [List.mapM_cons, hw, hws], fun i y hy => ?_⟩
    cases i with
    | zero =>
      obtain rfl : x = y := by simpa using hy
      exact ⟨w, rfl, hw⟩
    | succ i => exact hspec i y (by simpa using hy)

lemma Exposed.exists_read {l : List Slot} {v : ValueId} (h : Exposed l v) :
    ∃ s ∈ l, v ∈ s.reads := by
  induction l with
  | nil => exact absurd h id
  | cons s l ih =>
    rcases h with h | ⟨_, h⟩
    · exact ⟨s, List.mem_cons_self, h⟩
    · obtain ⟨t, ht, hv⟩ := ih h
      exact ⟨t, List.mem_cons_of_mem _ ht, hv⟩

lemma Func.lt_values {f : Func} (h : f.visitable = true) {b : Block} (hb : b ∈ f.blocks) {s : Slot}
    (hs : s ∈ b.slots) {v : ValueId} (hv : v ∈ s.reads ∨ s.result = some v) :
    v < f.values.length := by
  rw [Func.visitable, Bool.and_eq_true] at h
  have hmem : v ∈ f.params ++ f.slots.flatMap fun s => s.reads ++ s.result.toList := by
    refine List.mem_append_right _ (List.mem_flatMap.mpr ⟨s, ?_, ?_⟩)
    · exact List.mem_flatMap.mpr ⟨b, hb, hs⟩
    · rw [List.mem_append, Option.mem_toList]
      exact hv
  simpa using List.all_eq_true.mp h.2 v hmem

/-- **`compute_block_liveness` returns closed live sets.** -/
theorem computeBlockLiveness_spec {f : Func} (h : f.visitable = true) :
    ∃ bl, computeBlockLiveness f = some bl ∧ LiveSets f bl := by
  obtain ⟨walks, hwalks, hspec⟩ := mapM_some (g := walkOf f) (List.range f.values.length)
    fun v _ => by
      obtain ⟨live, out, hw, _⟩ := walkOf_spec f v
      exact ⟨_, hw⟩
  have hlen : walks.length ≤ f.values.length := by
    have hlength : ∀ (l : List ℕ) (ws), l.mapM (walkOf f) = some ws → ws.length = l.length := by
      intro l
      induction l with
      | nil =>
        intro ws hws
        obtain rfl : [] = ws := by simpa using hws
        rfl
      | cons x l ih =>
        intro ws hws
        rw [List.mapM_cons] at hws
        cases hx : walkOf f x with
        | none => simp [hx] at hws
        | some w =>
          cases hl : l.mapM (walkOf f) with
          | none => simp [hx, hl] at hws
          | some ws' =>
            obtain rfl : w :: ws' = ws := by simpa [hx, hl] using hws
            rw [List.length_cons, List.length_cons, ih ws' hl]
    rw [hlength _ _ hwalks, List.length_range]
  have hmem : ∀ (sel : (ℕ → Bool) × (ℕ → Bool) → ℕ → Bool) {b v : ℕ},
      v ∈ (walks.zipIdx.filter fun w => sel w.1 b).map Prod.snd ↔
        v < f.values.length ∧ ∃ w, walkOf f v = some w ∧ sel w b = true := by
    intro sel b v
    rw [List.mem_map]
    constructor
    · rintro ⟨⟨w, u⟩, hw, rfl⟩
      obtain ⟨hw, hsel⟩ := List.mem_filter.mp hw
      have hget := List.mk_mem_zipIdx_iff_getElem?.mp hw
      have hlt := (List.getElem?_eq_some_iff.mp hget).1
      have hu : u < f.values.length := Nat.lt_of_lt_of_le hlt hlen
      obtain ⟨w', hw', hwalk⟩ := hspec u u (by simp [hu])
      obtain rfl : w = w' := Option.some.inj (hget.symm.trans hw')
      exact ⟨hu, w, hwalk, hsel⟩
    · rintro ⟨hv, w, hw, hsel⟩
      obtain ⟨w', hw', hwalk⟩ := hspec v v (by simp [hv])
      obtain rfl : w = w' := Option.some.inj (hw.symm.trans hwalk)
      exact ⟨(w, v), List.mem_filter.mpr ⟨List.mk_mem_zipIdx_iff_getElem?.mpr hw', hsel⟩, rfl⟩
  have hscan := scan_spec h
  refine ⟨_, by rw [computeBlockLiveness, hwalks]; rfl, rfl, rfl, fun i b v hb hv => ?_,
    fun i j b t v hb ht hpos hv => ?_, fun i b v hb hv hdef => ?_⟩
  · obtain ⟨s, hs, hread⟩ := hv.exists_read
    obtain ⟨live, out, hw, hclosed⟩ := walkOf_spec f v
    refine (hmem Prod.fst).mpr
      ⟨Func.lt_values h (List.mem_of_getElem? hb) hs (Or.inl hread), _, hw, ?_⟩
    have hi := (List.getElem?_eq_some_iff.mp hb).1
    exact hclosed.seeds i (mem_itemsOf.mpr (hscan.uses v i b hi hb hv))
  · obtain ⟨hlt, ⟨live, out⟩, hw, hlive⟩ := (hmem Prod.fst).mp hv
    obtain ⟨live', out', hw', hclosed⟩ := walkOf_spec f v
    obtain ⟨rfl, rfl⟩ := Prod.mk.inj (Option.some.inj (hw.symm.trans hw'))
    refine (hmem Prod.snd).mpr ⟨hlt, _, hw, ?_⟩
    exact hclosed.marks j hlive i (mem_itemsOf.mpr (mem_edges.mpr ⟨b, t, hb, ht, hpos⟩))
  · obtain ⟨hlt, ⟨live, out⟩, hw, hout⟩ := (hmem Prod.snd).mp hv
    obtain ⟨live', out', hw', hclosed⟩ := walkOf_spec f v
    obtain ⟨rfl, rfl⟩ := Prod.mk.inj (Option.some.inj (hw.symm.trans hw'))
    refine (hmem Prod.fst).mpr ⟨hlt, _, hw, ?_⟩
    rcases hclosed.carries i hout with hd | hl
    · have hd : i ∈ itemsOf (scan f).defs v := by simpa using hd
      obtain ⟨c, hc, hd⟩ := hscan.defs v i (mem_itemsOf.mp hd)
      obtain rfl := Option.some.inj (hb.symm.trans hc)
      exact absurd hd hdef
    · exact hl

end Torajs.Regalloc
