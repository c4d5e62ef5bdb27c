import ToraJs.Regex.Dfa.PoolSpec

/-!
# What the closure and the byte step reach

The closure of a set of seeds is what can be reached from them, and the byte step is a union
over the program counters.  Neither depends on the order in which the seeds are listed, and a
sorted set is known by its members.
-/

namespace Torajs.Regex.Dfa

variable {prog : Program}

/-! ### Closures -/

/-- What can be reached from the seeds inside the program. -/
inductive Reach (prog : Program) (ctx : PositionCtx) (wb : Option Bool) (seeds : List ℕ) : ℕ → Prop
  | seed {pc : ℕ} (h : pc ∈ seeds) (hlt : pc < prog.len) : Reach prog ctx wb seeds pc
  | step {pc target : ℕ} (h : Reach prog ctx wb seeds pc)
      (ht : target ∈ epsTargets prog ctx wb pc) (hlt : target < prog.len) :
      Reach prog ctx wb seeds target

/-- What is reached is in the program. -/
lemma Reach.lt {ctx : PositionCtx} {wb : Option Bool} {seeds : List ℕ} {pc : ℕ}
    (h : Reach prog ctx wb seeds pc) : pc < prog.len := by
  cases h with
  | seed _ hlt => exact hlt
  | step _ _ hlt => exact hlt

variable (prog) in
/-- What pushing a list of program counters does: those in the program are in the set
afterwards, what is new is on the stack, and both lists grow by as much. -/
lemma foldl_pushPc_spec (pcs closed work : List ℕ) :
    ∃ new, (pcs.foldl (pushPc prog) (closed, work)).1 = closed ++ new ∧
      (pcs.foldl (pushPc prog) (closed, work)).2 = new.reverse ++ work ∧
      (∀ pc ∈ new, pc ∈ pcs ∧ pc < prog.len) ∧
      ∀ pc ∈ pcs, pc < prog.len → pc ∈ closed ++ new := by
  induction pcs generalizing closed work with
  | nil => exact ⟨[], by simp, by simp, by simp, by simp⟩
  | cons pc pcs ih =>
    rw [List.foldl_cons]
    by_cases hpc : pc < prog.len ∧ pc ∉ closed
    · rw [pushPc, if_pos hpc]
      obtain ⟨new, hclosed, hwork, hnew, hall⟩ := ih (closed ++ [pc]) (pc :: work)
      refine ⟨pc :: new, ?_, ?_, fun x hx => ?_, fun x hx hlt => ?_⟩
      · rw [hclosed, List.append_assoc, List.singleton_append]
      · rw [hwork, List.reverse_cons, List.append_assoc, List.singleton_append]
      · rcases List.mem_cons.mp hx with rfl | hx
        · exact ⟨List.mem_cons_self, hpc.1⟩
        · exact ⟨List.mem_cons_of_mem pc (hnew x hx).1, (hnew x hx).2⟩
      · rcases List.mem_cons.mp hx with rfl | hx
        · simp
        · have hmem := hall x hx hlt
          rwa [List.append_assoc, List.singleton_append] at hmem
    · rw [pushPc, if_neg hpc]
      obtain ⟨new, hclosed, hwork, hnew, hall⟩ := ih closed work
      refine ⟨new, hclosed, hwork, fun x hx => ?_, fun x hx hlt => ?_⟩
      · exact ⟨List.mem_cons_of_mem pc (hnew x hx).1, (hnew x hx).2⟩
      · rcases List.mem_cons.mp hx with rfl | hx
        · have hin : x ∈ closed := by
            by_contra hout
            exact hpc ⟨hlt, hout⟩
          exact List.mem_append_left _ hin
        · exact hall x hx hlt

/-- The turns that are left are enough: what is not in the set yet, and what is on the stack. -/
structure LoopReady (prog : Program) (ctx : PositionCtx) (wb : Option Bool) (n : ℕ)
    (closed work : List ℕ) : Prop where
  closedSet : ClosedSet prog closed
  turns : prog.len - closed.length + work.length ≤ n
  done : ∀ pc ∈ closed, pc ∉ work →
    ∀ target ∈ epsTargets prog ctx wb pc, target < prog.len → target ∈ closed

/-- The loop ends with a set that has all targets of its members, and holds what it began with. -/
lemma closureLoop_done {ctx : PositionCtx} {wb : Option Bool} {n : ℕ} {closed work : List ℕ}
    (h : LoopReady prog ctx wb n closed work) :
    closed ⊆ closureLoop prog ctx wb n (closed, work) ∧
      ∀ pc ∈ closureLoop prog ctx wb n (closed, work),
        ∀ target ∈ epsTargets prog ctx wb pc, target < prog.len →
          target ∈ closureLoop prog ctx wb n (closed, work) := by
  induction n generalizing closed work with
  | zero =>
    have hwork : work = [] := List.length_eq_zero_iff.mp (by have := h.turns; omega)
    subst hwork
    exact ⟨fun _ hx => hx, fun pc hpc => h.done pc hpc List.not_mem_nil⟩
  | succ n ih =>
    cases work with
    | nil => exact ⟨fun _ hx => hx, fun pc hpc => h.done pc hpc List.not_mem_nil⟩
    | cons pc work =>
      rw [closureLoop]
      obtain ⟨new, hclosed, hwork, hnew, hall⟩ :=
        foldl_pushPc_spec prog (epsTargets prog ctx wb pc) closed work
      have hset : ClosedSet prog ((epsTargets prog ctx wb pc).foldl (pushPc prog) (closed, work)).1 :=
        foldl_pushPc_closed _ h.closedSet
      rcases hfold : (epsTargets prog ctx wb pc).foldl (pushPc prog) (closed, work) with
        ⟨closed', work'⟩
      rw [hfold] at hclosed hwork hset
      dsimp only at hclosed hwork hset
      have hlen : closed'.length ≤ prog.len := by
        have hsub : closed'.toFinset ⊆ Finset.range prog.len := by
          intro x hx
          exact Finset.mem_range.mpr (hset.2 x (List.mem_toFinset.mp hx))
        have hcard := Finset.card_le_card hsub
        rwa [List.toFinset_card_of_nodup hset.1, Finset.card_range] at hcard
      have hready : LoopReady prog ctx wb n closed' work' := by
        refine ⟨hset, ?_, fun x hx hout target ht hlt => ?_⟩
        · have hturns := h.turns
          rw [hclosed, List.length_append] at hlen
          rw [hclosed, hwork, List.length_append, List.length_append, List.length_reverse]
          rw [List.length_cons] at hturns
          omega
        · rw [hwork, List.mem_append, not_or, List.mem_reverse] at hout
          rw [hclosed]
          rcases eq_or_ne x pc with rfl | hne
          · exact hall target ht hlt
          · rw [hclosed, List.mem_append] at hx
            have hxc := hx.resolve_right hout.1
            refine List.mem_append_left _ (h.done x hxc ?_ target ht hlt)
            rw [List.mem_cons, not_or]
            exact ⟨hne, hout.2⟩
      obtain ⟨hsub, hdone⟩ := ih hready
      exact ⟨fun x hx => hsub (hclosed ▸ List.mem_append_left _ hx), hdone⟩

/-- The loop adds what can be reached only. -/
lemma closureLoop_reach {ctx : PositionCtx} {wb : Option Bool} {seeds : List ℕ} {n : ℕ}
    {closed work : List ℕ} (hclosed : ∀ pc ∈ closed, Reach prog ctx wb seeds pc)
    (hwork : ∀ pc ∈ work, Reach prog ctx wb seeds pc) :
    ∀ pc ∈ closureLoop prog ctx wb n (closed, work), Reach prog ctx wb seeds pc := by
  induction n generalizing closed work with
  | zero => exact hclosed
  | succ n ih =>
    cases work with
    | nil => exact hclosed
    | cons pc work =>
      rw [closureLoop]
      obtain ⟨new, hc, hw, hnew, -⟩ :=
        foldl_pushPc_spec prog (epsTargets prog ctx wb pc) closed work
      have hpc := hwork pc List.mem_cons_self
      have hreach : ∀ x ∈ new, Reach prog ctx wb seeds x :=
        fun x hx => hpc.step (hnew x hx).1 (hnew x hx).2
      rcases hfold : (epsTargets prog ctx wb pc).foldl (pushPc prog) (closed, work) with
        ⟨closed', work'⟩
      rw [hfold] at hc hw
      dsimp only at hc hw
      refine ih (fun x hx => ?_) fun x hx => ?_
      · rw [hc, List.mem_append] at hx
        exact hx.elim (hclosed x) (hreach x)
      · rw [hw, List.mem_append, List.mem_reverse] at hx
        exact hx.elim (hreach x) fun hx => hwork x (List.mem_cons_of_mem pc hx)

/-- The closure is what can be reached. -/
theorem mem_closureInto {ctx : PositionCtx} {wb : Option Bool} {seeds : List ℕ} {pc : ℕ} :
    pc ∈ closureInto prog seeds ctx wb ↔ Reach prog ctx wb seeds pc := by
  unfold closureInto
  obtain ⟨new, hclosed, hwork, hnew, hall⟩ := foldl_pushPc_spec prog seeds [] []
  have hset : ClosedSet prog (seeds.foldl (pushPc prog) ([], [])).1 :=
    foldl_pushPc_closed seeds ⟨List.nodup_nil, by simp⟩
  rcases hfold : seeds.foldl (pushPc prog) ([], []) with ⟨closed, work⟩
  rw [hfold] at hclosed hwork hset
  dsimp only at hclosed hwork hset
  rw [List.nil_append] at hclosed
  rw [List.append_nil] at hwork
  subst hclosed hwork
  constructor
  · refine closureLoop_reach (fun x hx => ?_) (fun x hx => ?_) pc
    · exact .seed (hnew x hx).1 (hnew x hx).2
    · rw [List.mem_reverse] at hx
      exact .seed (hnew x hx).1 (hnew x hx).2
  · have hready : LoopReady prog ctx wb prog.len closed closed.reverse := by
      refine ⟨hset, ?_, fun x hx hout => absurd (List.mem_reverse.mpr hx) hout⟩
      have hsub : closed.toFinset ⊆ Finset.range prog.len := by
        intro x hx
        exact Finset.mem_range.mpr (hset.2 x (List.mem_toFinset.mp hx))
      have hcard := Finset.card_le_card hsub
      rw [List.toFinset_card_of_nodup hset.1, Finset.card_range] at hcard
      rw [List.length_reverse]
      omega
    obtain ⟨hsub, hdone⟩ := closureLoop_done hready
    intro h
    induction h with
    | seed hmem hlt =>
      have hin := hall _ hmem hlt
      rw [List.nil_append] at hin
      exact hsub hin
    | step _ ht hlt ih => exact hdone _ ih _ ht hlt

/-- A closure depends on the members of its seeds. -/
lemma Reach.congr {ctx : PositionCtx} {wb : Option Bool} {seeds seeds' : List ℕ}
    (h : ∀ pc, pc ∈ seeds ↔ pc ∈ seeds') (pc : ℕ) :
    Reach prog ctx wb seeds pc ↔ Reach prog ctx wb seeds' pc := by
  constructor
  · intro hr
    induction hr with
    | seed hmem hlt => exact .seed ((h _).mp hmem) hlt
    | step _ ht hlt ih => exact .step ih ht hlt
  · intro hr
    induction hr with
    | seed hmem hlt => exact .seed ((h _).mpr hmem) hlt
    | step _ ht hlt ih => exact .step ih ht hlt

/-- A sorted list without repetition is known by its members. -/
lemma eq_of_mem_iff {xs ys : List ℕ} (hx : xs.Pairwise (· ≤ ·)) (hy : ys.Pairwise (· ≤ ·))
    (hxn : xs.Nodup) (hyn : ys.Nodup) (h : ∀ a, a ∈ xs ↔ a ∈ ys) : xs = ys :=
  ((List.perm_ext_iff_of_nodup hxn hyn).mpr h).eq_of_pairwise' hx hy

/-- A closure has no repetition. -/
lemma closureInto_nodup (seeds : List ℕ) (ctx : PositionCtx) (wb : Option Bool) :
    (closureInto prog seeds ctx wb).Nodup :=
  (closureLoop_closed ctx wb _ (foldl_pushPc_closed seeds ⟨List.nodup_nil, by simp⟩)).1

/-- The members of a sorted closure. -/
lemma mem_closureSorted {seeds : List ℕ} {ctx : PositionCtx} {pc : ℕ} :
    pc ∈ closureSorted prog seeds ctx ↔ Reach prog ctx none seeds pc := by
  rw [closureSorted, List.mem_insertionSort, mem_closureInto]

/-- A sorted closure depends on the members of its seeds. -/
lemma closureSorted_congr {seeds seeds' : List ℕ} (h : ∀ pc, pc ∈ seeds ↔ pc ∈ seeds')
    (ctx : PositionCtx) : closureSorted prog seeds ctx = closureSorted prog seeds' ctx := by
  have hnodup : ∀ s : List ℕ, (closureSorted prog s ctx).Nodup := fun s =>
    (List.perm_insertionSort _ _).nodup_iff.mpr (closureInto_nodup s ctx none)
  refine eq_of_mem_iff (List.pairwise_insertionSort _ _) (List.pairwise_insertionSort _ _)
    (hnodup seeds) (hnodup seeds') fun pc => ?_
  rw [mem_closureSorted, mem_closureSorted, Reach.congr h]

/-- A verdict on a set depends on its members. -/
lemma pcSetIsAccept_congr {xs ys : List ℕ} (h : ∀ pc, pc ∈ xs ↔ pc ∈ ys) :
    pcSetIsAccept prog xs = pcSetIsAccept prog ys := by
  rw [Bool.eq_iff_iff, pcSetIsAccept, pcSetIsAccept, List.any_eq_true, List.any_eq_true]
  simp only [h]

/-! ### The byte step -/

/-- What one program counter adds in the byte step. -/
def byteStepOf (prog : Program) (byte : UInt8) (pc : ℕ) : List ℕ × Deferred :=
  byteStepOne prog byte ([], {}) pc

/-- A program counter adds to what is there. -/
lemma byteStepOne_eq (byte : UInt8) (acc : List ℕ × Deferred) (pc : ℕ) :
    byteStepOne prog byte acc pc = (acc.1 ++ (byteStepOf prog byte pc).1,
      ⟨acc.2.one ++ (byteStepOf prog byte pc).2.one, acc.2.two ++ (byteStepOf prog byte pc).2.two,
        acc.2.three ++ (byteStepOf prog byte pc).2.three⟩) := by
  obtain ⟨ready, one, two, three⟩ := acc
  unfold byteStepOf byteStepOne
  cases hins : prog.insts[pc]? with
  | none => simp
  | some ins =>
    cases ins <;> dsimp only <;> try simp
    case char => split_ifs <;> simp
    case anyChar => split_ifs <;> simp
    case cls idx pad =>
      cases prog.classes[idx]? with
      | none => simp
      | some cls => dsimp only; split_ifs <;> simp

/-- The byte step joins what its program counters add. -/
lemma byteStepInto_eq (states : List ℕ) (byte : UInt8) :
    byteStepInto prog states byte =
      (states.flatMap fun pc => (byteStepOf prog byte pc).1,
        ⟨states.flatMap fun pc => (byteStepOf prog byte pc).2.one,
          states.flatMap fun pc => (byteStepOf prog byte pc).2.two,
          states.flatMap fun pc => (byteStepOf prog byte pc).2.three⟩) := by
  have hfold : ∀ (acc : List ℕ × Deferred), states.foldl (byteStepOne prog byte) acc =
      (acc.1 ++ states.flatMap fun pc => (byteStepOf prog byte pc).1,
        ⟨acc.2.one ++ states.flatMap fun pc => (byteStepOf prog byte pc).2.one,
          acc.2.two ++ states.flatMap fun pc => (byteStepOf prog byte pc).2.two,
          acc.2.three ++ states.flatMap fun pc => (byteStepOf prog byte pc).2.three⟩) := by
    induction states with
    | nil => simp
    | cons pc states ih =>
      intro acc
      rw [List.foldl_cons, byteStepOne_eq, ih]
      simp only [List.flatMap_cons, List.append_assoc]
  have h := hfold ([], {})
  simpa only [byteStepInto, List.nil_append] using h

/-- Parked lists with the same members. -/
def Deferred.Same (d d' : Deferred) : Prop :=
  (∀ pc, pc ∈ d.one ↔ pc ∈ d'.one) ∧ (∀ pc, pc ∈ d.two ↔ pc ∈ d'.two) ∧
    ∀ pc, pc ∈ d.three ↔ pc ∈ d'.three

/-- The byte step depends on the members of its set. -/
lemma byteStepInto_congr {xs ys : List ℕ} (h : ∀ pc, pc ∈ xs ↔ pc ∈ ys) (byte : UInt8) :
    (∀ pc, pc ∈ (byteStepInto prog xs byte).1 ↔ pc ∈ (byteStepInto prog ys byte).1) ∧
      (byteStepInto prog xs byte).2.Same (byteStepInto prog ys byte).2 := by
  rw [byteStepInto_eq, byteStepInto_eq]
  refine ⟨fun pc => ?_, fun pc => ?_, fun pc => ?_, fun pc => ?_⟩ <;>
  · dsimp only
    rw [List.mem_flatMap, List.mem_flatMap]
    simp only [h]

/-- The members of a sorted list without repetition. -/
@[simp] lemma mem_sortDedup {xs : List ℕ} {pc : ℕ} : pc ∈ sortDedup xs ↔ pc ∈ xs := by
  rw [sortDedup, List.mem_dedup, List.mem_insertionSort]

/-- A list is sorted and without repetition. -/
def Canonical (xs : List ℕ) : Prop := xs.Pairwise (· ≤ ·) ∧ xs.Nodup

/-- Sorting makes a list canonical. -/
lemma canonical_sortDedup (xs : List ℕ) : Canonical (sortDedup xs) :=
  ⟨(List.pairwise_insertionSort (· ≤ ·) xs).sublist (List.dedup_sublist _), List.nodup_dedup _⟩

/-- A canonical list is known by its members. -/
lemma Canonical.eq {xs ys : List ℕ} (hx : Canonical xs) (hy : Canonical ys)
    (h : ∀ a, a ∈ xs ↔ a ∈ ys) : xs = ys :=
  eq_of_mem_iff hx.1 hy.1 hx.2 hy.2 h

/-- Sorting depends on the members. -/
lemma sortDedup_congr {xs ys : List ℕ} (h : ∀ a, a ∈ xs ↔ a ∈ ys) : sortDedup xs = sortDedup ys := by
  refine (canonical_sortDedup xs).eq (canonical_sortDedup ys) fun a => ?_
  rw [mem_sortDedup, mem_sortDedup, h]

/-- Joining depends on the members of what is fresh. -/
lemma joinDeferred_congr (carried : List ℕ) {fresh fresh' : List ℕ}
    (h : ∀ a, a ∈ fresh ↔ a ∈ fresh') : joinDeferred carried fresh = joinDeferred carried fresh' := by
  have hempty : fresh.isEmpty = fresh'.isEmpty := by
    rw [Bool.eq_iff_iff, List.isEmpty_iff, List.isEmpty_iff, List.eq_nil_iff_forall_not_mem,
      List.eq_nil_iff_forall_not_mem]
    simp only [h]
  unfold joinDeferred
  rw [hempty]
  split_ifs
  · rfl
  · exact sortDedup_congr fun a => by rw [List.mem_append, List.mem_append, h]

/-- Joining keeps lists canonical. -/
lemma canonical_joinDeferred {carried : List ℕ} (h : Canonical carried) (fresh : List ℕ) :
    Canonical (joinDeferred carried fresh) := by
  unfold joinDeferred
  split_ifs
  · exact h
  · exact canonical_sortDedup _

end Torajs.Regex.Dfa
