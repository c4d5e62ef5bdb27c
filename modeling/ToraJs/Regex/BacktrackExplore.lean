import Mathlib.Data.Finset.Filter
import ToraJs.Regex.Backtrack
import ToraJs.Regex.PikeExplore

/-!
# The backtracker explores depth first

The state of the backtracker stands for a list of pending configurations: the stack read
from the top, with the row and the iteration starts as they will be when each job is
reached.  A turn explores the first pending configuration, so a run comes to what
exploring the pending configurations one after another comes to, and the row of a run
that finds nothing is the row it began with.

The iteration starts are compared for the loops that the path has begun.  A path that
reaches an `IterCheck` without its `IterStart` reads what an earlier call left there, so
either the program has no such path or the start it reads lies outside the window.
-/

namespace Torajs.Regex

/-! ### Control flow -/

/-- Where control can go from an instruction. -/
def Inst.targets (pc : ℕ) : Inst → List ℕ
  | .jmp target => [target]
  | .split a b => [a, b]
  | .accept => []
  | .char _ _ | .anyChar _ | .cls _ _ | .anchorB _ | .anchorE _ | .wBound | .nwBound | .save _
  | .look _ _ | .backref _ _ | .saveReset _ _ | .iterStart | .iterCheck _ => [pc + 1]

/-- Control can reach `pc` from the start of the program on a path through the
`IterStart`s of `begun`. -/
inductive Reaches (prog : Program) : Finset ℕ → ℕ → Prop where
  | start : Reaches prog ∅ 0
  | next {begun : Finset ℕ} {pc pc' : ℕ} {ins : Inst} (h : Reaches prog begun pc)
      (hins : prog.insts[pc]? = some ins) (hmem : pc' ∈ ins.targets pc) :
      Reaches prog (if ins = .iterStart then insert pc begun else begun) pc'

/-- Every path to an `IterCheck` passes the `IterStart` that it names. -/
def IterGuarded (prog : Program) : Prop :=
  ∀ begun pc start, Reaches prog begun pc → prog.insts[pc]? = some (.iterCheck start) →
    start ∈ begun

/-- A path that reaches an `IterCheck` without its `IterStart` finds no start position
inside the window. -/
def NoStaleStart (prog : Program) (iterPos : ℕ → Option ℕ) (st stop : ℕ) : Prop :=
  ∀ begun pc start, Reaches prog begun pc → prog.insts[pc]? = some (.iterCheck start) →
    start ∉ begun → ∀ pos, st ≤ pos → pos ≤ stop → iterPos start ≠ some pos

/-- Where every `IterCheck` is guarded, what earlier calls left behind does not matter. -/
lemma IterGuarded.noStaleStart {prog : Program} (h : IterGuarded prog)
    (iterPos : ℕ → Option ℕ) (st stop : ℕ) : NoStaleStart prog iterPos st stop :=
  fun begun pc start hr hins hnot => absurd (h begun pc start hr hins) hnot

section Eligible

variable {prog : Program} {pc : ℕ} {ins : Inst}

/-- What the gate checks of one instruction. -/
lemma canBacktrack_inst (h : canBacktrack prog = true) (hins : prog.insts[pc]? = some ins) :
    (∀ t ∈ ins.targets pc, t < prog.len) ∧ ins.Plain := by
  have hpc : pc < prog.len := (List.getElem?_eq_some_iff.mp hins).1
  have hall := List.all_eq_true.mp h pc (List.mem_range.mpr hpc)
  simp only [hins] at hall
  cases ins <;> simp_all [Inst.targets, Inst.Plain]

/-- An eligible program has no lookarounds and no back references. -/
lemma plain_of_canBacktrack (h : canBacktrack prog = true) : Plain prog := by
  intro ins hins
  obtain ⟨pc, hpc⟩ := List.mem_iff_getElem?.mp hins
  exact (canBacktrack_inst h hpc).2

/-- Control stays in an eligible program. -/
lemma targets_lt (h : canBacktrack prog = true) (hins : prog.insts[pc]? = some ins) {t : ℕ}
    (ht : t ∈ ins.targets pc) : t < prog.len :=
  (canBacktrack_inst h hins).1 t ht

end Eligible

/-! ### What the state stands for -/

/-- The configuration of a path, against the row and the iteration starts of the
backtracker at position `pos`.  A loop that the path has not begun has the start `ip₀` of
an earlier call. -/
structure Stands (prog : Program) (ip₀ : ℕ → Option ℕ) (pos : ℕ) (c : Config) (row : Row)
    (ip : ℕ → Option ℕ) : Prop where
  row_eq : c.row = row
  lt : c.pc < prog.len
  begun : ∃ begun, Reaches prog begun c.pc ∧
    (∀ k ∈ begun, (k ∈ c.iters ↔ ip k = some pos) ∧ ∃ q ≤ pos, ip k = some q) ∧
    ∀ k ∉ begun, k ∉ c.iters ∧ ip k = ip₀ k

/-- The pending configurations of a stack of jobs, with their offsets into the window,
and the row that is left when all jobs are done. -/
inductive Pends (w : Walker) (ip₀ : ℕ → Option ℕ) :
    List Job → Row → (ℕ → Option ℕ) → List (ℕ × Config) → Row → Prop
  where
  | nil (row : Row) (ip : ℕ → Option ℕ) : Pends w ip₀ [] row ip [] row
  | restore {jobs row ip ps entry slot old} (h : Pends w ip₀ jobs (row.set slot old) ip ps entry) :
      Pends w ip₀ (.restore slot old :: jobs) row ip ps entry
  | restoreIter {jobs row ip ps entry pc old}
      (h : Pends w ip₀ jobs row (Function.update ip pc old) ps entry) :
      Pends w ip₀ (.restoreIter pc old :: jobs) row ip ps entry
  | step {jobs row ip ps entry c off} (hc : Stands w.prog ip₀ (w.st + off) c row ip)
      (hoff : off ≤ w.stop - w.st) (h : Pends w ip₀ jobs row ip ps entry) :
      Pends w ip₀ (.step c.pc off :: jobs) row ip ((off, c) :: ps) entry

/-- The bits of the backtracker are the visited program counters. -/
def BitsMatch (w : Walker) (visited : ℕ → Bool) (v : Finset ℕ) (vs : List (Finset ℕ)) : Prop :=
  ∀ pc < w.prog.len, ∀ lvl < w.width, visited (pc * w.width + lvl) = true ↔ SeenAt v vs lvl pc

/-- Explore the pending configurations one after another. -/
def exploreAll (prog : Program) (s : List UInt8) (flags : UInt8) (st : ℕ) :
    Finset ℕ → List (Finset ℕ) → List (ℕ × Config) → Explored
  | v, vs, [] => .none v vs
  | v, vs, (lvl, c) :: ps =>
    (exploreAt prog s flags st v vs lvl [c]).andThen fun v vs =>
      exploreAll prog s flags st v vs ps

/-- Some consuming instruction inside the window spans more than one byte. -/
def WideConsume (w : Walker) : Prop :=
  ∃ (pc : ℕ) (ins : Inst) (pos adv : ℕ), w.prog.insts[pc]? = some ins ∧ w.st ≤ pos ∧ pos < w.stop ∧
    w.consume ins pos = some adv ∧ 1 < adv

/-- The outcome and the row that answer what exploring came to. -/
def Answers (w : Walker) (entry : Row) : Explored → Outcome → Row → Prop
  | .found row, o, row' => o = .found ∧ row' = row
  | .wide, o, _ => o = .wideStep ∧ WideConsume w
  | .none _ _, o, row' => o = .noMatch ∧ row' = entry

/-! ### Undoing -/

/-- Undoing a write. -/
lemma set_set_readSlot (row : Row) (slot : ℕ) (x : Option ℕ) :
    (row.set slot x).set slot (readSlot row slot) = row := by
  rw [List.set_set]
  apply List.ext_getElem?
  intro i
  rw [List.getElem?_set]
  unfold readSlot
  split_ifs with h₁ h₂
  · subst h₁
    simp [List.getD_eq_getElem?_getD, h₂]
  · subst h₁
    simp [not_lt.mp h₂]
  · rfl

/-- The loop of the `SaveReset` arm unsets the slots. -/
lemma resetLoop_fst (first stop slot : ℕ) (cells : Row) :
    (Walker.resetLoop first stop slot cells).1 =
      cells.mapIdx fun i v => if first ≤ slot + i ∧ slot + i < stop then none else v := by
  induction cells generalizing slot with
  | nil => rfl
  | cons cell cells ih =>
    have hshift : (fun i (v : Option ℕ) =>
          if first ≤ slot + (i + 1) ∧ slot + (i + 1) < stop then none else v) =
        fun i v => if first ≤ slot + 1 + i ∧ slot + 1 + i < stop then none else v := by
      funext i v
      rw [Nat.add_assoc, Nat.add_comm 1 i]
    rw [List.mapIdx_cons, hshift, ← ih (slot + 1), Nat.add_zero]
    simp only [Walker.resetLoop]
    cases cell with
    | none =>
      rw [if_neg (by simp)]
      split_ifs <;> rfl
    | some x =>
      simp only [Option.isSome_some, and_true]
      split_ifs <;> rfl

/-- The row after the `SaveReset` arm. -/
lemma resetLoop_row (first stop : ℕ) (row : Row) :
    (Walker.resetLoop first stop 0 row).1 = resetSlots row first stop := by
  rw [resetLoop_fst]
  simp [resetSlots]

/-- The `SaveReset` arm pushes at most one job for each slot. -/
lemma resetLoop_jobs_length (first stop slot : ℕ) (cells : Row) :
    (Walker.resetLoop first stop slot cells).2.length ≤ cells.length := by
  induction cells generalizing slot with
  | nil => exact le_rfl
  | cons cell cells ih =>
    have := ih (slot + 1)
    simp only [Walker.resetLoop]
    split_ifs
    · simp only [List.length_append, List.length_cons, List.length_nil]
      omega
    · simp only [List.length_cons]
      omega

/-- The jobs of the `SaveReset` arm bring the row back. -/
lemma pends_resetLoop {w : Walker} {ip₀ : ℕ → Option ℕ} {first stop : ℕ} {jobs : List Job} {cells : Row}
    {ip : ℕ → Option ℕ} {ps : List (ℕ × Config)} {entry : Row} (pre : Row)
    (h : Pends w ip₀ jobs (pre ++ cells) ip ps entry) :
    Pends w ip₀ ((Walker.resetLoop first stop pre.length cells).2 ++ jobs)
      (pre ++ (Walker.resetLoop first stop pre.length cells).1) ip ps entry := by
  induction cells generalizing pre jobs with
  | nil => exact h
  | cons cell cells ih =>
    simp only [Walker.resetLoop]
    split_ifs
    · have hundo : Pends w ip₀ (.restore pre.length cell :: jobs) (pre ++ [none] ++ cells) ip ps entry := by
        refine .restore ?_
        have hset : (pre ++ [none] ++ cells).set pre.length cell = pre ++ cell :: cells := by simp
        rwa [hset]
      have := ih _ hundo
      simpa using this
    · have hkeep : Pends w ip₀ jobs (pre ++ [cell] ++ cells) ip ps entry := by simpa using h
      have := ih _ hkeep
      simpa using this

/-! ### Consuming -/

section Consume

variable {w : Walker} {flags : UInt8} {pos : ℕ}

/-- Inside the window the backtracker consumes what the Pike VM consumes. -/
lemma consume_eq_stepAdv (hu : w.unicode = unicodeMode flags) (hpos : pos < w.stop)
    (hstop : w.stop ≤ w.s.length) {ins : Inst} (hparks : ins.parks = true) :
    w.consume ins pos = stepAdv w.prog w.s flags pos (some ins) := by
  have hlen : pos < w.s.length := by omega
  have hge : ¬ pos ≥ w.stop := by omega
  cases ins <;> simp only [Inst.parks, Bool.false_eq_true] at hparks
  case char lit pad => simp [Walker.consume, stepAdv, hge, hlen]
  case anyChar pad =>
    simp only [Walker.consume, stepAdv, anyCharAdv, if_neg hge, hlen, true_and]
    cases hasFlag pad RE_FLAG_S <;> cases LineTerminator.atPos w.s pos <;> simp
  case cls idx pad =>
    simp only [Walker.consume, stepAdv, classAdv, if_neg hge, if_pos hlen, hu]
    cases (w.prog.classAt idx).byteOnly <;> cases unicodeMode flags <;> simp
  case accept => simp [Walker.consume, stepAdv, hge]

/-- A consuming instruction advances at least one byte. -/
lemma consume_pos {ins : Inst} {adv : ℕ} (h : w.consume ins pos = some adv) : 1 ≤ adv := by
  have hul := utf8LenFor_pos (byteAt w.s pos)
  have hdec := utf8DecodeCp_len_pos w.s pos
  unfold Walker.consume at h
  cases ins <;> simp only at h <;> split_ifs at h <;> grind

end Consume

/-! ### Marking -/

/-- What is visited after a visit. -/
lemma seenAt_mark {v : Finset ℕ} {vs : List (Finset ℕ)} {lvl pc : ℕ} (hlvl : lvl ≤ vs.length)
    (lvl' pc' : ℕ) :
    SeenAt (markHead v lvl pc) (markTail vs lvl pc) lvl' pc' ↔
      (lvl' = lvl ∧ pc' = pc) ∨ SeenAt v vs lvl' pc' := by
  induction lvl generalizing v vs lvl' with
  | zero =>
    cases lvl' with
    | zero => simp [markHead]
    | succ lvl' => cases vs <;> simp [markTail, SeenAt]
  | succ lvl ih =>
    cases vs with
    | nil => simp at hlvl
    | cons u vs =>
      cases lvl' with
      | zero => simp [markHead]
      | succ lvl' =>
        have hle : lvl ≤ vs.length := by simpa using hlvl
        simpa [markTail, SeenAt] using ih (v := u) hle lvl'

/-- The offset of a bit determines it. -/
lemma bit_injective {width pc lvl pc' lvl' : ℕ} (hlvl : lvl < width) (hlvl' : lvl' < width)
    (h : pc' * width + lvl' = pc * width + lvl) : lvl' = lvl ∧ pc' = pc := by
  have hmod := congrArg (· % width) h
  have hdiv := congrArg (· / width) h
  have hpos : 0 < width := by omega
  simp only [Nat.mul_add_mod_self_right, Nat.mod_eq_of_lt hlvl, Nat.mod_eq_of_lt hlvl'] at hmod
  rw [Nat.mul_comm pc' , Nat.mul_comm pc] at hdiv
  simp only [Nat.mul_add_div hpos, Nat.div_eq_of_lt hlvl, Nat.div_eq_of_lt hlvl',
    Nat.add_zero] at hdiv
  exact ⟨hmod, hdiv⟩

/-- Setting the bit is marking the visit. -/
lemma BitsMatch.mark {w : Walker} {visited : ℕ → Bool} {v : Finset ℕ} {vs : List (Finset ℕ)}
    (h : BitsMatch w visited v vs) {lvl : ℕ} (hlvl : lvl ≤ vs.length) (hwidth : lvl < w.width)
    (pc : ℕ) : BitsMatch w (Function.update visited (pc * w.width + lvl) true)
      (markHead v lvl pc) (markTail vs lvl pc) := by
  intro pc' hpc' lvl' hlvl'
  rw [seenAt_mark hlvl, ← h pc' hpc' lvl' hlvl']
  by_cases heq : pc' * w.width + lvl' = pc * w.width + lvl
  · rw [heq, Function.update_self]
    simp [bit_injective hwidth hlvl' heq]
  · rw [Function.update_of_ne heq]
    refine ⟨Or.inr, fun h => h.resolve_left ?_⟩
    rintro ⟨rfl, rfl⟩
    exact heq rfl

/-- The bits of the window that are not set. -/
def freeBits (w : Walker) (visited : ℕ → Bool) : Finset ℕ :=
  (Finset.range (w.prog.len * w.width)).filter fun i => visited i = false

/-- Setting a bit leaves one bit less. -/
lemma card_freeBits_mark {w : Walker} {visited : ℕ → Bool} {pc lvl : ℕ} (hpc : pc < w.prog.len)
    (hlvl : lvl < w.width) (h : visited (pc * w.width + lvl) = false) :
    (freeBits w (Function.update visited (pc * w.width + lvl) true)).card <
      (freeBits w visited).card := by
  apply Finset.card_lt_card
  have hmem : pc * w.width + lvl ∈ freeBits w visited := by
    refine Finset.mem_filter.mpr ⟨Finset.mem_range.mpr ?_, h⟩
    calc pc * w.width + lvl < pc * w.width + w.width := by omega
      _ = (pc + 1) * w.width := by rw [Nat.succ_mul]
      _ ≤ w.prog.len * w.width := Nat.mul_le_mul_right _ hpc
  have hnot : pc * w.width + lvl ∉ freeBits w (Function.update visited (pc * w.width + lvl) true) := by
    simp [freeBits]
  refine Finset.ssubset_iff_subset_ne.mpr ⟨?_, fun heq => hnot (heq ▸ hmem)⟩
  intro i hi
  obtain ⟨hrange, hfree⟩ := Finset.mem_filter.mp hi
  refine Finset.mem_filter.mpr ⟨hrange, ?_⟩
  by_cases heq : i = pc * w.width + lvl
  · rw [heq, Function.update_self] at hfree
    cases hfree
  · rwa [Function.update_of_ne heq] at hfree

/-! ### Exploring what is pending -/

section ExploreAll

variable {prog : Program} {s : List UInt8} {flags : UInt8} {st lvl : ℕ} {v : Finset ℕ}
  {vs : List (Finset ℕ)} {c : Config} {ps : List (ℕ × Config)}

/-- Configurations of one position are explored one after another. -/
lemma exploreAll_map_append (v : Finset ℕ) (vs : List (Finset ℕ)) (lvl : ℕ) (cs : List Config)
    (ps : List (ℕ × Config)) :
    exploreAll prog s flags st v vs (cs.map (lvl, ·) ++ ps) =
      (exploreAt prog s flags st v vs lvl cs).andThen fun v vs =>
        exploreAll prog s flags st v vs ps := by
  induction cs generalizing v vs with
  | nil => simp
  | cons c cs ih =>
    have hsplit : exploreAt prog s flags st v vs lvl (c :: cs) =
        (exploreAt prog s flags st v vs lvl [c]).andThen fun v vs =>
          exploreAt prog s flags st v vs lvl cs := exploreAt_append prog s flags st v vs lvl [c] cs
    rw [hsplit, Explored.andThen_assoc]
    simp only [List.map_cons, List.cons_append, exploreAll, ih]

/-- A visited configuration is dropped. -/
lemma exploreAll_seen (h : SeenAt v vs lvl c.pc) :
    exploreAll prog s flags st v vs ((lvl, c) :: ps) = exploreAll prog s flags st v vs ps := by
  rw [exploreAll, exploreAt_of_seen h, Explored.none_andThen]

/-- A fresh configuration makes way for its successors. -/
lemma exploreAll_eps (hpc : c.pc < prog.len) (hv : ¬ SeenAt v vs lvl c.pc)
    (hadv : stepAdv prog s flags (st + lvl) prog.insts[c.pc]? = none)
    (hacc : c.accepts prog = false) :
    exploreAll prog s flags st v vs ((lvl, c) :: ps) =
      exploreAll prog s flags st (markHead v lvl c.pc) (markTail vs lvl c.pc)
        ((epsNext prog s (st + lvl) c).map (lvl, ·) ++ ps) := by
  rw [exploreAll, exploreAt_eps hpc hv hadv hacc, exploreAll_map_append]

/-- A fresh configuration that consumes one byte makes way for the next position. -/
lemma exploreAll_step (hpc : c.pc < prog.len) (hv : ¬ SeenAt v vs lvl c.pc)
    (hadv : stepAdv prog s flags (st + lvl) prog.insts[c.pc]? = some 1)
    (hnext : epsNext prog s (st + lvl) c = []) (hlvl : lvl < vs.length) :
    exploreAll prog s flags st v vs ((lvl, c) :: ps) =
      exploreAll prog s flags st (markHead v lvl c.pc) (markTail vs lvl c.pc)
        ((lvl + 1, ⟨c.pc + 1, c.row, []⟩) :: ps) := by
  rw [exploreAll, exploreAt_step hpc hv hadv hnext hlvl, exploreAll]

/-- A fresh configuration that cannot go on only leaves its mark. -/
lemma exploreAll_stuck (hpc : c.pc < prog.len) (hv : ¬ SeenAt v vs lvl c.pc)
    (hnext : epsNext prog s (st + lvl) c = [])
    (hlast : lvl = vs.length → c.accepts prog = false)
    (hbefore : lvl < vs.length → stepAdv prog s flags (st + lvl) prog.insts[c.pc]? = none)
    (hle : lvl ≤ vs.length) :
    exploreAll prog s flags st v vs ((lvl, c) :: ps) =
      exploreAll prog s flags st (markHead v lvl c.pc) (markTail vs lvl c.pc) ps := by
  rw [exploreAll, exploreAt_stuck hpc hv hnext hlast hbefore hle, Explored.none_andThen]

end ExploreAll

/-! ### One step of a path -/

section Stands

variable {prog : Program} {ip₀ ip : ℕ → Option ℕ} {pos : ℕ} {c : Config} {row : Row} {ins : Inst}

/-- A path goes on at its position, with another row or not. -/
lemma Stands.next (h : Stands prog ip₀ pos c row ip) (hb : canBacktrack prog = true)
    (hins : prog.insts[c.pc]? = some ins) (hne : ins ≠ .iterStart) {pc' : ℕ}
    (hmem : pc' ∈ ins.targets c.pc) (row' : Row) :
    Stands prog ip₀ pos ⟨pc', row', c.iters⟩ row' ip := by
  obtain ⟨begun, hreach, hin, hout⟩ := h.begun
  refine ⟨rfl, targets_lt hb hins hmem, begun, ?_, hin, hout⟩
  have hnext := hreach.next hins hmem
  rwa [if_neg hne] at hnext

/-- A path begins an iteration. -/
lemma Stands.iterStart (h : Stands prog ip₀ pos c row ip) (hb : canBacktrack prog = true)
    (hins : prog.insts[c.pc]? = some .iterStart) :
    Stands prog ip₀ pos ⟨c.pc + 1, row, c.iters ++ [c.pc]⟩ row
      (Function.update ip c.pc (some pos)) := by
  obtain ⟨begun, hreach, hin, hout⟩ := h.begun
  have hmem : c.pc + 1 ∈ Inst.iterStart.targets c.pc := List.mem_singleton.mpr rfl
  have hnext := hreach.next hins hmem
  rw [if_pos rfl] at hnext
  refine ⟨rfl, targets_lt hb hins hmem, insert c.pc begun, hnext, ?_, ?_⟩
  · intro k hk
    by_cases hkc : k = c.pc
    · subst hkc
      simp
    · rw [Function.update_of_ne hkc]
      have := hin k ((Finset.mem_insert.mp hk).resolve_left hkc)
      simpa [hkc] using this
  · intro k hk
    rw [Finset.mem_insert, not_or] at hk
    rw [Function.update_of_ne hk.1]
    have := hout k hk.2
    simpa [hk.1] using this

/-- A path consumes a byte. -/
lemma Stands.consume (h : Stands prog ip₀ pos c row ip) (hb : canBacktrack prog = true)
    (hins : prog.insts[c.pc]? = some ins) (hne : ins ≠ .iterStart)
    (hmem : c.pc + 1 ∈ ins.targets c.pc) :
    Stands prog ip₀ (pos + 1) ⟨c.pc + 1, row, []⟩ row ip := by
  obtain ⟨begun, hreach, hin, hout⟩ := h.begun
  have hnext := hreach.next hins hmem
  rw [if_neg hne] at hnext
  refine ⟨rfl, targets_lt hb hins hmem, begun, hnext, ?_, ?_⟩
  · intro k hk
    obtain ⟨-, q, hq, hip⟩ := hin k hk
    refine ⟨⟨fun hmem => absurd hmem (List.not_mem_nil), fun heq => ?_⟩, q, by omega, hip⟩
    rw [hip, Option.some.injEq] at heq
    omega
  · intro k hk
    exact ⟨List.not_mem_nil, (hout k hk).2⟩

end Stands

/-! ### One turn -/

/-- What the state of a run rests on. -/
structure Window (w : Walker) (flags : UInt8) (ip₀ : ℕ → Option ℕ) : Prop where
  eligible : canBacktrack w.prog = true
  unicode_eq : w.unicode = unicodeMode flags
  width_eq : w.width = w.stop - w.st + 1
  st_le : w.st ≤ w.stop
  stop_le : w.stop ≤ w.s.length
  noStale : NoStaleStart w.prog ip₀ w.st w.stop

/-- The jobs `jobs` stand for an exploration that comes to `e`, and leave the row
`entry`. -/
def Searching (w : Walker) (flags : UInt8) (ip₀ : ℕ → Option ℕ) (entry : Row) (e : Explored)
    (jobs : List Job) (bt : Backtrack) (row : Row) : Prop :=
  ∃ v vs ps, Pends w ip₀ jobs row bt.iterPos ps entry ∧ BitsMatch w bt.visited v vs ∧
    vs.length = w.stop - w.st ∧ exploreAll w.prog w.s flags w.st v vs ps = e

/-- The turns that are left, but for those of the walk under way. -/
def work (w : Walker) (bt : Backtrack) (row : Row) : ℕ :=
  (freeBits w bt.visited).card * (2 * row.length + 4) + 2 * bt.stack.length

/-- What a turn makes of a search: the walk goes on, or ends with the rest of the search
before it, or has the answer. -/
def TurnOk (w : Walker) (flags : UInt8) (ip₀ : ℕ → Option ℕ) (entry : Row) (e : Explored)
    (bound : ℕ) : Walker.Turn × Backtrack × Row → Prop
  | (.goto pc pos, bt, row) => ∃ lvl, pos = w.st + lvl ∧ work w bt row + 2 ≤ bound ∧
    Searching w flags ip₀ entry e (.step pc lvl :: bt.stack) bt row
  | (.done .noMatch, bt, row) => work w bt row ≤ bound ∧
    Searching w flags ip₀ entry e bt.stack bt row
  | (.done o, _, row) => Answers w entry e o row

section Turn

variable {w : Walker} {flags : UInt8} {ip₀ : ℕ → Option ℕ} {entry row : Row} {bt : Backtrack}
  {v : Finset ℕ} {vs : List (Finset ℕ)} {ps : List (ℕ × Config)} {c : Config} {lvl : ℕ}

/-- A visit pays for the jobs it pushes. -/
lemma work_mark {visited' : ℕ → Bool} {stack' : List Job} {ip' : ℕ → Option ℕ} {row' : Row}
    (hfree : (freeBits w visited').card < (freeBits w bt.visited).card)
    (hrow : row'.length = row.length)
    (hstack : stack'.length ≤ bt.stack.length + row.length + 1) :
    work w ⟨stack', visited', ip'⟩ row' + 2 ≤ work w bt row := by
  have hmul := Nat.mul_le_mul_right (2 * row.length + 4) (Nat.succ_le_of_lt hfree)
  rw [Nat.succ_mul] at hmul
  unfold work
  simp only [hrow]
  omega

/-- The turn of a consuming instruction at a fresh bit carries the search on. -/
lemma consume_ok {ins : Inst} (bt' : Backtrack) (hw : Window w flags ip₀) (hpc : c.pc < w.prog.len)
    (hv : ¬ SeenAt v vs lvl c.pc) (hins : w.prog.insts[c.pc]? = some ins) (hparks : ins.parks = true)
    (hnext : epsNext w.prog w.s (w.st + lvl) c = []) (hacc : c.accepts w.prog = false)
    (hlvl : lvl ≤ w.stop - w.st) (hlen : vs.length = w.stop - w.st)
    (hp : Pends w ip₀ bt'.stack c.row bt'.iterPos ps entry)
    (hmark : BitsMatch w bt'.visited (markHead v lvl c.pc) (markTail vs lvl c.pc))
    (hs : Stands w.prog ip₀ (w.st + lvl + 1) ⟨c.pc + 1, c.row, []⟩ c.row bt'.iterPos) {bound : ℕ}
    (hwork : work w bt' c.row + 2 ≤ bound) :
    TurnOk w flags ip₀ entry (exploreAll w.prog w.s flags w.st v vs ((lvl, c) :: ps)) bound
      (match w.consume ins (w.st + lvl) with
        | some 1 => (.goto (c.pc + 1) (w.st + lvl + 1), bt', c.row)
        | some _ => (.done .wideStep, bt', c.row)
        | none => (.done .noMatch, bt', c.row)) := by
  have hstle := hw.st_le
  have hlen' : (markTail vs lvl c.pc).length = w.stop - w.st := by rw [markTail_length, hlen]
  have hstuck : (lvl < vs.length → stepAdv w.prog w.s flags (w.st + lvl) (some ins) = none) →
      TurnOk w flags ip₀ entry (exploreAll w.prog w.s flags w.st v vs ((lvl, c) :: ps)) bound
        (.done .noMatch, bt', c.row) := by
    intro hbefore
    rw [← hins] at hbefore
    rw [exploreAll_stuck hpc hv hnext (fun _ => hacc) hbefore (by omega)]
    exact ⟨by omega, _, _, _, hp, hmark, hlen', rfl⟩
  by_cases hend : w.st + lvl < w.stop
  · have hstep := consume_eq_stepAdv hw.unicode_eq hend hw.stop_le hparks
    cases hcons : w.consume ins (w.st + lvl) with
    | none => exact hstuck fun _ => by rw [← hstep, hcons]
    | some adv =>
      have hadv : stepAdv w.prog w.s flags (w.st + lvl) w.prog.insts[c.pc]? = some adv := by
        rw [hins, ← hstep, hcons]
      have hpos := consume_pos hcons
      obtain rfl | ⟨k, rfl⟩ : adv = 1 ∨ ∃ k, adv = k + 2 := by
        rcases adv with _ | _ | k
        · omega
        · exact Or.inl rfl
        · exact Or.inr ⟨k, rfl⟩
      · rw [exploreAll_step hpc hv hadv hnext (by omega)]
        have hlvl' : lvl + 1 ≤ w.stop - w.st := by omega
        exact ⟨lvl + 1, rfl, hwork, _, _, _, .step hs hlvl' hp, hmark, hlen', rfl⟩
      · rw [exploreAll, exploreAt_wide hpc hv hadv (by omega) (by omega)]
        exact ⟨rfl, c.pc, ins, w.st + lvl, k + 2, hins, by omega, hend, hcons, by omega⟩
  · have hcons : w.consume ins (w.st + lvl) = none := by
      unfold Walker.consume
      rw [if_pos (by omega)]
    rw [hcons]
    exact hstuck fun h => absurd h (by omega)

/-- The turn of a walk carries the search on. -/
theorem turn_ok (hw : Window w flags ip₀) (hc : Stands w.prog ip₀ (w.st + lvl) c row bt.iterPos)
    (hlvl : lvl ≤ w.stop - w.st) (hp : Pends w ip₀ bt.stack row bt.iterPos ps entry)
    (hbits : BitsMatch w bt.visited v vs) (hlen : vs.length = w.stop - w.st) :
    TurnOk w flags ip₀ entry (exploreAll w.prog w.s flags w.st v vs ((lvl, c) :: ps))
      (work w bt row) (w.turn c.pc (w.st + lvl) bt row) := by
  obtain rfl := hc.row_eq
  have hwidth : lvl < w.width := by rw [hw.width_eq]; omega
  have hbit := hbits c.pc hc.lt lvl hwidth
  cases hvis : bt.visited (c.pc * w.width + lvl) with
  | true =>
    -- a later arrival is dropped
    rw [exploreAll_seen (hbit.mp hvis)]
    simp only [Walker.turn, Nat.add_sub_cancel_left, hvis, if_true]
    exact ⟨le_rfl, v, vs, ps, hp, hbits, hlen, rfl⟩
  | false =>
    have hv : ¬ SeenAt v vs lvl c.pc := fun h => by rw [hbit.mpr h] at hvis; cases hvis
    have hmark := hbits.mark (hlen ▸ hlvl) hwidth c.pc
    have hlen' : (markTail vs lvl c.pc).length = w.stop - w.st := by rw [markTail_length, hlen]
    have hfree := card_freeBits_mark hc.lt hwidth hvis
    have hgoto : work w ⟨bt.stack, Function.update bt.visited (c.pc * w.width + lvl) true,
        bt.iterPos⟩ c.row + 2 ≤ work w bt c.row := work_mark hfree rfl (by omega)
    have hdone : work w ⟨bt.stack, Function.update bt.visited (c.pc * w.width + lvl) true,
        bt.iterPos⟩ c.row ≤ work w bt c.row := by omega
    obtain ⟨ins, hins⟩ : ∃ ins, w.prog.insts[c.pc]? = some ins :=
      ⟨_, List.getElem?_eq_getElem hc.lt⟩
    have heps : stepAdv w.prog w.s flags (w.st + lvl) (some ins) = none → ins ≠ .accept →
        exploreAll w.prog w.s flags w.st v vs ((lvl, c) :: ps) =
          exploreAll w.prog w.s flags w.st (markHead v lvl c.pc) (markTail vs lvl c.pc)
            ((epsNext w.prog w.s (w.st + lvl) c).map (lvl, ·) ++ ps) := by
      intro hadv hacc
      rw [← hins] at hadv
      exact exploreAll_eps hc.lt hv hadv (by simpa [Config.accepts, hins] using hacc)
    have hassert : ∀ ins', ins = ins' → ins'.targets c.pc = [c.pc + 1] → ins' ≠ .iterStart →
        Stands w.prog ip₀ (w.st + lvl) ⟨c.pc + 1, c.row, c.iters⟩ c.row bt.iterPos := by
      rintro _ rfl htargets hne
      exact hc.next hw.eligible hins hne (by rw [htargets]; exact List.mem_singleton.mpr rfl) _
    cases ins
    case jmp target =>
      rw [heps rfl (by simp)]
      simp only [Walker.turn, Nat.add_sub_cancel_left, hvis, hins, epsNext, Bool.false_eq_true,
        if_false]
      have hs := hc.next hw.eligible hins (by simp) (List.mem_singleton.mpr rfl) c.row
      exact ⟨lvl, rfl, hgoto, _, _, _, .step hs hlvl hp, hmark, hlen', rfl⟩
    case split a b =>
      rw [heps rfl (by simp)]
      simp only [Walker.turn, Nat.add_sub_cancel_left, hvis, hins, epsNext, Bool.false_eq_true,
        if_false]
      have ha : a ∈ (Inst.split a b).targets c.pc := List.mem_cons_self
      have hb : b ∈ (Inst.split a b).targets c.pc := List.mem_cons_of_mem _ List.mem_cons_self
      have hs₁ := hc.next hw.eligible hins (by simp) ha c.row
      have hs₂ := hc.next hw.eligible hins (by simp) hb c.row
      exact ⟨lvl, rfl, work_mark hfree rfl (by simp only [List.length_cons]; omega), _, _, _,
        .step hs₁ hlvl (.step hs₂ hlvl hp), hmark, hlen', rfl⟩
    case save slot =>
      rw [heps rfl (by simp)]
      simp only [Walker.turn, Nat.add_sub_cancel_left, hvis, hins, epsNext, Bool.false_eq_true,
        if_false]
      have hs := hc.next hw.eligible hins (by simp) (List.mem_singleton.mpr rfl)
        (c.row.set slot (some (w.st + lvl)))
      have hundo : Pends w ip₀ (.restore slot (readSlot c.row slot) :: bt.stack)
          (c.row.set slot (some (w.st + lvl))) bt.iterPos ps entry :=
        .restore (by rwa [set_set_readSlot])
      exact ⟨lvl, rfl, work_mark hfree (by simp) (by simp only [List.length_cons]; omega), _, _, _,
        .step hs hlvl hundo, hmark, hlen', rfl⟩
    case saveReset first stop =>
      rw [heps rfl (by simp)]
      simp only [Walker.turn, Nat.add_sub_cancel_left, hvis, hins, epsNext, Bool.false_eq_true,
        if_false]
      have hs := hc.next hw.eligible hins (by simp) (List.mem_singleton.mpr rfl)
        (resetSlots c.row first stop)
      have hundo : Pends w ip₀ ((Walker.resetLoop first stop 0 c.row).2 ++ bt.stack)
          (Walker.resetLoop first stop 0 c.row).1 bt.iterPos ps entry :=
        pends_resetLoop [] hp
      have hjobs := resetLoop_jobs_length first stop 0 c.row
      rw [resetLoop_row] at hundo ⊢
      exact ⟨lvl, rfl, work_mark hfree (by simp [resetSlots])
        (by simp only [List.length_append]; omega), _, _, _, .step hs hlvl hundo, hmark, hlen', rfl⟩
    case iterStart =>
      rw [heps rfl (by simp)]
      simp only [Walker.turn, Nat.add_sub_cancel_left, hvis, hins, epsNext, Bool.false_eq_true,
        if_false]
      have hs := hc.iterStart hw.eligible hins
      have hundo : Pends w ip₀ (.restoreIter c.pc (bt.iterPos c.pc) :: bt.stack) c.row
          (Function.update bt.iterPos c.pc (some (w.st + lvl))) ps entry :=
        .restoreIter (by rwa [Function.update_idem, Function.update_eq_self])
      exact ⟨lvl, rfl, work_mark hfree rfl (by simp only [List.length_cons]; omega), _, _, _,
        .step hs hlvl hundo, hmark, hlen', rfl⟩
    case iterCheck start =>
      -- the verdict of the path is the verdict of the table
      have hverdict : start ∈ c.iters ↔ bt.iterPos start = some (w.st + lvl) := by
        obtain ⟨begun, hreach, hin, hout⟩ := hc.begun
        by_cases hbegun : start ∈ begun
        · exact (hin start hbegun).1
        · have hstale := hw.noStale begun c.pc start hreach hins hbegun (w.st + lvl) (by omega)
            (by have := hw.st_le; omega)
          rw [← (hout start hbegun).2] at hstale
          exact ⟨fun h => absurd h (hout start hbegun).1, fun h => absurd h hstale⟩
      rw [heps rfl (by simp)]
      simp only [Walker.turn, Nat.add_sub_cancel_left, hvis, hins, epsNext, Bool.false_eq_true,
        if_false, ← hverdict]
      split_ifs
      · exact ⟨hdone, _, _, _, hp, hmark, hlen', rfl⟩
      · exact ⟨lvl, rfl, hgoto, _, _, _, .step (hassert _ rfl rfl (by simp)) hlvl hp, hmark,
          hlen', rfl⟩
    case anchorB pad =>
      rw [heps rfl (by simp)]
      simp only [Walker.turn, Nat.add_sub_cancel_left, hvis, hins, epsNext, Bool.false_eq_true,
        if_false, Walker.assertionHolds]
      split_ifs
      · exact ⟨lvl, rfl, hgoto, _, _, _, .step (hassert _ rfl rfl (by simp)) hlvl hp, hmark,
          hlen', rfl⟩
      · exact ⟨hdone, _, _, _, hp, hmark, hlen', rfl⟩
    case anchorE pad =>
      rw [heps rfl (by simp)]
      simp only [Walker.turn, Nat.add_sub_cancel_left, hvis, hins, epsNext, Bool.false_eq_true,
        if_false, Walker.assertionHolds]
      split_ifs
      · exact ⟨lvl, rfl, hgoto, _, _, _, .step (hassert _ rfl rfl (by simp)) hlvl hp, hmark,
          hlen', rfl⟩
      · exact ⟨hdone, _, _, _, hp, hmark, hlen', rfl⟩
    case wBound =>
      rw [heps rfl (by simp)]
      simp only [Walker.turn, Nat.add_sub_cancel_left, hvis, hins, epsNext, Bool.false_eq_true,
        if_false, Walker.assertionHolds]
      cases wordBefore w.s (w.st + lvl) != wordAfter w.s (w.st + lvl)
      · exact ⟨hdone, _, _, _, hp, hmark, hlen', rfl⟩
      · exact ⟨lvl, rfl, hgoto, _, _, _, .step (hassert _ rfl rfl (by simp)) hlvl hp, hmark,
          hlen', rfl⟩
    case nwBound =>
      rw [heps rfl (by simp)]
      simp only [Walker.turn, Nat.add_sub_cancel_left, hvis, hins, epsNext, Bool.false_eq_true,
        if_false, Walker.assertionHolds]
      cases wordBefore w.s (w.st + lvl) <;> cases wordAfter w.s (w.st + lvl)
      · exact ⟨lvl, rfl, hgoto, _, _, _, .step (hassert _ rfl rfl (by simp)) hlvl hp, hmark,
          hlen', rfl⟩
      · exact ⟨hdone, _, _, _, hp, hmark, hlen', rfl⟩
      · exact ⟨hdone, _, _, _, hp, hmark, hlen', rfl⟩
      · exact ⟨lvl, rfl, hgoto, _, _, _, .step (hassert _ rfl rfl (by simp)) hlvl hp, hmark,
          hlen', rfl⟩
    case look kind sub => exact False.elim (canBacktrack_inst hw.eligible hins).2
    case backref cap pad => exact False.elim (canBacktrack_inst hw.eligible hins).2
    case accept =>
      have hnext : epsNext w.prog w.s (w.st + lvl) c = [] := by simp only [epsNext, hins]
      have hacc : c.accepts w.prog = true := by simp [Config.accepts, hins]
      have hstle := hw.st_le
      simp only [Walker.turn, Nat.add_sub_cancel_left, hvis, hins, Bool.false_eq_true, if_false]
      by_cases hend : w.st + lvl = w.stop
      · rw [if_pos hend, exploreAll, exploreAt_found hc.lt hv hacc (by omega)]
        exact ⟨rfl, rfl⟩
      · rw [if_neg hend, exploreAll_stuck hc.lt hv hnext (fun h => absurd h (by omega))
          (fun _ => by rw [hins]; rfl) (by omega)]
        exact ⟨hdone, _, _, _, hp, hmark, hlen', rfl⟩
    all_goals
      have hnext : epsNext w.prog w.s (w.st + lvl) c = [] := by simp only [epsNext, hins]
      have hacc : c.accepts w.prog = false := by simp [Config.accepts, hins]
      have hmem := List.mem_singleton.mpr (rfl : c.pc + 1 = c.pc + 1)
      have hs := hc.consume hw.eligible hins (by simp) hmem
      simp only [Walker.turn, Nat.add_sub_cancel_left, hvis, hins, Bool.false_eq_true, if_false]
      exact consume_ok ⟨bt.stack, Function.update bt.visited (c.pc * w.width + lvl) true,
        bt.iterPos⟩ hw hc.lt hv hins rfl hnext hacc hlvl hlen hp hmark hs hgoto

end Turn

/-! ### The whole run -/

/-- The jobs that a walk under way and the stack make up. -/
def pendingJobs (w : Walker) (cur : Option (ℕ × ℕ)) (stack : List Job) : List Job :=
  match cur with
  | some (pc, pos) => .step pc (pos - w.st) :: stack
  | none => stack

section Run

variable {w : Walker} {flags : UInt8} {ip₀ : ℕ → Option ℕ} {entry : Row} {e : Explored}

/-- The first pending configuration of a search that begins with a `Step`. -/
lemma Searching.turn_ok (hw : Window w flags ip₀) {jobs : List Job} {pc lvl : ℕ} {bt : Backtrack}
    {row : Row} (hjobs : bt.stack = jobs)
    (h : Searching w flags ip₀ entry e (.step pc lvl :: jobs) bt row) :
    TurnOk w flags ip₀ entry e (work w bt row) (w.turn pc (w.st + lvl) bt row) := by
  obtain ⟨v, vs, ps, hp, hbits, hlen, rfl⟩ := h
  cases hp with
  | step hc hlvl hp => exact Regex.turn_ok hw hc hlvl (hjobs ▸ hp) hbits hlen

/-- A run with enough turns ends, with the answer of the search. -/
theorem run_answers (hw : Window w flags ip₀) {n : ℕ} {cur : Option (ℕ × ℕ)} {bt : Backtrack}
    {row : Row} (hcur : ∀ pc pos, cur = some (pc, pos) → w.st ≤ pos)
    (h : Searching w flags ip₀ entry e (pendingJobs w cur bt.stack) bt row)
    (hn : work w bt row + (if cur.isSome then 1 else 0) < n) :
    ∃ o bt' row', w.run n cur bt row = some (o, bt', row') ∧ Answers w entry e o row' := by
  induction n generalizing cur bt row with
  | zero => omega
  | succ n ih =>
    rcases cur with _ | ⟨pc, pos⟩
    · simp only [Option.isSome_none, Bool.false_eq_true, if_false, Nat.add_zero] at hn
      obtain ⟨v, vs, ps, hp, hbits, hlen, he⟩ := h
      simp only [pendingJobs] at hp
      have hnone : ∀ pc pos, (none : Option (ℕ × ℕ)) = some (pc, pos) → w.st ≤ pos := nofun
      obtain ⟨stack, visited, ip⟩ := bt
      cases hp with
      | nil =>
        refine ⟨_, _, _, rfl, ?_⟩
        rw [← he]
        exact ⟨rfl, rfl⟩
      | @restore jobs _ _ _ _ slot old hp =>
        rw [Walker.run]
        refine ih hnone ⟨v, vs, ps, hp, hbits, hlen, he⟩ ?_
        simp only [work, List.length_cons, List.length_set] at hn ⊢
        simp only [Option.isSome_none, Bool.false_eq_true, if_false]
        omega
      | @restoreIter jobs _ _ _ _ pc old hp =>
        rw [Walker.run]
        refine ih hnone ⟨v, vs, ps, hp, hbits, hlen, he⟩ ?_
        simp only [work, List.length_cons] at hn ⊢
        simp only [Option.isSome_none, Bool.false_eq_true, if_false]
        omega
      | @step jobs _ _ ps _ c off hc hoff hp =>
        rw [Walker.run]
        refine ih ?_ ⟨v, vs, (off, c) :: ps, ?_, hbits, hlen, he⟩ ?_
        · rintro pc pos heq
          cases heq
          exact Nat.le_add_right _ _
        · simp only [pendingJobs, Nat.add_sub_cancel_left]
          exact .step hc hoff hp
        · simp only [work, List.length_cons] at hn ⊢
          simp only [Option.isSome_some, if_true]
          omega
    · simp only [Option.isSome_some, if_true] at hn
      obtain ⟨lvl, rfl⟩ := Nat.exists_eq_add_of_le (hcur pc pos rfl)
      simp only [pendingJobs, Nat.add_sub_cancel_left] at h
      have hturn := h.turn_ok hw rfl
      rw [Walker.run]
      rcases hres : w.turn pc (w.st + lvl) bt row with ⟨⟨pc', pos'⟩ | o, bt', row'⟩
      · -- the walk goes on
        rw [hres] at hturn
        obtain ⟨lvl', rfl, hwork, hnext⟩ := hturn
        refine ih ?_ ?_ ?_
        · rintro pc pos heq
          cases heq
          exact Nat.le_add_right _ _
        · simpa only [pendingJobs, Nat.add_sub_cancel_left] using hnext
        · simp only [Option.isSome_some, if_true]
          omega
      · rw [hres] at hturn
        cases o with
        | noMatch =>
          -- the walk ends, and the next job is popped
          obtain ⟨hwork, hnext⟩ := hturn
          refine ih nofun hnext ?_
          simp only [Option.isSome_none, Bool.false_eq_true, if_false]
          omega
        | found => exact ⟨_, _, _, rfl, hturn⟩
        | wideStep => exact ⟨_, _, _, rfl, hturn⟩

end Run

end Torajs.Regex
