import Mathlib.Data.Finset.Image
import ToraJs.Regex.Explore

/-!
# The Pike VM explores position by position

The thread lists of the Pike VM against `batch`.  At each position the list begins with
the threads of the explored configurations; what may follow them are threads of lower
priority than the first step over several bytes.  A match of the exploration is then the
match of the VM, and where the exploration finds nothing and no such step, neither does
the VM.
-/

namespace Torajs.Regex

/-- An instruction other than a lookaround and a back reference. -/
def Inst.Plain : Inst → Prop
  | .look _ _ => False
  | .backref _ _ => False
  | _ => True

/-- Programs without lookarounds and back references. -/
def Plain (prog : Program) : Prop := ∀ ins ∈ prog.insts, ins.Plain

/-- The thread of a parked configuration. -/
def Config.toThread (c : Config) : Thread := ⟨c.pc, 0, 0, c.row⟩

/-- The threads of the parked configurations of a list. -/
def threads (prog : Program) (cs : List Config) : List Thread :=
  (cs.filter (Config.parks prog)).map Config.toThread

/-- The key of a program counter in a program without back references. -/
def pcKey (pc : ℕ) : ℕ × List (Option ℕ) := (pc, [])

lemma pcKey_injective : Function.Injective pcKey := fun _ _ h => (Prod.mk.inj h).1

section

variable {prog : Program} {s : List UInt8}

lemma threads_append (cs ds : List Config) :
    threads prog (cs ++ ds) = threads prog cs ++ threads prog ds := by
  simp [threads]

/-! ### The epsilon expansion -/

/-- A plain program has no back references. -/
lemma backrefCaps_of_plain (h : Plain prog) : prog.backrefCaps = [] := by
  have hnil : prog.insts.filterMap Program.backrefCap? = [] := by
    rw [List.filterMap_eq_nil_iff]
    intro ins hins
    have := h ins hins
    cases ins <;> first | rfl | exact False.elim this
  unfold Program.backrefCaps
  rw [hnil, List.mergeSort_nil]
  rfl

lemma threadKey_of_plain (h : Plain prog) (pc : ℕ) (row : Row) (iters : List ℕ) :
    threadKey prog pc row iters = pcKey pc := by
  unfold threadKey pcKey
  rw [backrefCaps_of_plain h]
  rfl

/-- `add_thread` walks the graph of its position. -/
lemma addThread_eq_walk (h : Plain prog) (look : LookProbe) (pos fuel : ℕ) (c : Config)
    (base : List Thread) (cs : List Config) (v : Finset ℕ) :
    addThread look prog s pos fuel c.pc c.row c.iters ⟨base ++ threads prog cs, v.image pcKey⟩ =
      ⟨base ++ threads prog ((levelGraph prog s pos).walk fuel (cs, v) c).1,
        ((levelGraph prog s pos).walk fuel (cs, v) c).2.image pcKey⟩ := by
  induction fuel generalizing c cs v with
  | zero => rfl
  | succ fuel ih =>
    rcases Option.eq_none_or_eq_some prog.insts[c.pc]? with hins | ⟨ins, hins⟩
    · have hpc : ¬ c.pc < prog.len := by
        rw [List.getElem?_eq_none_iff] at hins
        exact not_lt.mpr hins
      rw [FirstArrival.Graph.walk, if_neg fun hc => hpc (Finset.mem_range.mp hc.1)]
      simp only [addThread, hins]
    · have hpc : c.pc < prog.len := (List.getElem?_eq_some_iff.mp hins).1
      have hplain := h ins (List.mem_of_getElem? hins)
      by_cases hv : c.pc ∈ v
      · rw [FirstArrival.Graph.walk, if_neg fun hc => hc.2 hv]
        simp only [addThread, hins, threadKey_of_plain h]
        rw [if_pos (Finset.mem_image_of_mem _ hv)]
      · have hkey : pcKey c.pc ∉ v.image pcKey := by
          rwa [pcKey_injective.mem_finset_image]
        have hwalk : (levelGraph prog s pos).walk (fuel + 1) (cs, v) c =
            (epsNext prog s pos c).foldl ((levelGraph prog s pos).walk fuel)
              (cs ++ [c], insert c.pc v) := by
          rw [FirstArrival.Graph.walk, if_pos ⟨Finset.mem_range.mpr hpc, hv⟩]
          rfl
        have hparks : c.parks prog = ins.parks := by
          unfold Config.parks
          rw [hins]
          rfl
        have hstay : ins.parks = false → threads prog cs = threads prog (cs ++ [c]) := by
          intro hp
          simp [threads, hparks, hp]
        have hpark : ins.parks = true →
            threads prog (cs ++ [c]) = threads prog cs ++ [c.toThread] := by
          intro hp
          simp [threads, hparks, hp]
        rw [hwalk]
        cases ins <;>
          simp only [addThread, hins, threadKey_of_plain h, if_neg hkey, ← Finset.image_insert,
            epsNext]
        case look kind sub => exact False.elim hplain
        case backref cap pad => exact False.elim hplain
        case jmp target =>
          rw [hstay rfl]
          exact ih { c with pc := target } _ _
        case split a b =>
          rw [hstay rfl]
          have h₁ := ih { c with pc := a } (cs ++ [c]) (insert c.pc v)
          simp only at h₁
          rw [h₁]
          exact ih { c with pc := b } _ _
        case save slot =>
          rw [hstay rfl]
          exact ih ⟨c.pc + 1, c.row.set slot (some pos), c.iters⟩ _ _
        case saveReset first stop =>
          rw [hstay rfl]
          exact ih ⟨c.pc + 1, resetSlots c.row first stop, c.iters⟩ _ _
        case iterStart =>
          rw [hstay rfl]
          exact ih ⟨c.pc + 1, c.row, c.iters ++ [c.pc]⟩ _ _
        case iterCheck start =>
          rw [hstay rfl]
          split_ifs
          · rfl
          · exact ih { c with pc := c.pc + 1 } _ _
        case anchorB pad =>
          rw [hstay rfl]
          split_ifs
          · exact ih { c with pc := c.pc + 1 } _ _
          · rfl
        case anchorE pad =>
          rw [hstay rfl]
          split_ifs
          · exact ih { c with pc := c.pc + 1 } _ _
          · rfl
        case wBound =>
          rw [hstay rfl]
          split_ifs
          · exact ih { c with pc := c.pc + 1 } _ _
          · rfl
        case nwBound =>
          rw [hstay rfl]
          split_ifs
          · exact ih { c with pc := c.pc + 1 } _ _
          · rfl
        all_goals
          rw [ThreadList.push, List.foldl_nil, hpark rfl, List.append_assoc]
          rfl

/-- `add_thread` appends the threads of the explored configurations, and takes their
program counters. -/
theorem addThread_eq (h : Plain prog) (look : LookProbe) (pos : ℕ) {fuel : ℕ}
    (hfuel : prog.len < fuel) (c : Config) (base : List Thread) (v : Finset ℕ) :
    addThread look prog s pos fuel c.pc c.row c.iters ⟨base, v.image pcKey⟩ =
      ⟨base ++ threads prog ((levelGraph prog s pos).visit v [c]),
        ((levelGraph prog s pos).after v [c]).image pcKey⟩ := by
  have hcard : ((levelGraph prog s pos).keys \ v).card < fuel := by
    refine lt_of_le_of_lt (Finset.card_le_card Finset.sdiff_subset) ?_
    change (Finset.range prog.len).card < fuel
    rwa [Finset.card_range]
  have hwalk := addThread_eq_walk (s := s) h look pos fuel c base [] v
  rw [FirstArrival.Graph.walk_eq _ hcard] at hwalk
  simpa [threads] using hwalk

/-! ### One step of the loop -/

variable {flags : UInt8} {look : LookProbe} {fuel pos : ℕ}

/-- A thread list begins with the threads `base`, and its keys are program counters. -/
def Extends (base : List Thread) (tl : ThreadList) : Prop :=
  ∃ (junk : List Thread) (v : Finset ℕ), tl = ⟨base ++ junk, v.image pcKey⟩

lemma Extends.rfl' (base : List Thread) (v : Finset ℕ) : Extends base ⟨base, v.image pcKey⟩ :=
  ⟨[], v, by rw [List.append_nil]⟩

/-- A list that begins with a longer base begins with a shorter one. -/
lemma Extends.of_append {base more : List Thread} {tl : ThreadList}
    (h : Extends (base ++ more) tl) : Extends base tl := by
  obtain ⟨junk, v, rfl⟩ := h
  exact ⟨more ++ junk, v, by rw [List.append_assoc]⟩

variable (s look pos) in
/-- A step over several bytes appends threads. -/
lemma addThreadAdv_extends (h : Plain prog) (hfuel : prog.len < fuel) (pc adv : ℕ) (row : Row)
    (base : List Thread) (v : Finset ℕ) :
    Extends base (addThreadAdv look prog s fuel pc pos adv row ⟨base, v.image pcKey⟩) := by
  have hadd := addThread_eq (s := s) h look (pos + adv) hfuel ⟨pc, row, []⟩ base v
  simp only at hadd
  unfold addThreadAdv
  simp only [hadd]
  split_ifs
  · rw [List.take_left, List.drop_left]
    exact ⟨_, _, rfl⟩
  · exact ⟨_, _, rfl⟩

/-- A step over one byte appends the threads of the configuration after it. -/
lemma addThreadAdv_one (h : Plain prog) (hfuel : prog.len < fuel) (pc : ℕ) (row : Row)
    (base : List Thread) (v : Finset ℕ) :
    addThreadAdv look prog s fuel pc pos 1 row ⟨base, v.image pcKey⟩ =
      ⟨base ++ threads prog ((levelGraph prog s (pos + 1)).visit v [⟨pc, row, []⟩]),
        ((levelGraph prog s (pos + 1)).after v [⟨pc, row, []⟩]).image pcKey⟩ := by
  have hadd := addThread_eq (s := s) h look (pos + 1) hfuel ⟨pc, row, []⟩ base v
  unfold addThreadAdv
  simpa using hadd

section Before

variable {stop : ℕ}

variable (s flags look) in
/-- Away from the end of the window no thread commits, and the next list only grows. -/
lemma runThreads_extends (h : Plain prog) (hfuel : prog.len < fuel) (hpos : pos ≠ stop)
    (ts : List Thread) (base : List Thread) (v : Finset ℕ) :
    ∃ tl, runThreads look prog s flags fuel pos (some stop) ts ⟨base, v.image pcKey⟩ = (none, tl) ∧
      Extends base tl := by
  induction ts generalizing base v with
  | nil => exact ⟨_, rfl, .rfl' base v⟩
  | cons t ts ih =>
    -- whatever the thread appends, the rest appends to it
    have hcont : ∀ tl, Extends base tl → ∃ tl',
        runThreads look prog s flags fuel pos (some stop) ts tl = (none, tl') ∧
          Extends base tl' := by
      rintro _ ⟨junk, w, rfl⟩
      obtain ⟨tl', hrun, hext⟩ := ih (base ++ junk) w
      exact ⟨tl', hrun, hext.of_append⟩
    by_cases hskip : t.uSkip > 0
    · simp only [runThreads, if_pos hskip]
      exact hcont _ ⟨[_], v, rfl⟩
    · simp only [runThreads, if_neg hskip]
      rcases Option.eq_none_or_eq_some prog.insts[t.pc]? with hins | ⟨ins, hins⟩
      · simp only [hins]
        exact hcont _ (.rfl' base v)
      · have hplain := h ins (List.mem_of_getElem? hins)
        cases ins <;> simp only [hins]
        case look kind sub => exact False.elim hplain
        case backref cap pad => exact False.elim hplain
        case char lit pad =>
          split_ifs
          · have hadd := addThread_eq (s := s) h look (pos + 1) hfuel ⟨t.pc + 1, t.saves, []⟩ base v
            simp only at hadd
            rw [hadd]
            exact hcont _ ⟨_, _, rfl⟩
          · exact hcont _ (.rfl' base v)
        case anyChar pad =>
          cases anyCharAdv s pos pad with
          | none => exact hcont _ (.rfl' base v)
          | some adv => exact hcont _ (addThreadAdv_extends s look pos h hfuel _ _ _ _ _)
        case cls idx pad =>
          cases classAdv prog s pos flags idx pad with
          | none => exact hcont _ (.rfl' base v)
          | some adv => exact hcont _ (addThreadAdv_extends s look pos h hfuel _ _ _ _ _)
        case accept =>
          rw [if_neg (by simpa using fun he => hpos he.symm)]
          exact hcont _ (.rfl' base v)
        all_goals exact hcont _ (.rfl' base v)

/-- An instruction that does not wait for input consumes nothing. -/
lemma stepAdv_of_not_parks {o : Option Inst} (h : o.any Inst.parks = false) :
    stepAdv prog s flags pos o = none := by
  rcases o with _ | ins
  · rfl
  · cases ins <;> first | rfl | cases h

/-- A thread that does not commit puts what it consumes on the next list. -/
lemma runThreads_cons_toThread (h : Plain prog) (c : Config)
    (hpos : c.accepts prog = true → pos ≠ stop) (ts : List Thread) (nxt : ThreadList) :
    runThreads look prog s flags fuel pos (some stop) (c.toThread :: ts) nxt =
      runThreads look prog s flags fuel pos (some stop) ts
        (match stepAdv prog s flags pos prog.insts[c.pc]? with
          | none => nxt
          | some adv => addThreadAdv look prog s fuel (c.pc + 1) pos adv c.row nxt) := by
  have hskip : ¬ c.toThread.uSkip > 0 := Nat.lt_irrefl 0
  rw [runThreads, if_neg hskip]
  have hpc : c.toThread.pc = c.pc := rfl
  have hsaves : c.toThread.saves = c.row := rfl
  simp only [hpc, hsaves]
  rcases Option.eq_none_or_eq_some prog.insts[c.pc]? with hins | ⟨ins, hins⟩
  · simp only [hins, stepAdv]
  · have hplain := h ins (List.mem_of_getElem? hins)
    cases ins <;> simp only [hins, stepAdv]
    case backref cap pad => exact False.elim hplain
    case char lit pad => split_ifs <;> rfl
    case anyChar pad => cases anyCharAdv s pos pad <;> rfl
    case cls idx pad => cases classAdv prog s pos flags idx pad <;> rfl
    case accept =>
      have hne : pos ≠ stop := hpos (by simp [Config.accepts, hins])
      rw [if_neg (by simpa using fun he => hne he.symm)]

variable (s flags look) in
/-- Away from the end of the window, the threads of explored configurations put the
threads of their arrivals on the next list, up to the first step over several bytes. -/
lemma runThreads_threads (h : Plain prog) (hfuel : prog.len < fuel) (hpos : pos ≠ stop)
    (cs : List Config) (rest : List Thread) (base : List Thread) (v : Finset ℕ) :
    ∃ tl, runThreads look prog s flags fuel pos (some stop) (threads prog cs ++ rest)
        ⟨base, v.image pcKey⟩ = (none, tl) ∧
      Extends (base ++ threads prog ((levelGraph prog s (pos + 1)).visit v
        (arrivals prog s flags pos cs).1)) tl ∧
      ((arrivals prog s flags pos cs).2 = false → rest = [] →
        tl = ⟨base ++ threads prog ((levelGraph prog s (pos + 1)).visit v
            (arrivals prog s flags pos cs).1),
          ((levelGraph prog s (pos + 1)).after v (arrivals prog s flags pos cs).1).image pcKey⟩) := by
  induction cs generalizing base v with
  | nil =>
    obtain ⟨tl, hrun, hext⟩ := runThreads_extends s flags look h hfuel
      hpos rest base v
    refine ⟨tl, hrun, by simpa [arrivals, threads] using hext, ?_⟩
    rintro - rfl
    simp only [runThreads, Prod.mk.injEq, true_and] at hrun
    simpa [arrivals, threads] using hrun.symm
  | cons c cs ih =>
    cases hparks : c.parks prog with
    | false =>
      have hadv : stepAdv prog s flags pos prog.insts[c.pc]? = none := stepAdv_of_not_parks hparks
      have hthreads : threads prog (c :: cs) = threads prog cs := by simp [threads, hparks]
      have harr : arrivals prog s flags pos (c :: cs) = arrivals prog s flags pos cs := by
        simp only [arrivals, hadv]
      rw [hthreads, harr]
      exact ih base v
    | true =>
      have hthreads : threads prog (c :: cs) = c.toThread :: threads prog cs := by
        simp [threads, hparks]
      rw [hthreads, List.cons_append, runThreads_cons_toThread h c fun _ => hpos]
      rcases Option.eq_none_or_eq_some (stepAdv prog s flags pos prog.insts[c.pc]?) with
        hadv | ⟨adv, hadv⟩
      · simp only [arrivals, hadv]
        exact ih base v
      · by_cases hone : adv = 1
        · subst hone
          simp only [arrivals, hadv, if_true]
          rw [addThreadAdv_one h hfuel]
          set c' : Config := ⟨c.pc + 1, c.row, []⟩
          have hsplit : c' :: (arrivals prog s flags pos cs).1 =
              [c'] ++ (arrivals prog s flags pos cs).1 := rfl
          rw [hsplit, FirstArrival.Graph.visit_append, FirstArrival.Graph.after_append,
            threads_append, ← List.append_assoc]
          exact ih _ _
        · simp only [arrivals, hadv, if_neg hone]
          obtain ⟨junk, w, htl⟩ := addThreadAdv_extends s look pos h hfuel
            (c.pc + 1) adv c.row base v
          rw [htl]
          obtain ⟨tl, hrun, hext⟩ := runThreads_extends s flags look h hfuel hpos (threads prog cs ++ rest) (base ++ junk) w
          refine ⟨tl, hrun, ?_, fun hfalse => by cases hfalse⟩
          simpa [threads] using hext.of_append

end Before

/-- Nothing is consumed at the end of the input. -/
lemma stepAdv_of_length_le (hpos : s.length ≤ pos) (o : Option Inst) :
    stepAdv prog s flags pos o = none := by
  have hlt : ¬ pos < s.length := not_lt.mpr hpos
  rcases o with _ | ins
  · rfl
  · cases ins <;> simp [stepAdv, anyCharAdv, classAdv, hlt]

/-- A configuration on `Match` waits. -/
lemma parks_of_accepts {c : Config} (h : c.accepts prog = true) : c.parks prog = true := by
  simp only [Config.accepts, beq_iff_eq] at h
  simp [Config.parks, h, Inst.parks]

variable (s flags look fuel pos) in
/-- At the end of the window the first thread on `Match` commits. -/
lemma runThreads_last_found (h : Plain prog) {cs : List Config} {c : Config}
    (hfind : cs.find? (Config.accepts prog) = some c) (rest : List Thread) (nxt : ThreadList) :
    ∃ tl, runThreads look prog s flags fuel pos (some pos) (threads prog cs ++ rest) nxt =
        (some c.row, tl) ∧ (s.length ≤ pos → tl = nxt) := by
  induction cs generalizing nxt with
  | nil => simp at hfind
  | cons d cs ih =>
    cases hacc : d.accepts prog with
    | true =>
      obtain rfl : d = c := by simpa [hacc] using hfind
      have hthreads : threads prog (d :: cs) = d.toThread :: threads prog cs := by
        simp [threads, parks_of_accepts hacc]
      have hins : prog.insts[d.pc]? = some .accept := by simpa [Config.accepts] using hacc
      have hskip : ¬ d.toThread.uSkip > 0 := Nat.lt_irrefl 0
      refine ⟨nxt, ?_, fun _ => rfl⟩
      rw [hthreads, List.cons_append, runThreads, if_neg hskip]
      simp [Config.toThread, hins]
    | false =>
      have hfind' : cs.find? (Config.accepts prog) = some c := by simpa [hacc] using hfind
      cases hparks : d.parks prog with
      | false =>
        have hthreads : threads prog (d :: cs) = threads prog cs := by simp [threads, hparks]
        rw [hthreads]
        exact ih hfind' nxt
      | true =>
        have hthreads : threads prog (d :: cs) = d.toThread :: threads prog cs := by
          simp [threads, hparks]
        rw [hthreads, List.cons_append,
          runThreads_cons_toThread h d fun ht => by rw [hacc] at ht; cases ht]
        obtain ⟨tl, hrun, htl⟩ := ih hfind' _
        refine ⟨tl, hrun, fun hlen => ?_⟩
        rw [htl hlen, stepAdv_of_length_le hlen]

variable (s flags look fuel pos) in
/-- At the end of the window nothing commits without a thread on `Match`. -/
lemma runThreads_last_none (h : Plain prog) {cs : List Config}
    (hfind : cs.find? (Config.accepts prog) = none) (nxt : ThreadList) :
    ∃ tl, runThreads look prog s flags fuel pos (some pos) (threads prog cs) nxt = (none, tl) ∧
      (s.length ≤ pos → tl = nxt) := by
  induction cs generalizing nxt with
  | nil => exact ⟨nxt, rfl, fun _ => rfl⟩
  | cons d cs ih =>
    cases hacc : d.accepts prog with
    | true => simp [hacc] at hfind
    | false =>
      have hfind' : cs.find? (Config.accepts prog) = none := by simpa [hacc] using hfind
      cases hparks : d.parks prog with
      | false =>
        have hthreads : threads prog (d :: cs) = threads prog cs := by simp [threads, hparks]
        rw [hthreads]
        exact ih hfind' nxt
      | true =>
        have hthreads : threads prog (d :: cs) = d.toThread :: threads prog cs := by
          simp [threads, hparks]
        rw [hthreads, runThreads_cons_toThread h d fun ht => by rw [hacc] at ht; cases ht]
        obtain ⟨tl, hrun, htl⟩ := ih hfind' _
        refine ⟨tl, hrun, fun hlen => ?_⟩
        rw [htl hlen, stepAdv_of_length_le hlen]

/-! ### The whole loop -/

/-- The answer of the VM from the state of its loop. -/
def finishLoop (prog : Program) (s : List UInt8) (stop : ℕ)
    (r : List Thread × Option (ℕ × Row)) : Option (ℕ × Row) :=
  match matchAtEoi prog s.length (some stop) r.1 with
  | some m => some m
  | none => r.2

/-- Nothing more is accepted when the list is empty. -/
lemma finishLoop_nil (stop : ℕ) (best : Option (ℕ × Row)) :
    finishLoop prog s stop ([], best) = best := by
  simp [finishLoop, matchAtEoi]

/-- Nothing more is accepted at the end of an input that the window does not reach. -/
lemma finishLoop_of_ne {stop : ℕ} (h : stop ≠ s.length) (cur : List Thread)
    (best : Option (ℕ × Row)) : finishLoop prog s stop (cur, best) = best := by
  simp [finishLoop, matchAtEoi, h]

/-- The loop past the end of the window changes nothing. -/
lemma finishLoop_vmLoop_past (stop : ℕ) (hstop : stop ≤ s.length) {tl : ThreadList}
    (htl : s.length ≤ stop → tl = .empty) (best : Option (ℕ × Row)) :
    finishLoop prog s stop
      (if tl.list.isEmpty then ([], best)
        else vmLoop look prog s flags fuel (some stop) (s.length - stop) (stop + 1) tl.list best) =
      best := by
  split_ifs with hempty
  · exact finishLoop_nil stop best
  · have hne : stop ≠ s.length := by
      intro he
      rw [htl he.ge] at hempty
      exact hempty rfl
    obtain ⟨n, hn⟩ : ∃ n, s.length - stop = n + 1 := ⟨s.length - stop - 1, by omega⟩
    rw [hn, vmLoop, if_pos (by simp)]
    exact finishLoop_of_ne hne _ _

/-- The last match after a step at `pos`. -/
def commit (pos : ℕ) : Option Row → Option (ℕ × Row) → Option (ℕ × Row)
  | some row, _ => some (pos, row)
  | none, best => best

/-- One turn of the loop inside the window. -/
lemma vmLoop_succ {stop : ℕ} (hpos : pos ≤ stop) (hstop : stop ≤ s.length) {cur : List Thread}
    {best : Option (ℕ × Row)} {found : Option Row} {tl : ThreadList}
    (hrun : runThreads look prog s flags fuel pos (some stop) cur .empty = (found, tl)) :
    vmLoop look prog s flags fuel (some stop) (s.length + 1 - pos) pos cur best =
      if tl.list.isEmpty then ([], commit pos found best)
      else vmLoop look prog s flags fuel (some stop) (s.length - pos) (pos + 1) tl.list
        (commit pos found best) := by
  have hsteps : s.length + 1 - pos = (s.length - pos) + 1 := by omega
  rw [hsteps, vmLoop, if_neg (by simpa using hpos)]
  simp only [hrun]
  cases found <;> rfl

/-- The loop over an empty list finds nothing. -/
lemma finishLoop_vmLoop_nil (stop steps pos : ℕ) :
    finishLoop prog s stop (vmLoop look prog s flags fuel (some stop) steps pos [] none) = none := by
  cases steps with
  | zero => exact finishLoop_nil stop none
  | succ steps =>
    rw [vmLoop]
    split_ifs
    · exact finishLoop_nil stop none
    · exact finishLoop_nil stop none

variable (look) in
/-- A match of the exploration is the match of the VM, whatever threads of lower priority
follow. -/
theorem vmLoop_of_found (h : Plain prog) (hfuel : prog.len < fuel) {stop : ℕ}
    (hstop : stop ≤ s.length) {vs : List (Finset ℕ)} (hvs : ∀ w ∈ vs, w = ∅) {pos : ℕ}
    (hpos : pos + vs.length = stop) {v : Finset ℕ} {cs : List Config} {row : Row}
    (hbatch : batch prog s flags pos v vs cs = .found row) (rest : List Thread)
    (best : Option (ℕ × Row)) :
    finishLoop prog s stop (vmLoop look prog s flags fuel (some stop) (s.length + 1 - pos) pos
      (threads prog ((levelGraph prog s pos).visit v cs) ++ rest) best) = some (stop, row) := by
  induction vs generalizing pos v cs rest best with
  | nil =>
    obtain rfl : pos = stop := by simpa using hpos
    simp only [batch] at hbatch
    split at hbatch
    · next c hfind =>
      obtain rfl : c.row = row := Explored.found.inj hbatch
      obtain ⟨tl, hrun, htl⟩ := runThreads_last_found s flags look fuel pos h hfind rest .empty
      rw [vmLoop_succ le_rfl hstop hrun]
      exact finishLoop_vmLoop_past pos hstop htl _
    · cases hbatch
  | cons w vs ih =>
    obtain rfl : w = ∅ := hvs w List.mem_cons_self
    rw [List.length_cons] at hpos
    have hlt : pos ≠ stop := by omega
    have hfound : batch prog s flags (pos + 1) ∅ vs
        (arrivals prog s flags pos ((levelGraph prog s pos).visit v cs)).1 = .found row := by
      simp only [batch] at hbatch
      cases hb : batch prog s flags (pos + 1) ∅ vs
          (arrivals prog s flags pos ((levelGraph prog s pos).visit v cs)).1 with
      | found row' =>
        rw [hb] at hbatch
        exact hbatch
      | wide =>
        rw [hb] at hbatch
        cases hbatch
      | none w ws =>
        rw [hb] at hbatch
        simp only [Explored.none_andThen] at hbatch
        split at hbatch <;> cases hbatch
    obtain ⟨tl, hrun, hext, -⟩ := runThreads_threads s flags look h hfuel
      hlt ((levelGraph prog s pos).visit v cs) rest [] ∅
    rw [vmLoop_succ (by omega) hstop hrun]
    obtain ⟨junk, w, rfl⟩ := hext
    have hih := ih (fun w hw => hvs w (List.mem_cons_of_mem _ hw)) (by omega : pos + 1 + vs.length = stop)
      hfound junk
    have hsteps : s.length + 1 - (pos + 1) = s.length - pos := by omega
    rw [hsteps] at hih
    simp only [List.nil_append]
    split_ifs with hempty
    · -- an empty list would end the loop without a match
      rw [List.isEmpty_iff] at hempty
      have hnone := hih none
      rw [hempty, finishLoop_vmLoop_nil] at hnone
      cases hnone
    · exact hih best

variable (look) in
/-- Where the exploration finds nothing, and no step over several bytes, neither does the
VM. -/
theorem vmLoop_of_none (h : Plain prog) (hfuel : prog.len < fuel) {stop : ℕ}
    (hstop : stop ≤ s.length) {vs : List (Finset ℕ)} (hvs : ∀ w ∈ vs, w = ∅) {pos : ℕ}
    (hpos : pos + vs.length = stop) {v v' : Finset ℕ} {vs' : List (Finset ℕ)} {cs : List Config}
    (hbatch : batch prog s flags pos v vs cs = .none v' vs') (best : Option (ℕ × Row)) :
    finishLoop prog s stop (vmLoop look prog s flags fuel (some stop) (s.length + 1 - pos) pos
      (threads prog ((levelGraph prog s pos).visit v cs)) best) = best := by
  induction vs generalizing pos v v' vs' cs with
  | nil =>
    obtain rfl : pos = stop := by simpa using hpos
    simp only [batch] at hbatch
    split at hbatch
    · cases hbatch
    · next hfind =>
      obtain ⟨tl, hrun, htl⟩ := runThreads_last_none s flags look fuel pos h hfind .empty
      rw [vmLoop_succ le_rfl hstop hrun]
      exact finishLoop_vmLoop_past pos hstop htl _
  | cons w vs ih =>
    obtain rfl : w = ∅ := hvs w List.mem_cons_self
    rw [List.length_cons] at hpos
    have hlt : pos ≠ stop := by omega
    simp only [batch] at hbatch
    cases hb : batch prog s flags (pos + 1) ∅ vs
        (arrivals prog s flags pos ((levelGraph prog s pos).visit v cs)).1 with
    | found row =>
      rw [hb] at hbatch
      cases hbatch
    | wide =>
      rw [hb] at hbatch
      cases hbatch
    | none w' ws =>
      rw [hb, Explored.none_andThen] at hbatch
      have hwide : (arrivals prog s flags pos ((levelGraph prog s pos).visit v cs)).2 = false := by
        cases hw : (arrivals prog s flags pos ((levelGraph prog s pos).visit v cs)).2 with
        | false => rfl
        | true =>
          rw [hw] at hbatch
          cases hbatch
      obtain ⟨tl, hrun, -, htl⟩ := runThreads_threads s flags look h
        hfuel hlt ((levelGraph prog s pos).visit v cs) [] [] ∅
      rw [List.append_nil] at hrun
      obtain rfl := htl hwide rfl
      rw [vmLoop_succ (by omega) hstop hrun]
      have hih := ih (fun w hw => hvs w (List.mem_cons_of_mem _ hw)) (by omega : pos + 1 + vs.length = stop) hb
      have hsteps : s.length + 1 - (pos + 1) = s.length - pos := by omega
      rw [hsteps] at hih
      simp only [List.nil_append]
      split_ifs
      · exact finishLoop_nil stop best
      · exact hih

/-- The exploration of the window from the start of the program. -/
def exploreWindow (prog : Program) (s : List UInt8) (flags : UInt8) (st stop : ℕ) : Explored :=
  batch prog s flags st ∅ (List.replicate (stop - st) ∅)
    [⟨0, List.replicate prog.detectStride none, []⟩]

section Window

variable {st stop : ℕ}

/-- The Pike VM with an end target, from the state of its loop. -/
lemma vmMatchAt_eq (h : Plain prog) (hfuel : prog.len < fuel) :
    vmMatchAt look fuel prog s st flags (some stop) =
      finishLoop prog s stop (vmLoop look prog s flags fuel (some stop) (s.length + 1 - st) st
        (threads prog ((levelGraph prog s st).visit ∅
          [⟨0, List.replicate prog.detectStride none, []⟩])) none) := by
  have hadd := addThread_eq (s := s) h look st hfuel
    ⟨0, List.replicate prog.detectStride none, []⟩ [] ∅
  simp only [Finset.image_empty, List.nil_append] at hadd
  unfold vmMatchAt
  rw [ThreadList.empty, hadd]
  rfl

/-- The VM finds the match of the exploration. -/
theorem vmMatchAt_of_found (h : Plain prog) (hfuel : prog.len < fuel) (hst : st ≤ stop)
    (hstop : stop ≤ s.length) {row : Row}
    (hexp : exploreWindow prog s flags st stop = .found row) :
    vmMatchAt look fuel prog s st flags (some stop) = some (stop, row) := by
  have hvs : ∀ w ∈ List.replicate (stop - st) (∅ : Finset ℕ), w = ∅ := fun w hw =>
    List.eq_of_mem_replicate hw
  have hfound := vmLoop_of_found look h hfuel hstop hvs
    (by rw [List.length_replicate]; omega) hexp [] none
  rwa [List.append_nil, ← vmMatchAt_eq h hfuel] at hfound

/-- The VM finds nothing where the exploration finds nothing. -/
theorem vmMatchAt_of_none (h : Plain prog) (hfuel : prog.len < fuel) (hst : st ≤ stop)
    (hstop : stop ≤ s.length) {v : Finset ℕ} {vs : List (Finset ℕ)}
    (hexp : exploreWindow prog s flags st stop = .none v vs) :
    vmMatchAt look fuel prog s st flags (some stop) = none := by
  have hvs : ∀ w ∈ List.replicate (stop - st) (∅ : Finset ℕ), w = ∅ := fun w hw =>
    List.eq_of_mem_replicate hw
  have hnone := vmLoop_of_none look h hfuel hstop hvs
    (by rw [List.length_replicate]; omega) hexp none
  rwa [← vmMatchAt_eq h hfuel] at hnone

end Window

end

end Torajs.Regex
