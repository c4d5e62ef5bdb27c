import ToraJs.Regex.Dfa.BuildEnds

/-!
# The longest accepted prefix

The walk over the table of a program without property classes answers the longest prefix that the
set simulation accepts, where every `^` is judged as by the byte in front of it.
-/

namespace Torajs.Regex.Dfa

open Automaton

/-- The walk over a table that is built is the walk of the automaton. -/
lemma dfaSearchFrom_eq_search {prog : SearchProgram} {flags : UInt8} {n : ℕ} {dfa : DfaProgram}
    (h : build prog flags none n = some (.table dfa)) (hpoison : dfa.poisoned = false)
    (entry : Entry) (hay : List UInt8) :
    (dfaSearchFrom eagerTable prog.toProgram hay dfa (dfa.starts.enter entry)).1 =
      (subsetAutomaton prog.toProgram (progUsesWordBoundary prog) flags).search prog.toProgram hay
        (keyOf (progUsesWordBoundary prog) (startItem prog.toProgram entry.attr)) := by
  obtain ⟨pool, hqueued, hwork, hstarts, heq⟩ := build_spec h hpoison
  have hserves := finishDfa_serves hqueued hwork hstarts
  have hrep : pool.Rep (dfa.starts.enter entry)
      (keyOf (progUsesWordBoundary prog) (startItem prog.toProgram entry.attr)) := by
    unfold Starts.enter
    cases entry.attr with
    | textStart => exact hstarts.start
    | word => exact hstarts.midWord
    | nonWord => exact hstarts.midNonword
  have hsearch := @Serves.dfaSearchFrom_agrees _ _ _ _ _ _ _ prog.toProgram hay hserves _ _ _ heq hrep
  rcases hrun : dfaSearchFrom eagerTable prog.toProgram hay dfa (dfa.starts.enter entry) with ⟨out, t⟩
  rw [hrun] at hsearch
  exact (hsearch.resolve_left fun habs => habs.2).1

/-- The table of a program without property classes is built, and where every `^` is judged as by
the byte in front of it, its walk answers the longest prefix that the simulation accepts. -/
theorem dfaSearch_longest (prog : SearchProgram) (hprop : NoPropertyClass prog.toProgram)
    (flags : UInt8) : ∃ n dfa, (∀ m, n ≤ m → build prog flags none m = some (.table dfa)) ∧
      ∀ entry hay, WellJudged prog.toProgram (progUsesWordBoundary prog) entry hay →
        IsLongest (accepts prog.toProgram entry hay) hay.length
          (dfaSearchFrom eagerTable prog.toProgram hay dfa (dfa.starts.enter entry)).1 := by
  obtain ⟨n, dfa, hbuild, hpoison⟩ := build_ends hprop flags
  refine ⟨n, dfa, fun m hm => build_mono hm hbuild, fun entry hay hjudged => ?_⟩
  have hno : progUsesWordBoundary prog = false → NoWordBoundary prog.toProgram :=
    noWordBoundary_of prog
  have hrun := run_eq_lastBelow flags hprop hno hjudged (startItem_shows hjudged)
    (Nat.zero_le _)
  have hlongest := isLongest_lastBelow (accepts prog.toProgram entry hay) hay.length
  rw [← hrun] at hlongest
  rw [dfaSearchFrom_eq_search hbuild hpoison]
  exact hlongest

/-- The program of `\ba`. -/
def boundaryA : SearchProgram where
  insts := [.wBound, .char 0x61 0, .accept]
  classes := []
  subInsts := []
  prefixByte := some 0x61
  hasMlAnchorB := false

/-- The table of `\ba` answers the longest prefix of `ab` at the text start. -/
theorem dfaSearch_longest_boundaryA : ∃ n dfa,
    (∀ m, n ≤ m → build boundaryA 0 none m = some (.table dfa)) ∧
      IsLongest (accepts boundaryA.toProgram .textStart [0x61, 0x62]) 2
        (dfaSearchFrom eagerTable boundaryA.toProgram [0x61, 0x62] dfa
          (dfa.starts.enter .textStart)).1 := by
  have hprop : NoPropertyClass boundaryA.toProgram := fun _ h => absurd h List.not_mem_nil
  have hjudged : WellJudged boundaryA.toProgram (progUsesWordBoundary boundaryA) .textStart
      [0x61, 0x62] := by
    intro i _ pc _ pad hins
    have hmem : Inst.anchorB pad ∈ boundaryA.insts := List.mem_of_getElem? hins
    simp [boundaryA] at hmem
  obtain ⟨n, dfa, hbuild, hsearch⟩ := dfaSearch_longest boundaryA hprop 0
  exact ⟨n, dfa, hbuild, hsearch .textStart [0x61, 0x62] hjudged⟩

/-! ### A line feed, a word boundary and a line start -/

/-- The program of `\n\b^a` with `m`. -/
def boundaryThenLine : SearchProgram where
  insts := [.char 0x0A 0, .wBound, .anchorB RE_FLAG_M, .char 0x61 0, .accept]
  classes := []
  subInsts := []
  prefixByte := some 0x0A
  hasMlAnchorB := true

/-- The table of `\n\b^a` with `m` finds nothing in a line feed and an `a`, where the simulation
accepts both bytes. -/
theorem not_longest_boundaryThenLine : ∃ n dfa,
    (∀ m, n ≤ m → build boundaryThenLine RE_FLAG_M none m = some (.table dfa)) ∧
      ¬ IsLongest (accepts boundaryThenLine.toProgram .textStart [0x0A, 0x61]) 2
        (dfaSearchFrom eagerTable boundaryThenLine.toProgram [0x0A, 0x61] dfa
          (dfa.starts.enter .textStart)).1 := by
  have hprop : NoPropertyClass boundaryThenLine.toProgram := fun _ h => absurd h List.not_mem_nil
  obtain ⟨n, dfa, hbuild, hpoison⟩ := build_ends hprop RE_FLAG_M
  refine ⟨n, dfa, fun m hm => build_mono hm hbuild, fun hlongest => ?_⟩
  rw [dfaSearchFrom_eq_search hbuild hpoison] at hlongest
  have hnone : (subsetAutomaton boundaryThenLine.toProgram (progUsesWordBoundary boundaryThenLine)
      RE_FLAG_M).search boundaryThenLine.toProgram [0x0A, 0x61]
        (keyOf (progUsesWordBoundary boundaryThenLine)
          (startItem boundaryThenLine.toProgram (Entry.attr .textStart))) = none := by
    decide +kernel
  have haccepts : accepts boundaryThenLine.toProgram .textStart [0x0A, 0x61] 2 = true := by
    decide +kernel
  rw [hnone] at hlongest
  exact absurd (haccepts.symm.trans (hlongest 2 le_rfl)) (by decide)

end Torajs.Regex.Dfa
