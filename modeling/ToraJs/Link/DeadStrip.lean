import Mathlib.Data.List.Dedup
import Mathlib.Data.List.Sort
import ToraJs.Lib.CongruentPlacement

/-!
# Cutting a section to its live atoms

`dead_strip_rewrite.rs` and the row half of `dead_strip_rewrite_tables.rs`: the live atoms of a
section are merged into runs and packed, every run congruent to its old offset modulo the section's
placement modulus; the rows of live atoms move with them, the rows of dead atoms are left at the
start of their gap.

Offsets are relative to the section.
-/

namespace Torajs.Link.DeadStrip

open Placement

/-! ### Runs -/

/-- `Run`. -/
structure Run where
  oldStart : ℕ
  len : ℕ
  newStart : ℕ
  deriving DecidableEq, Repr

/-- One live atom in the loop of `build_runs`; the runs stand newest first. -/
def addAtom (a : ℕ) (st : List Run × ℕ) (atom : ℕ × ℕ) : List Run × ℕ :=
  let rs := atom.1
  let re := atom.2
  let newStart := st.2 + (rs % a + a - st.2 % a) % a
  match st.1 with
  | last :: runs =>
    if last.oldStart + last.len = rs then
      (⟨last.oldStart, last.len + (re - rs), last.newStart⟩ :: runs, st.2 + (re - rs))
    else (⟨rs, re - rs, newStart⟩ :: last :: runs, newStart + (re - rs))
  | [] => ([⟨rs, re - rs, newStart⟩], newStart + (re - rs))

/-- `build_runs`: the runs and the size of the payload. -/
def buildRuns (atoms : List (ℕ × ℕ)) (live : List Bool) (a : ℕ) : List Run × ℕ :=
  let st := (atoms.zip live).foldl
    (fun st al => if !al.2 || al.1.2 == al.1.1 then st else addAtom a st al.1) ([], 0)
  (st.1.reverse, st.2)

/-- The last run that starts no later than an offset: the one before the `partition_point`. -/
def runBefore (runs : List Run) (o : ℕ) : Option Run :=
  (runs.takeWhile fun r => r.oldStart ≤ o).getLast?

/-- `Pass::remap`. -/
def remap (runs : List Run) (o : ℕ) : Option ℕ :=
  (runBefore runs o).bind fun r =>
    if o < r.oldStart + r.len then some (r.newStart + (o - r.oldStart)) else none

/-- `dead_row_addr` at `GapStart`. -/
def deadRowAddr (runs : List Run) (o : ℕ) : ℕ :=
  match runBefore runs o with
  | none => 0
  | some r => r.newStart + r.len

/-- A row of the section in `walk_row`, the dead ones at `GapStart`. -/
def moveRow (runs : List Run) (o : ℕ) : ℕ := (remap runs o).getD (deadRowAddr runs o)

/-! ### Sections -/

/-- A section: the offsets of its rows, and its size. -/
structure Sect where
  rows : List ℕ
  size : ℕ

/-- The starts of the atoms in `section_rows`: the offsets of the rows, and the section's start. -/
def Sect.starts (s : Sect) : List ℕ :=
  let starts := (s.rows.insertionSort (· ≤ ·)).dedup
  match starts with
  | [] => [0]
  | f :: _ => if 0 < f then 0 :: starts else starts

/-- The atoms between starts. -/
def atomsOf : List ℕ → ℕ → List (ℕ × ℕ)
  | [], _ => []
  | [s], size => [(s, size)]
  | s :: t :: starts, size => (s, t) :: atomsOf (t :: starts) size

/-- The atoms of a section. -/
def Sect.atoms (s : Sect) : List (ℕ × ℕ) := atomsOf s.starts s.size

/-- The cut of a section: what is left of it, and where its bytes go. -/
structure CutSect where
  sect : Sect
  moved : ℕ → Option ℕ
  row : ℕ → ℕ

/-- The cut of a section to the atoms that start in a set, as `eligible_sections` and `plan` make
it: a section without a dead atom is left alone, and one whose cut buys no bytes unless dead
content has to go. -/
def Sect.cut (s : Sect) (a : ℕ) (live : ℕ → Bool) (deadContent : Bool) : CutSect :=
  let flags := s.atoms.map fun at' => live at'.1
  let r := buildRuns s.atoms flags a
  if (∀ l ∈ flags, l = true) ∨ s.size ≤ r.2 ∧ deadContent = false then ⟨s, some, id⟩
  else ⟨⟨s.rows.map (moveRow r.1), r.2⟩, remap r.1, moveRow r.1⟩

/-- The live set of a cut section: the atoms that start where the live ones were moved. -/
def movedLive (s : Sect) (row : ℕ → ℕ) (live : ℕ → Bool) (x : ℕ) : Bool :=
  (s.starts.filter live).any fun o => row o == x

end Torajs.Link.DeadStrip
