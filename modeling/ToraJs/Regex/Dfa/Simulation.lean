import ToraJs.Regex.Dfa.Reach

/-!
# The set simulation

The simulation of a program by sets of program counters, without states, keys or classes of
bytes: at every cursor the closure is taken with the bytes that really stand around it, and a
byte moves the program counters on or parks them behind the tail of a character.  The automaton
of the subset construction knows of the byte in front only what a state keeps; where that is
enough, it walks along the simulation.
-/

namespace Torajs.Regex.Dfa

/-! ### The simulation -/

/-- Where a search enters: at the text start, or behind a byte. -/
inductive Entry where
  | textStart
  | behind (byte : UInt8)
  deriving DecidableEq, Repr

/-- The byte in front of an entry. -/
def Entry.leftByte : Entry → Option UInt8
  | .textStart => none
  | .behind byte => some byte

/-- The class of an entry. -/
def Entry.attr : Entry → LeftByteAttr
  | .textStart => .textStart
  | .behind byte => attrOfByte byte

/-- The entry state of an entry. -/
def Starts.enter (starts : Starts) (entry : Entry) : ℕ :=
  match entry.attr with
  | .textStart => starts.start
  | .word => starts.midWord
  | .nonWord => starts.midNonword

/-- The program counters at a cursor, before the closure, and those that are parked. -/
structure Threads where
  seeds : List ℕ
  parked : Deferred

/-- The program counters that were waiting for their last byte, once `byte` is it. -/
def promoted (byte : UInt8) (parked : List ℕ) : List ℕ :=
  (parked.filter fun pc => !(ltPending pc && (byte == 0xA8 || byte == 0xA9))).map clearLtPending

/-- The threads behind `byte`, from those in front of it and from what the byte step gives. -/
def Threads.after (ts : Threads) (byte : UInt8) (step : List ℕ × Deferred) : Threads :=
  if 0x80 ≤ byte ∧ byte ≤ 0xBF then
    { seeds := step.1 ++ promoted byte ts.parked.one
      parked :=
        { one := (if byte = 0x80 then ts.parked.two else ts.parked.two.map clearLtPending) ++
            step.2.one
          two := ts.parked.three ++ step.2.two
          three := step.2.three } }
  else ⟨step.1, step.2⟩

section Simulation

variable (prog : Program) (entry : Entry) (hay : List UInt8)

/-- The context of a cursor. -/
def ctxAt (i : ℕ) : PositionCtx where
  leftByte := if i = 0 then entry.leftByte else some (byteAt hay (i - 1))
  isTextStart := decide (i = 0 ∧ entry = .textStart)
  isTextEnd := decide (i = hay.length)

/-- The closure of seeds at a cursor. -/
def closedAt (seeds : List ℕ) (i : ℕ) : List ℕ :=
  closureInto prog seeds (ctxAt entry hay i) (some ((ctxAt entry hay i).atWordBoundary hay[i]?))

/-- The threads at a cursor. -/
def threads : ℕ → Threads
  | 0 => ⟨[0], {}⟩
  | i + 1 => (threads i).after (byteAt hay i)
      (byteStepInto prog (closedAt prog entry hay (threads i).seeds i) (byteAt hay i))

/-- The closure at a cursor. -/
def closure (i : ℕ) : List ℕ := closedAt prog entry hay (threads prog entry hay i).seeds i

/-- The simulation accepts the first `n` bytes. -/
def accepts (n : ℕ) : Bool := pcSetIsAccept prog (closure prog entry hay n)

end Simulation

/-- The greatest number up to `len` that satisfies `p`. -/
def IsLongest (p : ℕ → Bool) (len : ℕ) : Option ℕ → Prop
  | some n => n ≤ len ∧ p n = true ∧ ∀ m ≤ len, p m = true → m ≤ n
  | none => ∀ m ≤ len, p m = false

/-! ### What a state knows -/

section Known

variable (prog : Program) (split : Bool) (entry : Entry) (hay : List UInt8)

/-- The context of a cursor without what lies ahead. -/
def leftCtx (i : ℕ) : PositionCtx := { ctxAt entry hay i with isTextEnd := false }

/-- What is reached at a cursor without what lies ahead. -/
def readyAt (i : ℕ) : List ℕ :=
  closureSorted prog (threads prog entry hay i).seeds (leftCtx entry hay i)

/-- The class of the byte in front of a cursor. -/
def attrAt (i : ℕ) : LeftByteAttr := if i = 0 then entry.attr else attrOfByte (byteAt hay (i - 1))

/-- The class that the state at a cursor stands for: without word boundaries it is the text start
wherever the same is reached as there. -/
def seenAttr (i : ℕ) : LeftByteAttr :=
  if split then attrAt entry hay i
  else if readyAt prog entry hay i = closureSorted prog [0] (ctxFor .textStart) ∧
      (threads prog entry hay i).parked.isEmpty = true then .textStart
  else .nonWord

/-- The context that a `^` is judged in: the true one where it is reached without what lies
ahead, and else that of the class. -/
def judgedIn (i pc : ℕ) : PositionCtx :=
  if pc ∈ readyAt prog entry hay i then
    if i = 0 then ctxFor entry.attr else ctxAt entry hay i
  else ctxFor (seenAttr prog split entry hay i)

/-- Every `^` that the simulation reaches is judged as by the byte in front of it. -/
def WellJudged : Prop :=
  ∀ i ≤ hay.length, ∀ pc ∈ closure prog entry hay i, ∀ pad, prog.insts[pc]? = some (.anchorB pad) →
    anchorBAdvances (judgedIn prog split entry hay i pc) pad =
      anchorBAdvances (ctxAt entry hay i) pad

end Known

/-! ### Longest prefixes -/

/-- The greatest number below `i` that satisfies `p`. -/
def lastBelow (p : ℕ → Bool) : ℕ → Option ℕ
  | 0 => none
  | i + 1 => if p i then some i else lastBelow p i

/-- The last number is the longest. -/
lemma isLongest_lastBelow (p : ℕ → Bool) (len : ℕ) : IsLongest p len (lastBelow p (len + 1)) := by
  induction len with
  | zero =>
    cases hp : p 0 with
    | true =>
      simp only [lastBelow, hp, if_true]
      exact ⟨le_rfl, hp, fun m hm _ => hm⟩
    | false =>
      simp only [lastBelow, hp, Bool.false_eq_true, if_false]
      intro m hm
      rwa [Nat.le_zero.mp hm]
  | succ len ih =>
    rw [lastBelow]
    split_ifs with hp
    · exact ⟨le_rfl, hp, fun m hm _ => hm⟩
    · have hsucc : ∀ m ≤ len + 1, p m = true → m ≤ len := by
        intro m hm hpm
        rcases Nat.lt_or_ge len m with hlt | hle
        · exact absurd (Nat.le_antisymm hm hlt ▸ hpm) hp
        · exact hle
      cases hout : lastBelow p (len + 1) with
      | none =>
        rw [hout] at ih
        intro m hm
        by_contra hpm
        have hpm' : p m = true := by simpa using hpm
        exact hpm (ih m (hsucc m hm hpm'))
      | some n =>
        rw [hout] at ih
        exact ⟨Nat.le_succ_of_le ih.1, ih.2.1, fun m hm hpm => ih.2.2 m (hsucc m hm hpm) hpm⟩

/-- Where nothing is found from `i` on, the last number is below `i`. -/
lemma lastBelow_eq {p : ℕ → Bool} {i : ℕ} (n : ℕ) (h : ∀ m, i ≤ m → p m = false) :
    lastBelow p (i + n) = lastBelow p i := by
  induction n with
  | zero => rfl
  | succ n ih => rw [← Nat.add_assoc, lastBelow, h (i + n) (Nat.le_add_right i n), if_neg (by simp), ih]

end Torajs.Regex.Dfa
