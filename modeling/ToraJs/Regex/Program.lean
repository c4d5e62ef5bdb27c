import ToraJs.Regex.Text

/-!
# Regex programs

The instruction set the compiler emits and the matchers run, with the character classes
the instructions refer to.  An instruction carries the effective `i`, `m` and `s` bits of
its atom in `pad`.  Jump targets are program counters; a negative target of the source,
which no matcher follows, is not representable.
-/

namespace Torajs.Regex

/-! ### Character classes -/

/-- A range of code points of a property table. -/
structure UPropRange where
  lo : ℕ
  hi : ℕ
  deriving DecidableEq, Repr

/-- The binary search of `uprop_range_contains` between `lo` and `lo + n`. -/
def upropSearch (t : List UPropRange) (cp : ℕ) : ℕ → ℕ → ℕ → Bool
  | 0, _, _ => false
  | fuel + 1, lo, hi =>
    if lo < hi then
      let mid := (lo + (hi - 1)) / 2
      match t[mid]? with
      | some r =>
        if cp < r.lo then upropSearch t cp fuel lo mid
        else if cp > r.hi then upropSearch t cp fuel (mid + 1) hi
        else true
      | none => false
    else false

/-- `uprop_range_contains`; the bounds are half open, and each round halves them. -/
def upropRangeContains (t : List UPropRange) (cp : ℕ) : Bool :=
  upropSearch t cp (t.length + 1) 0 t.length

/-- `CharClass`. -/
structure CharClass where
  bits : BitVec 256 := 0
  negate : Bool := false
  uPropTables : List (List UPropRange) := []
  ownedRanges : List UPropRange := []
  byteOnly : Bool := false
  deriving DecidableEq, Repr

namespace CharClass

/-- `CharClass::raw_test`. -/
def rawTest (cc : CharClass) (ch : UInt8) : Bool := cc.bits.getLsbD ch.toNat

/-- `CharClass::raw_test_cp`. -/
def rawTestCp (cc : CharClass) (cp : ℕ) : Bool :=
  (decide (cp < 256) && cc.bits.getLsbD cp) ||
    (decide (0x80 ≤ cp) &&
      (cc.uPropTables.any (upropRangeContains · cp) || upropRangeContains cc.ownedRanges cp))

/-- `CharClass::test_fold`: the case pair joins the raw set before the negation. -/
def testFold (cc : CharClass) (ch : UInt8) (ci : Bool) : Bool :=
  let inRaw := cc.rawTest ch || (ci && match asciiCasePair ch with
    | some p => cc.rawTest p
    | none => false)
  if cc.negate then !inRaw else inRaw

/-- `CharClass::test_cp_fold`. -/
def testCpFold (cc : CharClass) (cp : ℕ) (ci : Bool) : Bool :=
  let inRaw := cc.rawTestCp cp || (ci && decide (cp < 128) &&
    match asciiCasePair (UInt8.ofNat cp) with
    | some p => cc.rawTest p
    | none => false)
  if cc.negate then !inRaw else inRaw

end CharClass

/-! ### Instructions -/

/-- The four lookaround opcodes. -/
inductive LookKind where
  | ahead | negAhead | behind | negBehind
  deriving DecidableEq, Repr

/-- `Inst`: the opcode with the operands it uses. -/
inductive Inst where
  | char (lit : ℕ) (pad : UInt8)
  | anyChar (pad : UInt8)
  | cls (idx : ℕ) (pad : UInt8)
  | anchorB (pad : UInt8)
  | anchorE (pad : UInt8)
  | wBound
  | nwBound
  | jmp (target : ℕ)
  | split (a b : ℕ)
  | accept
  | save (slot : ℕ)
  | look (kind : LookKind) (sub : ℕ)
  | backref (cap : ℕ) (pad : UInt8)
  | saveReset (first stop : ℕ)
  | iterStart
  | iterCheck (start : ℕ)
  deriving DecidableEq, Repr

/-- `Inst::byte`: the literal of a `Char` as a haystack byte. -/
def Inst.byte (lit : ℕ) : UInt8 := UInt8.ofNat lit

/-- `Program`, without the fields that only the search drivers read. -/
structure Program where
  insts : List Inst
  classes : List CharClass
  deriving DecidableEq, Repr

namespace Program

/-- `Program::len`. -/
def len (prog : Program) : ℕ := prog.insts.length

/-- The class an instruction refers to. -/
def classAt (prog : Program) (idx : ℕ) : CharClass := prog.classes.getD idx {}

/-- The capture index a back reference reads. -/
def backrefCap? : Inst → Option ℕ
  | .backref cap _ => some cap
  | _ => none

/-- `Program::backref_caps`, as `finalize_backref_caps` fills it: the capture indices that
back references read, ascending and without repetition. -/
def backrefCaps (prog : Program) : List ℕ :=
  ((prog.insts.filterMap backrefCap?).mergeSort (· ≤ ·)).dedup

/-- The slot a `Save` writes. -/
def saveSlot? : Inst → Option ℕ
  | .save slot => some slot
  | _ => none

/-- `detect_stride`: the width of a row of capture slots. -/
def detectStride (prog : Program) : ℕ :=
  match (prog.insts.filterMap saveSlot?).max? with
  | some m => m + 1
  | none => 2

/-- A `Save` of the program writes inside a row. -/
lemma save_lt_detectStride {prog : Program} {slot : ℕ} (h : Inst.save slot ∈ prog.insts) :
    slot < prog.detectStride := by
  have hmem : slot ∈ prog.insts.filterMap saveSlot? :=
    List.mem_filterMap.mpr ⟨_, h, rfl⟩
  unfold detectStride
  cases hmax : (prog.insts.filterMap saveSlot?).max? with
  | none =>
    rw [List.max?_eq_none_iff] at hmax
    rw [hmax] at hmem
    simp at hmem
  | some m =>
    have hle := (List.max?_eq_some_iff.mp hmax).2 slot hmem
    simp only
    omega

end Program

end Torajs.Regex
