import ToraJs.Lib.ClassOrder

/-!
# Unicode normalization

`normalize.rs`: the four normalization forms of a sequence of code points.  The mappings, the
combining classes and the composites are given by tables; syllables of Hangul are decomposed and
composed by arithmetic.
-/

namespace Torajs.Str

/-! ### Hangul -/

/-- The first syllable. -/
def sBase : ℕ := 0xAC00

/-- The first leading consonant. -/
def lBase : ℕ := 0x1100

/-- The first vowel. -/
def vBase : ℕ := 0x1161

/-- The code point before the first trailing consonant. -/
def tBase : ℕ := 0x11A7

/-- The number of leading consonants. -/
def lCount : ℕ := 19

/-- The number of vowels. -/
def vCount : ℕ := 21

/-- The number of trailing consonants, and none. -/
def tCount : ℕ := 28

/-- The number of syllables of a leading consonant. -/
def nCount : ℕ := vCount * tCount

/-- The number of syllables. -/
def sCount : ℕ := lCount * nCount

/-- Is the code point a syllable? -/
def isHangulSyllable (cp : ℕ) : Bool := decide (sBase ≤ cp) && decide (cp < sBase + sCount)

/-- The letters of a syllable. -/
def hangulDecompose (cp : ℕ) : List ℕ :=
  let sIndex := cp - sBase
  let l := lBase + sIndex / nCount
  let v := vBase + sIndex % nCount / tCount
  let t := tBase + sIndex % tCount
  if t ≠ tBase then [l, v, t] else [l, v]

/-- The syllable of a leading consonant and a vowel, or of such a syllable and a trailing
consonant. -/
def hangulCompose (a b : ℕ) : Option ℕ :=
  if (lBase ≤ a ∧ a < lBase + lCount) ∧ vBase ≤ b ∧ b < vBase + vCount then
    let lIndex := a - lBase
    let vIndex := b - vBase
    some (sBase + (lIndex * vCount + vIndex) * tCount)
  else if (sBase ≤ a ∧ a < sBase + sCount) ∧ (a - sBase) % tCount = 0 ∧ tBase < b ∧
      b < tBase + tCount then
    some (a + (b - tBase))
  else none

/-- Is the code point a letter that syllables are composed of? -/
def isJamo (cp : ℕ) : Bool :=
  (decide (lBase ≤ cp) && decide (cp < lBase + lCount)) ||
    (decide (vBase ≤ cp) && decide (cp < vBase + vCount)) ||
    (decide (tBase < cp) && decide (cp < tBase + tCount))

/-! ### Tables -/

/-- The tables of the Unicode character database, closed as its stability policy states: nested
mappings end, a composite is mapped to its two parts and is a starter, and the letters and
syllables of Hangul have no entries. -/
structure NormTables where
  /-- The mapping of a code point, and whether it is a compatibility mapping. -/
  lookupDecomp : ℕ → Option (List ℕ × Bool)
  /-- The combining class. -/
  lookupCcc : ℕ → ℕ
  /-- The primary composite of two code points. -/
  lookupComposite : ℕ → ℕ → Option ℕ
  /-- How deep mappings are nested. -/
  depth : ℕ → ℕ
  depth_lt : ∀ cp targets isCompat, lookupDecomp cp = some (targets, isCompat) →
    ∀ sub ∈ targets, depth sub < depth cp
  composite_decomp : ∀ a b c, lookupComposite a b = some c →
    lookupDecomp c = some ([a, b], false)
  composite_starter : ∀ a b c, lookupComposite a b = some c → lookupCcc c = 0
  composite_not_hangul : ∀ a b c, lookupComposite a b = some c → isHangulSyllable c = false
  hangul_starter : ∀ cp, isHangulSyllable cp = true → lookupCcc cp = 0
  jamo_decomp : ∀ cp, isJamo cp = true → lookupDecomp cp = none

variable (T : NormTables)

/-! ### Decomposition -/

/-- The decomposition of a code point, mapping its parts as well; `compat` selects the
compatibility mappings. -/
def decomposeRecurse (compat : Bool) (cp : ℕ) : List ℕ :=
  if isHangulSyllable cp then hangulDecompose cp
  else
    match _h : T.lookupDecomp cp with
    | some (targets, isCompat) =>
      if compat || !isCompat then
        targets.attach.flatMap fun sub => decomposeRecurse compat sub.1
      else [cp]
    | none => [cp]
termination_by T.depth cp
decreasing_by exact T.depth_lt cp targets isCompat _h sub.1 sub.2

/-- A pass of the bubble sort over a run that begins with `x`, and whether it has swapped. -/
def bubblePass (x : ℕ) : List ℕ → Bool × List ℕ
  | [] => (false, [x])
  | y :: ys =>
    if T.lookupCcc x > T.lookupCcc y then
      let r := bubblePass x ys
      (true, y :: r.2)
    else
      let r := bubblePass y ys
      (r.1, x :: r.2)

/-- At most `m` passes of the bubble sort, until one has not swapped. -/
def bubblePasses : ℕ → List ℕ → List ℕ
  | 0, run => run
  | _ + 1, [] => []
  | m + 1, x :: xs =>
    let r := bubblePass T x xs
    if r.1 then bubblePasses m r.2 else r.2

/-- The stable sort of a run by combining class. -/
def stableCccSort (run : List ℕ) : List ℕ := bubblePasses T run.length run

/-- Sorts the runs of code points with a class; `run` is the one that is being read. -/
def canonicalOrderRuns (run : List ℕ) : List ℕ → List ℕ
  | [] => if 1 < run.length then stableCccSort T run else run
  | c :: cs =>
    if 0 < T.lookupCcc c then canonicalOrderRuns (run ++ [c]) cs
    else (if 1 < run.length then stableCccSort T run else run) ++ c :: canonicalOrderRuns [] cs

/-- The canonical ordering. -/
def canonicalOrder (cps : List ℕ) : List ℕ :=
  if cps.length < 2 then cps else canonicalOrderRuns T [] cps

/-- The decomposition of a sequence, in canonical order. -/
def decompose (compat : Bool) (cps : List ℕ) : List ℕ :=
  canonicalOrder T (cps.flatMap (decomposeRecurse T compat))

/-! ### Composition -/

/-- The primary composite, with Hangul by arithmetic. -/
def primaryComposite (a b : ℕ) : Option ℕ :=
  match hangulCompose a b with
  | some h => some h
  | none => T.lookupComposite a b

/-- The state of the composition: the code points written, the index of the last starter, and the
greatest class written since. -/
structure ComposeState where
  out : List ℕ
  lastStarterW : Option ℕ
  maxCccSinceStarter : ℕ

/-- The last starter combined with the next code point, where that is done. -/
def combineStarter (st : ComposeState) (cur : ℕ) : Option (List ℕ) := do
  let starterW ← st.lastStarterW
  let curCcc := T.lookupCcc cur
  if curCcc ≠ 0 ∧ st.maxCccSinceStarter ≥ curCcc then none
  else do
    let starter ← st.out[starterW]?
    let composite ← primaryComposite T starter cur
    some (st.out.set starterW composite)

/-- One step of the composition. -/
def composeStep (st : ComposeState) (cur : ℕ) : ComposeState :=
  match combineStarter T st cur with
  | some out => { st with out := out }
  | none =>
    let curCcc := T.lookupCcc cur
    { out := st.out ++ [cur]
      lastStarterW := if curCcc = 0 then some st.out.length else st.lastStarterW
      maxCccSinceStarter :=
        if curCcc = 0 then 0
        else if curCcc > st.maxCccSinceStarter then curCcc
        else st.maxCccSinceStarter }

/-- The state before the second code point. -/
def composeStart (c : ℕ) : ComposeState :=
  ⟨[c], if T.lookupCcc c = 0 then some 0 else none, 0⟩

/-- The canonical composition. -/
def compose : List ℕ → List ℕ
  | [] => []
  | c :: cs => if cs = [] then [c] else (cs.foldl (composeStep T) (composeStart T c)).out

/-! ### Forms -/

/-- The normalization forms. -/
inductive NormForm where
  | nfc
  | nfd
  | nfkc
  | nfkd
deriving Repr, DecidableEq

/-- Whether a form uses the compatibility mappings, and whether it composes. -/
def NormForm.flags : NormForm → Bool × Bool
  | .nfd => (false, false)
  | .nfc => (false, true)
  | .nfkd => (true, false)
  | .nfkc => (true, true)

/-- The normalization of a sequence, by the flags of a form. -/
def normalizeWith (cps : List ℕ) (compat composePhase : Bool) : List ℕ :=
  let out := decompose T compat cps
  if composePhase then compose T out else out

/-- The normalization of a sequence to a form. -/
def normalize (form : NormForm) (cps : List ℕ) : List ℕ :=
  normalizeWith T cps form.flags.1 form.flags.2

end Torajs.Str
