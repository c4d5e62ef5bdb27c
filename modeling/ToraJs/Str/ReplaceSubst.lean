import Mathlib.Data.List.Basic
import Mathlib.Data.Set.Basic
import Mathlib.Tactic.NormNum

/-!
# Replacement templates

`transform/replace_subst.rs`: the `$` references of a replacement template are expanded at each
match of a string needle.  One loop over bytes serves both encodings, and it classifies a code
unit by its first byte.

The loop is compared with `GetSubstitution` without captures.  They agree for every subject on
exactly the templates in which a unit from outside Latin-1 is never taken for one of the
characters of a reference.
-/

namespace Torajs.Str

/-! ### The code -/

/-- `STR_MAX_LEN`. -/
def strMaxLen : ℕ := 2 ^ 31 - 1

/-- `str_max_bytes`. -/
def strMaxBytes (stride : ℕ) : ℕ := stride * strMaxLen

/-- The loop of `template_has_dollar`. -/
def hasDollarFrom (template : List ℕ) (stride : ℕ) : ℕ → ℕ → Bool
  | 0, _ => false
  | fuel + 1, i =>
    if i + stride ≤ template.length then
      if template.getD i 0 = 0x24 then true else hasDollarFrom template stride fuel (i + stride)
    else false

/-- `template_has_dollar`. -/
def templateHasDollar (template : List ℕ) (stride : ℕ) : Bool :=
  hasDollarFrom template stride (template.length + 1) 0

/-- What a reference stands for, by the byte behind the `$`. -/
def namedPiece {α : Type} (c : ℕ) (unit matched pre post : α) : Option α :=
  if c = 0x24 then some unit
  else if c = 0x26 then some matched
  else if c = 0x60 then some pre
  else if c = 0x27 then some post
  else none

/-- The loop of `expand_str_replacement`: whether the expansion fits, and the output. -/
def expandFrom (template matched pre post : List ℕ) (stride : ℕ) :
    ℕ → ℕ → List ℕ → Bool × List ℕ
  | 0, _, out => (true, out)
  | fuel + 1, i, out =>
    if i + stride ≤ template.length then
      let unit := (template.drop i).take stride
      let named :=
        if template.getD i 0 = 0x24 ∧ i + 2 * stride ≤ template.length then
          namedPiece (template.getD (i + stride) 0) unit matched pre post
        else none
      let piece := named.getD unit
      let step := if named.isSome then 2 * stride else stride
      if strMaxBytes stride < out.length + piece.length then (false, out)
      else expandFrom template matched pre post stride fuel (i + step) (out ++ piece)
    else (true, out)

/-- `expand_str_replacement`. -/
def expandStrReplacement (template matched pre post : List ℕ) (stride : ℕ) (out : List ℕ) :
    Bool × List ℕ :=
  expandFrom template matched pre post stride (template.length + 1) 0 out

/-- The loop of `replace_all_with_substitution`, over the expansion of a match. -/
def replaceAllLoop (s needle : List ℕ) (stride : ℕ)
    (expand : List ℕ → List ℕ → List ℕ → Bool × List ℕ) : ℕ → ℕ → List ℕ → Option (ℕ × List ℕ)
  | 0, i, out => some (i, out)
  | fuel + 1, i, out =>
    if i ≤ s.length - needle.length then
      if (s.drop i).take needle.length = needle then
        let expanded := expand (s.take i) (s.drop (i + needle.length)) out
        if expanded.1 then
          replaceAllLoop s needle stride expand fuel (i + needle.length) expanded.2
        else none
      else replaceAllLoop s needle stride expand fuel (i + stride) (out ++ (s.drop i).take stride)
    else some (i, out)

/-- The rest of the subject behind the last position of the loop. -/
def finishReplace (s : List ℕ) (r : ℕ × List ℕ) : List ℕ :=
  if r.1 < s.length then r.2 ++ s.drop r.1 else r.2

/-- `replace_all_with_substitution`, over the expansion of a match. -/
def replaceAllBy (s needle : List ℕ) (stride : ℕ)
    (expand : List ℕ → List ℕ → List ℕ → Bool × List ℕ) : Option (List ℕ) :=
  if 0 < needle.length ∧ needle.length ≤ s.length then
    (replaceAllLoop s needle stride expand (s.length + 1) 0 []).map (finishReplace s)
  else some (finishReplace s (0, []))

/-- `replace_all_with_substitution`. -/
def replaceAllWithSubstitution (s needle template : List ℕ) (stride : ℕ) : Option (List ℕ) :=
  replaceAllBy s needle stride fun pre post out =>
    expandStrReplacement template needle pre post stride out

/-! ### Strings in two encodings -/

/-- The bytes of a code unit. -/
def unitBytes (stride u : ℕ) : List ℕ := if stride = 1 then [u] else [u % 256, u / 256]

/-- The payload of a string. -/
def encodeUnits (stride : ℕ) (us : List ℕ) : List ℕ := us.flatMap (unitBytes stride)

/-- A string that an encoding can hold. -/
structure IsStr (stride : ℕ) (us : List ℕ) : Prop where
  stride_eq : stride = 1 ∨ stride = 2
  fits : ∀ u ∈ us, u < 256 ^ stride
  length_le : us.length ≤ strMaxLen

/-! ### `GetSubstitution` -/

/-- `GetSubstitution` for a string needle: no captures. -/
def getSubstitution (matched pre post : List ℕ) : List ℕ → List ℕ
  | 0x24 :: 0x24 :: r => 0x24 :: getSubstitution matched pre post r
  | 0x24 :: 0x26 :: r => matched ++ getSubstitution matched pre post r
  | 0x24 :: 0x60 :: r => pre ++ getSubstitution matched pre post r
  | 0x24 :: 0x27 :: r => post ++ getSubstitution matched pre post r
  | u :: r => u :: getSubstitution matched pre post r
  | [] => []

/-- `String.prototype.replaceAll` from a position on, for a needle that is not empty. -/
def replaceAllFrom (s needle template : List ℕ) : ℕ → ℕ → List ℕ
  | 0, i => s.drop i
  | fuel + 1, i =>
    if i < s.length then
      if (s.drop i).take needle.length = needle then
        getSubstitution needle (s.take i) (s.drop (i + needle.length)) template ++
          replaceAllFrom s needle template fuel (i + needle.length)
      else (s.drop i).take 1 ++ replaceAllFrom s needle template fuel (i + 1)
    else []

/-- `String.prototype.replaceAll`, for a needle that is not empty. -/
def replaceAll (s needle template : List ℕ) : List ℕ :=
  replaceAllFrom s needle template s.length 0

/-- **A template is expanded by the code as by `GetSubstitution`**, for every subject and needle,
unless the result is longer than any string. -/
structure ExpandsExactly (stride : ℕ) (template : List ℕ) : Prop where
  has_dollar : templateHasDollar (encodeUnits stride template) stride = true ↔ 0x24 ∈ template
  expand : ∀ matched pre post out, IsStr stride matched → IsStr stride pre → IsStr stride post →
    let result := expandStrReplacement (encodeUnits stride template) (encodeUnits stride matched)
      (encodeUnits stride pre) (encodeUnits stride post) stride (encodeUnits stride out)
    let expected := out ++ getSubstitution matched pre post template
    if result.1 then result.2 = encodeUnits stride expected else strMaxLen < expected.length
  replace_all : ∀ s needle, IsStr stride s → IsStr stride needle → needle ≠ [] →
    match replaceAllWithSubstitution (encodeUnits stride s) (encodeUnits stride needle)
      (encodeUnits stride template) stride with
    | some result => result = encodeUnits stride (replaceAll s needle template)
    | none => strMaxLen < (replaceAll s needle template).length
  /-- Where both encodings hold the strings the results are the same. -/
  encodings : IsStr 1 template → ∀ s needle, IsStr 1 s → IsStr 1 needle → needle ≠ [] →
    ∃ result : Option (List ℕ),
      replaceAllWithSubstitution (encodeUnits 1 s) (encodeUnits 1 needle) (encodeUnits 1 template)
        1 = result.map (encodeUnits 1) ∧
      replaceAllWithSubstitution (encodeUnits 2 s) (encodeUnits 2 needle) (encodeUnits 2 template)
        2 = result.map (encodeUnits 2)

/-! ### The condition -/

/-- Is the first byte of the unit a character of a reference? -/
def isLowTrigger (u : ℕ) : Bool :=
  (u % 256 == 0x24) || (u % 256 == 0x26) || (u % 256 == 0x60) || (u % 256 == 0x27)

/-- Is the unit a character of a reference? -/
def isTrigger (u : ℕ) : Bool := (u == 0x24) || (u == 0x26) || (u == 0x60) || (u == 0x27)

/-- No unit from outside Latin-1 is taken for a character of a reference: a `$` is followed by a
real such character or by nothing that looks like one; and a unit that looks like `$` is followed
by an even number of `$` (the flag is set behind such a unit) and then by nothing that looks like
one. -/
def readsTrue : Bool → List ℕ → Bool
  | _, [] => true
  | true, u :: r =>
    if u = 0x24 then
      match r with
      | [] => false
      | v :: r => (v == 0x24) && readsTrue true r
    else !isLowTrigger u && readsTrue false r
  | false, u :: r =>
    if u = 0x24 then
      match r with
      | [] => true
      | v :: r => (isTrigger v || !isLowTrigger v) && readsTrue false r
    else if u % 256 = 0x24 then readsTrue true r
    else readsTrue false r

/-- The condition on a template. -/
def TemplateReadsTrue (template : List ℕ) : Prop :=
  (0x24 ∈ template ∨ ∀ u ∈ template, u % 256 ≠ 0x24) ∧ readsTrue false template = true

instance (template : List ℕ) : Decidable (TemplateReadsTrue template) :=
  inferInstanceAs (Decidable (_ ∧ _))

end Torajs.Str
