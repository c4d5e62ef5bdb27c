import Mathlib.Data.List.Forall2
import ToraJs.Link.Patch

/-!
# Applying the relocations

`resolve.rs`: every relocation of every function is resolved to an address, and the instruction
word or the data slot at its site is patched in place.

Linking is exact or refused exactly where no displacement is truncated: in builds with debug
assertions, where another check already stops the link, or where every displacement fits its field.
-/

namespace Torajs.Link

/-! ### Relocations -/

/-- `reloc::CallTarget`. -/
inductive CallTarget where
  | func (fid : ℕ)
  | externSym (name : String)
  deriving DecidableEq, Repr

/-- `reloc::RelocKind`. -/
inductive RelocKind where
  | callSite (target : CallTarget)
  | page21 (targetSym : String)
  | pageOff12 (targetSym : String)
  | absPtr64 (targetSym : String)
  deriving DecidableEq, Repr

/-- `reloc::Reloc`. -/
structure Reloc where
  byteOffset : BitVec 32
  kind : RelocKind
  deriving DecidableEq, Repr

/-- `CompiledFunction`: what the resolver reads of it. -/
structure CompiledFunction where
  name : String
  bytes : List (BitVec 8)
  relocs : List Reloc
  deriving DecidableEq, Repr

/-- `ResolvedFunction`. -/
structure ResolvedFunction where
  name : String
  vaddr : BitVec 64
  bytes : List (BitVec 8)
  deriving DecidableEq, Repr

/-- `FN_ADDR_ALIAS_PREFIXES`. -/
def fnAddrAliasPrefixes : List String := ["__torajs_fn_", "__torajs_boxed_"]

/-- `str::strip_prefix`. -/
def stripStart (start name : List Char) : Option (List Char) :=
  if start.isPrefixOf name then some (name.drop start.length) else none

/-- `fn_addr_alias_index`: an index is a `usize`. -/
def fnAddrAliasIndex (name : String) : Option ℕ := do
  let t ← fnAddrAliasPrefixes.findSome? fun start => stripStart start.toList name.toList
  let canonical := t ≠ [] ∧ t.all Char.isDigit = true ∧ (t = ['0'] ∨ t.head? ≠ some '0')
  let index := t.foldl (fun n c => n * 10 + (c.toNat - '0'.toNat)) 0
  if canonical ∧ index < 2 ^ 64 then some index else none

/-- What the resolver looks its targets up in: `Targets`. -/
structure Targets where
  funcs : List CompiledFunction
  fnVaddrs : List (BitVec 64)
  symTable : String → Option (BitVec 64)

/-- `Targets::lookup`. -/
def Targets.lookup (t : Targets) (name : String) : Option (BitVec 64) :=
  match t.funcs.findIdx? fun f => f.name = name with
  | some i => t.fnVaddrs[i]?
  | none =>
    match (fnAddrAliasIndex name).filter fun i => i < t.fnVaddrs.length with
    | some i => t.fnVaddrs[i]?
    | none => t.symTable name

/-- `Targets::resolve`. -/
def Targets.resolve (t : Targets) : RelocKind → Option (BitVec 64)
  | .callSite (.func fid) => t.fnVaddrs[fid]?
  | .callSite (.externSym name) => t.lookup name
  | .page21 name | .pageOff12 name | .absPtr64 name => t.lookup name

/-! ### Words in the image -/

/-- The word at an offset, lower byte first. -/
def wordAt (bytes : List (BitVec 8)) (off : ℕ) : BitVec 32 :=
  bytes.getD (off + 3) 0 ++ bytes.getD (off + 2) 0 ++ bytes.getD (off + 1) 0 ++ bytes.getD off 0

/-- The data slot at an offset, lower byte first. -/
def quadAt (bytes : List (BitVec 8)) (off : ℕ) : BitVec 64 :=
  bytes.getD (off + 7) 0 ++ bytes.getD (off + 6) 0 ++ bytes.getD (off + 5) 0 ++
    bytes.getD (off + 4) 0 ++ bytes.getD (off + 3) 0 ++ bytes.getD (off + 2) 0 ++
    bytes.getD (off + 1) 0 ++ bytes.getD off 0

/-- The bytes from an offset on are replaced; a slice outside the image stops the program. -/
def writeAt (bytes : List (BitVec 8)) (off : ℕ) (new : List (BitVec 8)) :
    Option (List (BitVec 8)) :=
  if off + new.length ≤ bytes.length then
    some (bytes.take off ++ (new ++ bytes.drop (off + new.length)))
  else none

/-- `u32::to_le_bytes`. -/
def wordBytes (w : BitVec 32) : List (BitVec 8) :=
  [w.extractLsb' 0 8, w.extractLsb' 8 8, w.extractLsb' 16 8, w.extractLsb' 24 8]

/-- `u64::to_le_bytes`. -/
def quadBytes (w : BitVec 64) : List (BitVec 8) :=
  [w.extractLsb' 0 8, w.extractLsb' 8 8, w.extractLsb' 16 8, w.extractLsb' 24 8,
    w.extractLsb' 32 8, w.extractLsb' 40 8, w.extractLsb' 48 8, w.extractLsb' 56 8]

/-- `read_u32_le`. -/
def readU32Le (bytes : List (BitVec 8)) (off : ℕ) : Option (BitVec 32) :=
  if off + 4 ≤ bytes.length then some (wordAt bytes off) else none

/-! ### One relocation -/

/-- `i32::try_from`. -/
def i32TryFrom (x : ℤ) : Option ℤ := if -2 ^ 31 ≤ x ∧ x < 2 ^ 31 then some x else none

/-- The address of the page of an address. -/
def pageOf (a : BitVec 64) : BitVec 64 := a &&& ~~~0xFFF

/-- `apply_one`. -/
def applyOne (p : Profile) (bytes : List (BitVec 8)) (byteOffset : BitVec 32)
    (fnVaddr : BitVec 64) (kind : RelocKind) (targetVaddr : BitVec 64) :
    Option (List (BitVec 8)) := do
  let off := byteOffset.toNat
  let siteVaddr ← p.checked (fnVaddr.uaddOverflow (byteOffset.setWidth 64))
    (fnVaddr + byteOffset.setWidth 64)
  match kind with
  | .callSite _ =>
    let displacement ← p.checked (targetVaddr.ssubOverflow siteVaddr) (targetVaddr - siteVaddr)
    let displacementI32 ← i32TryFrom displacement.toInt
    let insn ← readU32Le bytes off
    let patched ← patchBranch26 p insn displacementI32
    writeAt bytes off (wordBytes patched)
  | .page21 _ =>
    let targetPage := pageOf targetVaddr
    let sitePage := pageOf siteVaddr
    let displacement ← p.checked (targetPage.ssubOverflow sitePage) (targetPage - sitePage)
    let insn ← readU32Le bytes off
    let patched ← patchPage21 p insn displacement
    writeAt bytes off (wordBytes patched)
  | .pageOff12 _ =>
    let offset := (targetVaddr &&& 0xFFF).setWidth 32
    let insn ← readU32Le bytes off
    let patched ← patchPageoff12 p insn offset
    writeAt bytes off (wordBytes patched)
  | .absPtr64 _ => writeAt bytes off (quadBytes targetVaddr)

/-- The loop of `apply_relocs` over the relocations of a function. -/
def applyAll (p : Profile) (t : Targets) (fnVaddr : BitVec 64) :
    List Reloc → List (BitVec 8) → Option (List (BitVec 8))
  | [], bytes => some bytes
  | r :: rs, bytes => do
    let targetVaddr ← t.resolve r.kind
    let bytes ← applyOne p bytes r.byteOffset fnVaddr r.kind targetVaddr
    applyAll p t fnVaddr rs bytes

/-- The loop of `apply_relocs` over the functions. -/
def applyFuncs (p : Profile) (t : Targets) :
    List (CompiledFunction × BitVec 64) → Option (List ResolvedFunction)
  | [] => some []
  | (f, fnVaddr) :: fs => do
    let bytes ← applyAll p t fnVaddr f.relocs f.bytes
    let out ← applyFuncs p t fs
    return ⟨f.name, fnVaddr, bytes⟩ :: out

/-- `apply_relocs`; nothing where linking stops. -/
def applyRelocs (p : Profile) (t : Targets) : Option (List ResolvedFunction) :=
  if t.funcs.length = t.fnVaddrs.length then applyFuncs p t (t.funcs.zip t.fnVaddrs) else none

/-! ### What is asked of a site -/

/-- The bytes a relocation patches. -/
def RelocKind.width : RelocKind → ℕ
  | .callSite _ | .page21 _ | .pageOff12 _ => 4
  | .absPtr64 _ => 8

/-- The instruction at a site is one the relocation is for. -/
def RelocKind.IsSiteWord : RelocKind → BitVec 32 → Prop
  | .callSite _, w => IsBranch w
  | .page21 _, w => IsAdrp w
  | .pageOff12 _, w => IsAddImm w ∨ IsAccess w
  | .absPtr64 _, _ => True

/-- The address of a site. -/
def Reloc.siteVaddr (r : Reloc) (fnVaddr : BitVec 64) : BitVec 64 :=
  fnVaddr + r.byteOffset.setWidth 64

/-- The displacement of a relocation fits the field of its instruction. -/
def RelocKind.Fits : RelocKind → BitVec 64 → BitVec 64 → BitVec 32 → Prop
  | .callSite _, site, target, _ => BranchFits (target - site).toInt
  | .page21 _, site, target, _ => PageFits (pageOf target - pageOf site).toInt
  | .pageOff12 _, _, target, insn => immediateUnit insn ∣ (target &&& 0xFFF).toNat
  | .absPtr64 _, _, _, _ => True

/-- The patched site decodes to the target, and its other bits are unchanged. -/
def RelocKind.Reaches (site target : BitVec 64) (before after : List (BitVec 8)) (off : ℕ) :
    RelocKind → Prop
  | .callSite _ =>
    IsBranch (wordAt after off) ∧
      site + BitVec.ofInt 64 (branchOffset (wordAt after off)) = target ∧
      wordAt after off &&& ~~~branch26Mask = wordAt before off &&& ~~~branch26Mask
  | .page21 _ =>
    IsAdrp (wordAt after off) ∧
      pageOf site + BitVec.ofInt 64 (adrpOffset (wordAt after off)) = pageOf target ∧
      wordAt after off &&& ~~~page21Mask = wordAt before off &&& ~~~page21Mask
  | .pageOff12 _ =>
    (IsAddImm (wordAt after off) ∨ IsAccess (wordAt after off)) ∧
      immediateOffset (wordAt after off) = (target &&& 0xFFF).toNat ∧
      wordAt after off &&& ~~~pageoff12Mask = wordAt before off &&& ~~~pageoff12Mask
  | .absPtr64 _ => quadAt after off = target

/-- The relocations of a function: disjoint sites on instructions of their kind. -/
structure CompiledFunction.WellFormed (f : CompiledFunction) : Prop where
  disjoint : f.relocs.Pairwise fun r s =>
    r.byteOffset.toNat + r.kind.width ≤ s.byteOffset.toNat ∨
      s.byteOffset.toNat + s.kind.width ≤ r.byteOffset.toNat
  siteWord : ∀ r ∈ f.relocs, r.kind.IsSiteWord (wordAt f.bytes r.byteOffset.toNat)

/-- A patched function: every site reaches its target, every other byte is unchanged. -/
structure Patched (t : Targets) (f : CompiledFunction) (fnVaddr : BitVec 64)
    (o : ResolvedFunction) : Prop where
  name : o.name = f.name
  vaddr : o.vaddr = fnVaddr
  length : o.bytes.length = f.bytes.length
  sites : ∀ r ∈ f.relocs, ∃ target, t.resolve r.kind = some target ∧
    r.kind.Reaches (r.siteVaddr fnVaddr) target f.bytes o.bytes r.byteOffset.toNat
  frame : ∀ j, (∀ r ∈ f.relocs, j < r.byteOffset.toNat ∨
    r.byteOffset.toNat + r.kind.width ≤ j) → o.bytes.getD j 0 = f.bytes.getD j 0

/-- Every displacement of a function fits. -/
def FitsAll (t : Targets) (fv : CompiledFunction × BitVec 64) : Prop :=
  ∀ r ∈ fv.1.relocs, ∀ target, t.resolve r.kind = some target →
    r.kind.Fits (r.siteVaddr fv.2) target (wordAt fv.1.bytes r.byteOffset.toNat)

/-- **Linking is exact or refused.** -/
structure ExactOrRefused (p : Profile) (t : Targets) : Prop where
  exact : ∀ out, applyRelocs p t = some out →
    List.Forall₂ (fun fv o => Patched t fv.1 fv.2 o) (t.funcs.zip t.fnVaddrs) out
  refused : (∃ fv ∈ t.funcs.zip t.fnVaddrs, ¬ FitsAll t fv) → applyRelocs p t = none

/-- What stops the link at a relocation in every build with these overflow checks. -/
def Reloc.Stops (p : Profile) (r : Reloc) (fnVaddr : BitVec 64) (target : BitVec 64)
    (bytes : List (BitVec 8)) : Prop :=
  bytes.length < r.byteOffset.toNat + r.kind.width ∨
    p.overflowChecks = true ∧ fnVaddr.uaddOverflow (r.byteOffset.setWidth 64) = true ∨
    match r.kind with
    | .callSite _ =>
      p.overflowChecks = true ∧ target.ssubOverflow (r.siteVaddr fnVaddr) = true ∨
        i32TryFrom (target - r.siteVaddr fnVaddr).toInt = none
    | .page21 _ =>
      p.overflowChecks = true ∧ (pageOf target).ssubOverflow (pageOf (r.siteVaddr fnVaddr)) = true
    | .pageOff12 _ =>
      ¬ immediateUnit (wordAt bytes r.byteOffset.toNat) ∣ (target &&& 0xFFF).toNat
    | .absPtr64 _ => False

/-- Some relocation is unresolved or stops the link. -/
def SomeStops (p : Profile) (t : Targets) : Prop :=
  t.funcs.length ≠ t.fnVaddrs.length ∨
    ∃ fv ∈ t.funcs.zip t.fnVaddrs, ∃ r ∈ fv.1.relocs,
      ∀ target, t.resolve r.kind = some target → r.Stops p fv.2 target fv.1.bytes

end Torajs.Link
