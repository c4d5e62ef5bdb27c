import Mathlib.Data.List.Basic
import Mathlib.Logic.Encodable.Basic
import Mathlib.Logic.Equiv.List
import ToraJs.Dynobj.SameValue

/-!
# Redefining a property

`redefine_entry` applies a property descriptor to an entry that exists.  The descriptor arrives as
a value and a flags byte, whose bits say which of its fields are present and what they are; an
accessor descriptor carries its two faces as a pair in the place of the value.

The entry of a global binding is redefined through its cell, which is left out here.
-/

namespace Torajs.Dynobj

/-! ### Entries and descriptors -/

/-- A closure of an accessor pair, with the kind byte it is called by. -/
structure Face where
  closure : ℕ
  kind : BitVec 8
  deriving DecidableEq

/-- `AccessorPair`; a face that is a null pointer is undefined. -/
structure AccessorPair where
  get : Option Face
  set : Option Face
  deriving DecidableEq

/-- What an entry holds in `value_anyv`. -/
inductive Slot
  | value (v : AnyValue)
  | accessor (pair : AccessorPair)
  deriving DecidableEq

/-- `value_is_accessor`. -/
def Slot.isAccessor : Slot → Bool
  | .value _ => false
  | .accessor _ => true

/-- An entry, with the flags in the low bits of its key pointer. -/
structure Entry where
  slot : Slot
  flags : BitVec 64
  deriving DecidableEq

/-- `BUCKET_FLAG_WRITABLE` and `DEFINE_FLAG_WRITABLE`. -/
def flagWritable : BitVec 64 := 1

/-- `BUCKET_FLAG_ENUMERABLE` and `DEFINE_FLAG_ENUMERABLE`. -/
def flagEnumerable : BitVec 64 := 2

/-- `BUCKET_FLAG_CONFIGURABLE` and `DEFINE_FLAG_CONFIGURABLE`. -/
def flagConfigurable : BitVec 64 := 4

/-- `DEFINE_PRESENT_WRITABLE`. -/
def presentWritable : BitVec 64 := 8

/-- `DEFINE_PRESENT_ENUMERABLE`. -/
def presentEnumerable : BitVec 64 := 16

/-- `DEFINE_PRESENT_CONFIGURABLE`. -/
def presentConfigurable : BitVec 64 := 32

/-- `DEFINE_PRESENT_VALUE`. -/
def presentValue : BitVec 64 := 64

/-- `DEFINE_PRESENT_GET`. -/
def presentGet : BitVec 64 := 128

/-- `DEFINE_PRESENT_SET`. -/
def presentSet : BitVec 64 := 256

/-- A flag is set. -/
def isSet (flags bit : BitVec 64) : Bool := flags &&& bit != 0

/-- The faces of an accessor descriptor; one of them is present. -/
inductive Faces
  | get (f : Option Face)
  | set (f : Option Face)
  | both (f g : Option Face)
  deriving DecidableEq

/-- The `get` field, if it is present. -/
def Faces.get? : Faces → Option (Option Face)
  | .get f | .both f _ => some f
  | .set _ => none

/-- The `set` field, if it is present. -/
def Faces.set? : Faces → Option (Option Face)
  | .set g | .both _ g => some g
  | .get _ => none

/-- A property descriptor: the fields that are present. -/
inductive Descriptor (V : Type)
  | data (value : Option V) (writable enumerable configurable : Option Bool)
  | accessor (faces : Faces) (enumerable configurable : Option Bool)
  deriving DecidableEq

/-- The bits of one field. -/
def fieldFlags (present value : BitVec 64) : Option Bool → BitVec 64
  | none => 0
  | some b => present ||| if b then value else 0

/-- The flags byte of a descriptor, as `__torajs_dynobj_define_from_desc` and
`try_define_accessor` build it. -/
def Descriptor.flagsByte {V : Type} : Descriptor V → BitVec 64
  | .data v w e c =>
    (if v.isSome then presentValue else 0) ||| fieldFlags presentWritable flagWritable w |||
      fieldFlags presentEnumerable flagEnumerable e |||
      fieldFlags presentConfigurable flagConfigurable c
  | .accessor faces e c =>
    presentValue ||| (if faces.get?.isSome then presentGet else 0) |||
      (if faces.set?.isSome then presentSet else 0) |||
      fieldFlags presentEnumerable flagEnumerable e |||
      fieldFlags presentConfigurable flagConfigurable c

/-- The value of a descriptor, or its pair, whose absent faces are null. -/
def Descriptor.incoming : Descriptor AnyValue → Slot
  | .data v _ _ _ => .value (v.getD .undefined)
  | .accessor faces _ _ => .accessor ⟨faces.get?.getD none, faces.set?.getD none⟩

/-! ### The code -/

/-- The answer, with the text of a refusal, and the entry behind it. -/
structure Outcome where
  entry : Entry
  refusal : Option String

/-- `fold_flags`: a flag that is present takes the descriptor's value, an absent one keeps the
entry's. -/
def foldFlags (flagsByte curFlags : BitVec 64) : BitVec 64 :=
  let pick (present desc cur : BitVec 64) : BitVec 64 :=
    if (if isSet flagsByte present then isSet flagsByte desc else isSet curFlags cur) then cur else 0
  pick presentWritable flagWritable flagWritable |||
    pick presentEnumerable flagEnumerable flagEnumerable |||
    pick presentConfigurable flagConfigurable flagConfigurable

/-- `merge_accessor_redefine`: a face that is absent inherits the current one. -/
def mergeAccessorRedefine (cur new : AccessorPair) (flagsByte : BitVec 64)
    (curConfigurable : Bool) : Option AccessorPair :=
  let hasGet := isSet flagsByte presentGet
  let hasSet := isSet flagsByte presentSet
  if curConfigurable = false ∧
      (hasGet = true ∧ new.get.map Face.closure ≠ cur.get.map Face.closure ∨
        hasSet = true ∧ new.set.map Face.closure ≠ cur.set.map Face.closure) then none
  else some
    { get := if hasGet = false ∧ cur.get.isSome then cur.get else new.get
      set := if hasSet = false ∧ cur.set.isSome then cur.set else new.set }

/-- The SameValue test of the incoming value against the current one. -/
def sameSlot (heap : Heap) : Slot → Slot → Bool
  | .value v, .value w => sameValue heap v w
  | _, _ => false

/-- What `redefine_entry` refuses before it applies anything: the text of the refusal. -/
def validate (heap : Heap) (e : Entry) (incoming : Slot) (flagsByte : BitVec 64) :
    Option String :=
  let hasValue := isSet flagsByte presentValue
  let curWritable := isSet e.flags flagWritable
  let incomingAccessor := hasValue && incoming.isAccessor
  let curAccessor := e.slot.isAccessor
  if isSet e.flags flagConfigurable then none
  else if isSet flagsByte presentConfigurable && isSet flagsByte flagConfigurable then
    some "Attempting to change configurable attribute of unconfigurable property."
  else if isSet flagsByte presentEnumerable &&
      isSet flagsByte flagEnumerable != isSet e.flags flagEnumerable then
    some "Attempting to change enumerable attribute of unconfigurable property."
  else if hasValue && incomingAccessor != curAccessor then
    some "Attempting to change access mechanism for an unconfigurable property."
  else if !incomingAccessor && !curAccessor && !curWritable then
    if isSet flagsByte presentWritable && isSet flagsByte flagWritable then
      some "Attempting to change writable attribute of unconfigurable property."
    else if hasValue && !sameSlot heap incoming e.slot then
      some "Attempting to change value of a readonly property."
    else none
  else none

/-- The slot that is stored for the incoming value: a pair over a pair is merged. -/
def mergeIncoming (e : Entry) (incoming : Slot) (flagsByte : BitVec 64) : Option Slot :=
  match incoming, e.slot with
  | .accessor new, .accessor cur =>
    (mergeAccessorRedefine cur new flagsByte (isSet e.flags flagConfigurable)).map .accessor
  | incoming, _ => some incoming

/-- A value is unboxed and boxed again, which widens a string immediate into a cell. -/
def rebox (heap : Heap) : Slot → Slot
  | .value (.shortStr bytes) => .value (.cell (heap.materialize bytes))
  | slot => slot

/-- `redefine_entry`. -/
def redefineEntry (heap : Heap) (e : Entry) (incoming : Slot) (flagsByte : BitVec 64) : Outcome :=
  match validate heap e incoming flagsByte with
  | some text => ⟨e, some text⟩
  | none =>
    let newFlags := foldFlags flagsByte e.flags
    if isSet flagsByte presentValue then
      match mergeIncoming e incoming flagsByte with
      | none => ⟨e, some "Attempting to change access mechanism for an unconfigurable property."⟩
      | some slot => ⟨⟨slot, newFlags⟩, none⟩
    else ⟨⟨rebox heap e.slot, newFlags⟩, none⟩

/-- A descriptor is applied to an entry. -/
def redefine (heap : Heap) (e : Entry) (d : Descriptor AnyValue) : Outcome :=
  redefineEntry heap e d.incoming d.flagsByte

/-! ### The specification -/

/-- A property. -/
inductive Property
  | data (value : JsValue) (writable enumerable configurable : Bool)
  | accessor (get set : Option Face) (enumerable configurable : Bool)
  deriving DecidableEq

/-- `[[Enumerable]]`. -/
def Property.enumerable : Property → Bool
  | .data _ _ e _ | .accessor _ _ e _ => e

/-- `[[Configurable]]`. -/
def Property.configurable : Property → Bool
  | .data _ _ _ c | .accessor _ _ _ c => c

/-- The `[[Enumerable]]` field. -/
def Descriptor.enumerable {V : Type} : Descriptor V → Option Bool
  | .data _ _ e _ | .accessor _ e _ => e

/-- The `[[Configurable]]` field. -/
def Descriptor.configurable {V : Type} : Descriptor V → Option Bool
  | .data _ _ _ c | .accessor _ _ c => c

/-- A field that is present and differs from what is there. -/
def changes {α : Type} [DecidableEq α] (field : Option α) (current : α) : Bool :=
  field.any fun x => x != current

/-- The same for an accessor function, which is an object. -/
def changesFunction (field : Option (Option Face)) (current : Option Face) : Bool :=
  changes (field.map fun f => f.map Face.closure) (current.map Face.closure)

/-- What is refused by kind: steps 5.c to 5.e of ValidateAndApplyPropertyDescriptor. -/
def kindRefused : Property → Descriptor JsValue → Bool
  | .data v w _ _, .data dv dw _ _ => !w && (dw == some true || changes dv v)
  | .data .., .accessor .. => true
  | .accessor g s _ _, .accessor faces _ _ =>
    changesFunction faces.get? g || changesFunction faces.set? s
  | .accessor .., .data dv dw _ _ => dv.isSome || dw.isSome

/-- Step 5: what is refused of a property that is not configurable. -/
def refused (p : Property) (d : Descriptor JsValue) : Bool :=
  !p.configurable &&
    (d.configurable == some true || changes d.enumerable p.enumerable || kindRefused p d)

/-- Step 6: the property behind an accepted descriptor. -/
def applied : Property → Descriptor JsValue → Property
  | .data v w e c, .data dv dw de dc =>
    .data (dv.getD v) (dw.getD w) (de.getD e) (dc.getD c)
  | .data _ _ e c, .accessor faces de dc =>
    .accessor (faces.get?.getD none) (faces.set?.getD none) (de.getD e) (dc.getD c)
  | .accessor g s e c, .accessor faces de dc =>
    .accessor (faces.get?.getD g) (faces.set?.getD s) (de.getD e) (dc.getD c)
  | .accessor g s e c, .data dv dw de dc =>
    if dv.isSome || dw.isSome then
      .data (dv.getD .undefined) (dw.getD false) (de.getD e) (dc.getD c)
    else .accessor g s (de.getD e) (dc.getD c)

/-- The answer, and the property behind it. -/
def validateAndApply (p : Property) (d : Descriptor JsValue) : Bool × Property :=
  if refused p d then (false, p) else (true, applied p d)

/-- The descriptor that is meant. -/
def Descriptor.denote (heap : Heap) : Descriptor AnyValue → Descriptor JsValue
  | .data v w e c => .data (v.map (·.denote heap)) w e c
  | .accessor faces e c => .accessor faces e c

/-- The property that an entry is. -/
def Entry.property (heap : Heap) (e : Entry) : Property :=
  match e.slot with
  | .value v => .data (v.denote heap) (isSet e.flags flagWritable) (isSet e.flags flagEnumerable)
      (isSet e.flags flagConfigurable)
  | .accessor pair => .accessor pair.get pair.set (isSet e.flags flagEnumerable)
      (isSet e.flags flagConfigurable)

/-! ### Flags -/

lemma isSet_or (a b bit : BitVec 64) : isSet (a ||| b) bit = (isSet a bit || isSet b bit) := by
  have hdistrib : (a ||| b) &&& bit = (a &&& bit) ||| (b &&& bit) := by
    ext i hi
    simp only [BitVec.getElem_and, BitVec.getElem_or, Bool.and_or_distrib_right]
  rw [Bool.eq_iff_iff, Bool.or_eq_true]
  simp only [isSet, hdistrib, bne_iff_ne, ne_eq]
  exact (not_congr BitVec.or_eq_zero_iff).trans Classical.not_and_iff_not_or_not

lemma isSet_zero (bit : BitVec 64) : isSet 0 bit = false := by
  change (0#64 &&& bit != 0#64) = false
  rw [BitVec.zero_and]
  rfl

lemma isSet_ite (b : Bool) (flag bit : BitVec 64) :
    isSet (if b then flag else 0) bit = (b && isSet flag bit) := by
  cases b
  · exact isSet_zero bit
  · exact (Bool.true_and _).symm

lemma isSet_fieldFlags (present value : BitVec 64) (o : Option Bool) (bit : BitVec 64) :
    isSet (fieldFlags present value o) bit =
      (o.isSome && isSet present bit || o.getD false && isSet value bit) := by
  cases o with
  | none => exact isSet_zero bit
  | some b =>
    rw [fieldFlags, isSet_or, isSet_ite]
    rfl

/-- The flags of a data descriptor are its fields. -/
lemma isSet_data {V : Type} (v : Option V) (w e c : Option Bool) :
    let flags := (Descriptor.data v w e c).flagsByte
    isSet flags presentValue = v.isSome ∧ isSet flags presentWritable = w.isSome ∧
      isSet flags presentEnumerable = e.isSome ∧ isSet flags presentConfigurable = c.isSome ∧
      isSet flags flagWritable = w.getD false ∧ isSet flags flagEnumerable = e.getD false ∧
      isSet flags flagConfigurable = c.getD false := by
  simp only [Descriptor.flagsByte, isSet_or, isSet_ite, isSet_fieldFlags]
  simp [isSet, presentValue, presentWritable, presentEnumerable, presentConfigurable,
    flagWritable, flagEnumerable, flagConfigurable]

/-- The flags of an accessor descriptor are its fields. -/
lemma isSet_accessor {V : Type} (faces : Faces) (e c : Option Bool) :
    let flags := (Descriptor.accessor (V := V) faces e c).flagsByte
    isSet flags presentValue = true ∧ isSet flags presentWritable = false ∧
      isSet flags presentEnumerable = e.isSome ∧ isSet flags presentConfigurable = c.isSome ∧
      isSet flags flagEnumerable = e.getD false ∧ isSet flags flagConfigurable = c.getD false ∧
      isSet flags presentGet = faces.get?.isSome ∧ isSet flags presentSet = faces.set?.isSome := by
  simp only [Descriptor.flagsByte, isSet_or, isSet_ite, isSet_fieldFlags]
  simp [isSet, presentValue, presentWritable, presentEnumerable, presentConfigurable, presentGet,
    presentSet, flagEnumerable, flagConfigurable]

/-- Each flag is folded by itself. -/
lemma isSet_foldFlags (flagsByte curFlags : BitVec 64) :
    (isSet (foldFlags flagsByte curFlags) flagWritable =
      if isSet flagsByte presentWritable then isSet flagsByte flagWritable
      else isSet curFlags flagWritable) ∧
    (isSet (foldFlags flagsByte curFlags) flagEnumerable =
      if isSet flagsByte presentEnumerable then isSet flagsByte flagEnumerable
      else isSet curFlags flagEnumerable) ∧
    (isSet (foldFlags flagsByte curFlags) flagConfigurable =
      if isSet flagsByte presentConfigurable then isSet flagsByte flagConfigurable
      else isSet curFlags flagConfigurable) := by
  unfold foldFlags
  simp only [isSet_or, isSet_ite]
  simp [isSet, flagWritable, flagEnumerable, flagConfigurable]

/-! ### One step -/

/-- One step of the code, as the specification sees it. -/
def stepped (heap : Heap) (e : Entry) (d : Descriptor AnyValue) : Bool × Property :=
  ((redefine heap e d).refusal.isNone, (redefine heap e d).entry.property heap)

/-- When a step is the specified one.  An accessor whose flags still hold a `writable` from a time
when the property was a data property must not get a value without a `writable` field while it is
configurable; and a `writable` field without a value must not come to an accessor, unless it is
refused for another of its fields. -/
def AsSpecified (e : Entry) : Descriptor AnyValue → Prop
  | .data (some _) none _ _ =>
    ¬ (e.slot.isAccessor = true ∧ isSet e.flags flagConfigurable = true ∧
      isSet e.flags flagWritable = true)
  | .data none (some _) enumerable configurable =>
    e.slot.isAccessor = true → isSet e.flags flagConfigurable = false ∧
      (configurable = some true ∨ changes enumerable (isSet e.flags flagEnumerable) = true)
  | .data (some _) (some _) _ _ | .data none none _ _ | .accessor .. => True

section Step

variable (heap : Heap) (e : Entry)

lemma isSome_and_getD (o : Option Bool) : (o.isSome && o.getD false) = (o == some true) := by
  rcases o with _ | _ | _ <;> rfl

lemma isSome_and_getD_ne (o : Option Bool) (b : Bool) :
    (o.isSome && o.getD false != b) = changes o b := by
  cases o with
  | none => rfl
  | some c => exact Bool.true_and _

lemma ite_isSome_getD (o : Option Bool) (b : Bool) :
    (if o.isSome then o.getD false else b) = o.getD b := by
  cases o with
  | none => rfl
  | some c => rfl

/-- A value changes when SameValue says that it does. -/
lemma isSome_and_sameSlot (dv : Option AnyValue) (v : AnyValue) :
    (dv.isSome && !sameSlot heap (.value (dv.getD .undefined)) (.value v)) =
      changes (dv.map (·.denote heap)) (v.denote heap) := by
  cases dv with
  | none => rfl
  | some w =>
    rw [Bool.eq_iff_iff]
    simp only [Option.isSome_some, Bool.true_and, Bool.not_eq_true', Option.getD_some, sameSlot,
      Option.map_some, changes, Option.any_some, bne_iff_ne, ne_eq, ← sameValue_iff]
    exact Bool.eq_false_iff

/-- **What a data descriptor is refused for.** -/
lemma validate_data (dv : Option AnyValue) (dw de dc : Option Bool) :
    (validate heap e (Descriptor.data dv dw de dc).incoming
      (Descriptor.data dv dw de dc).flagsByte).isNone =
    !(!isSet e.flags flagConfigurable &&
      (dc == some true || changes de (isSet e.flags flagEnumerable) ||
        match e.slot with
        | .value v => !isSet e.flags flagWritable &&
            (dw == some true || changes (dv.map (·.denote heap)) (v.denote heap))
        | .accessor _ => dv.isSome)) := by
  obtain ⟨hv, hw, he, hc, hfw, hfe, hfc⟩ := isSet_data dv dw de dc
  unfold validate
  simp only [hv, hw, he, hc, hfw, hfe, hfc, isSome_and_getD, isSome_and_getD_ne]
  cases hslot : e.slot with
  | value v =>
    simp only [Descriptor.incoming, Slot.isAccessor, isSome_and_sameSlot]
    cases isSet e.flags flagConfigurable <;> cases dc == some true <;>
      cases changes de (isSet e.flags flagEnumerable) <;> cases isSet e.flags flagWritable <;>
      cases dw == some true <;> cases changes (dv.map (·.denote heap)) (v.denote heap) <;>
      simp
  | accessor pair =>
    simp only [Descriptor.incoming, Slot.isAccessor]
    cases isSet e.flags flagConfigurable <;> cases dc == some true <;>
      cases changes de (isSet e.flags flagEnumerable) <;> cases dv.isSome <;> simp

/-- What an accessor descriptor is refused for, up to its faces. -/
lemma validate_accessor (faces : Faces) (de dc : Option Bool) :
    (validate heap e (Descriptor.accessor faces de dc).incoming
      (Descriptor.accessor (V := AnyValue) faces de dc).flagsByte).isNone =
    !(!isSet e.flags flagConfigurable &&
      (dc == some true || changes de (isSet e.flags flagEnumerable) || !e.slot.isAccessor)) := by
  obtain ⟨hv, hw, he, hc, hfe, hfc, -, -⟩ := isSet_accessor (V := AnyValue) faces de dc
  unfold validate
  simp only [hv, hw, he, hc, hfe, hfc, isSome_and_getD, isSome_and_getD_ne]
  simp only [Descriptor.incoming, Slot.isAccessor]
  cases isSet e.flags flagConfigurable <;> cases dc == some true <;>
    cases changes de (isSet e.flags flagEnumerable) <;> cases hslot : e.slot <;> simp

lemma changesFunction_iff (field : Option (Option Face)) (current : Option Face) :
    changesFunction field current = true ↔
      field.isSome = true ∧ (field.getD none).map Face.closure ≠ current.map Face.closure := by
  cases field with
  | none => simp [changesFunction, changes]
  | some f => simp [changesFunction, changes]

/-- A face that is absent inherits the current one. -/
lemma inherit_face (field : Option (Option Face)) (current : Option Face) :
    (if field.isSome = false ∧ current.isSome then current else field.getD none) =
      field.getD current := by
  cases field with
  | some f => rfl
  | none =>
    cases current with
    | none => rfl
    | some f => rfl

/-- **A pair over a pair** is refused when a face changes, and merged otherwise. -/
lemma mergeAccessorRedefine_spec (cur : AccessorPair) (faces : Faces) (de dc : Option Bool)
    (configurable : Bool) :
    mergeAccessorRedefine cur ⟨faces.get?.getD none, faces.set?.getD none⟩
        (Descriptor.accessor (V := AnyValue) faces de dc).flagsByte configurable =
      if !configurable && (changesFunction faces.get? cur.get || changesFunction faces.set? cur.set)
      then none else some ⟨faces.get?.getD cur.get, faces.set?.getD cur.set⟩ := by
  obtain ⟨-, -, -, -, -, -, hget, hset⟩ := isSet_accessor (V := AnyValue) faces de dc
  unfold mergeAccessorRedefine
  simp only [hget, hset, inherit_face]
  refine if_congr ?_ rfl rfl
  rw [Bool.and_eq_true, Bool.or_eq_true, changesFunction_iff, changesFunction_iff,
    Bool.not_eq_true']

lemma property_rebox (slot : Slot) (flags : BitVec 64) :
    (Entry.mk (rebox heap slot) flags).property heap = (Entry.mk slot flags).property heap := by
  cases slot with
  | accessor pair => rfl
  | value v =>
    cases v with
    | shortStr bytes =>
      change Property.data (heap.valueAt (heap.materialize bytes)) _ _ _ = _
      rw [Heap.valueAt, heap.materialized]
      rfl
    | undefined | null | bool | int32 | double | cell => rfl

/-- A data descriptor that is not refused stores its value, if it has one. -/
lemma stepped_data (dv : Option AnyValue) (dw de dc : Option Bool) :
    stepped heap e (.data dv dw de dc) =
      if (validate heap e (Descriptor.data dv dw de dc).incoming
        (Descriptor.data dv dw de dc).flagsByte).isNone then
        (true, (Entry.mk (match dv with | some v => .value v | none => e.slot)
          (foldFlags (Descriptor.data dv dw de dc).flagsByte e.flags)).property heap)
      else (false, e.property heap) := by
  obtain ⟨hv, -⟩ := isSet_data dv dw de dc
  unfold stepped redefine redefineEntry
  cases hval : validate heap e (Descriptor.data dv dw de dc).incoming
      (Descriptor.data dv dw de dc).flagsByte with
  | some text => rfl
  | none =>
    simp only [hv]
    cases dv with
    | none =>
      refine Prod.ext rfl ?_
      exact property_rebox heap e.slot _
    | some v => rfl

/-- An accessor descriptor that is not refused stores its pair. -/
lemma stepped_accessor (faces : Faces) (de dc : Option Bool) :
    stepped heap e (.accessor faces de dc) =
      if (validate heap e (Descriptor.accessor faces de dc).incoming
        (Descriptor.accessor (V := AnyValue) faces de dc).flagsByte).isNone then
        match mergeIncoming e (Descriptor.accessor faces de dc).incoming
          (Descriptor.accessor (V := AnyValue) faces de dc).flagsByte with
        | none => (false, e.property heap)
        | some slot => (true, (Entry.mk slot
          (foldFlags (Descriptor.accessor (V := AnyValue) faces de dc).flagsByte
            e.flags)).property heap)
      else (false, e.property heap) := by
  obtain ⟨hv, -⟩ := isSet_accessor (V := AnyValue) faces de dc
  unfold stepped redefine redefineEntry
  cases hval : validate heap e (Descriptor.accessor faces de dc).incoming
      (Descriptor.accessor (V := AnyValue) faces de dc).flagsByte with
  | some text => rfl
  | none =>
    simp only [hv]
    cases mergeIncoming e (Descriptor.accessor faces de dc).incoming
      (Descriptor.accessor (V := AnyValue) faces de dc).flagsByte with
    | none => rfl
    | some slot => rfl

/-- The flags behind a data descriptor. -/
lemma fold_data {V : Type} (dv : Option V) (dw de dc : Option Bool) (flags : BitVec 64) :
    let folded := foldFlags (Descriptor.data dv dw de dc).flagsByte flags
    isSet folded flagWritable = dw.getD (isSet flags flagWritable) ∧
      isSet folded flagEnumerable = de.getD (isSet flags flagEnumerable) ∧
      isSet folded flagConfigurable = dc.getD (isSet flags flagConfigurable) := by
  obtain ⟨-, hw, he, hc, hfw, hfe, hfc⟩ := isSet_data dv dw de dc
  obtain ⟨hw', he', hc'⟩ := isSet_foldFlags (Descriptor.data dv dw de dc).flagsByte flags
  dsimp only
  rw [hw', he', hc', hw, he, hc, hfw, hfe, hfc]
  exact ⟨ite_isSome_getD _ _, ite_isSome_getD _ _, ite_isSome_getD _ _⟩

/-- The flags behind an accessor descriptor; the `writable` bit stays. -/
lemma fold_accessor (faces : Faces) (de dc : Option Bool) (flags : BitVec 64) :
    let folded := foldFlags (Descriptor.accessor (V := AnyValue) faces de dc).flagsByte flags
    isSet folded flagWritable = isSet flags flagWritable ∧
      isSet folded flagEnumerable = de.getD (isSet flags flagEnumerable) ∧
      isSet folded flagConfigurable = dc.getD (isSet flags flagConfigurable) := by
  obtain ⟨-, hw, he, hc, hfe, hfc, -, -⟩ := isSet_accessor (V := AnyValue) faces de dc
  obtain ⟨hw', he', hc'⟩ :=
    isSet_foldFlags (Descriptor.accessor (V := AnyValue) faces de dc).flagsByte flags
  dsimp only
  rw [hw', he', hc', hw, he, hc, hfe, hfc]
  exact ⟨rfl, ite_isSome_getD _ _, ite_isSome_getD _ _⟩

lemma ite_not_bool {α : Type} (b : Bool) (x y : α) :
    (if (!b) = true then x else y) = if b = true then y else x := by
  cases b with
  | false => rfl
  | true => rfl

/-- **A data property** is redefined as specified. -/
lemma stepped_value {v : AnyValue} (hslot : e.slot = .value v) (d : Descriptor AnyValue) :
    stepped heap e d = validateAndApply (e.property heap) (d.denote heap) := by
  have hproperty : e.property heap = .data (v.denote heap) (isSet e.flags flagWritable)
      (isSet e.flags flagEnumerable) (isSet e.flags flagConfigurable) := by
    rw [Entry.property, hslot]
  cases d with
  | data dv dw de dc =>
    obtain ⟨hw, he, hc⟩ := fold_data dv dw de dc e.flags
    rw [stepped_data, validate_data, hslot, hproperty, validateAndApply, ite_not_bool]
    refine if_congr Iff.rfl rfl (Prod.ext rfl ?_)
    cases dv with
    | none =>
      change Property.data _ _ _ _ = Property.data _ _ _ _
      rw [hw, he, hc]
      rfl
    | some x =>
      change Property.data _ _ _ _ = Property.data _ _ _ _
      rw [hw, he, hc]
      rfl
  | accessor faces de dc =>
    obtain ⟨-, he, hc⟩ := fold_accessor faces de dc e.flags
    rw [stepped_accessor, validate_accessor, hslot, hproperty, validateAndApply, ite_not_bool]
    refine if_congr Iff.rfl rfl ?_
    have hmerge : mergeIncoming e (Descriptor.accessor faces de dc).incoming
        (Descriptor.accessor (V := AnyValue) faces de dc).flagsByte =
        some (.accessor ⟨faces.get?.getD none, faces.set?.getD none⟩) := by
      unfold mergeIncoming
      rw [hslot]
      rfl
    rw [hmerge]
    refine Prod.ext rfl ?_
    change Property.accessor _ _ _ _ = Property.accessor _ _ _ _
    rw [he, hc]

/-- A refusal on either of two grounds. -/
lemma refusal_join {α : Type} (r m : Bool) (x : α) (pair : AccessorPair) (f : Slot → α) :
    (if r = true then x else
      match (if m = true then none else some pair).map Slot.accessor with
      | none => x
      | some slot => f slot) = if (r || m) = true then x else f (.accessor pair) := by
  cases r with
  | true => rfl
  | false =>
    cases m with
    | true => rfl
    | false => rfl

/-- **An accessor** takes an accessor descriptor as specified. -/
lemma stepped_accessor_accessor {pair : AccessorPair} (hslot : e.slot = .accessor pair)
    (faces : Faces) (de dc : Option Bool) :
    stepped heap e (.accessor faces de dc) =
      validateAndApply (e.property heap) (.accessor faces de dc) := by
  have hproperty : e.property heap = .accessor pair.get pair.set
      (isSet e.flags flagEnumerable) (isSet e.flags flagConfigurable) := by
    rw [Entry.property, hslot]
  obtain ⟨-, he, hc⟩ := fold_accessor faces de dc e.flags
  have hmerge : mergeIncoming e (Descriptor.accessor faces de dc).incoming
      (Descriptor.accessor (V := AnyValue) faces de dc).flagsByte =
      (if !isSet e.flags flagConfigurable &&
        (changesFunction faces.get? pair.get || changesFunction faces.set? pair.set)
      then none else some ⟨faces.get?.getD pair.get, faces.set?.getD pair.set⟩).map
        Slot.accessor := by
    unfold mergeIncoming
    rw [hslot]
    dsimp only [Descriptor.incoming]
    rw [mergeAccessorRedefine_spec]
  have hrefused : refused (.accessor pair.get pair.set (isSet e.flags flagEnumerable)
        (isSet e.flags flagConfigurable)) (.accessor faces de dc) =
      (!isSet e.flags flagConfigurable &&
        (dc == some true || changes de (isSet e.flags flagEnumerable) || !true) ||
        !isSet e.flags flagConfigurable &&
          (changesFunction faces.get? pair.get || changesFunction faces.set? pair.set)) := by
    rw [← Bool.and_or_distrib_left, Bool.not_true, Bool.or_false]
    rfl
  rw [stepped_accessor, validate_accessor, hslot, hmerge, hproperty, validateAndApply,
    ite_not_bool, hrefused]
  refine (refusal_join _ _ _ _ _).trans (if_congr Iff.rfl rfl (Prod.ext rfl ?_))
  change Property.accessor _ _ _ _ = Property.accessor _ _ _ _
  rw [he, hc]

/-- **An accessor** takes a data descriptor as specified under the condition only. -/
lemma stepped_accessor_data {pair : AccessorPair} (hslot : e.slot = .accessor pair)
    (dv : Option AnyValue) (dw de dc : Option Bool) :
    stepped heap e (.data dv dw de dc) =
      validateAndApply (e.property heap) ((Descriptor.data dv dw de dc).denote heap) ↔
      AsSpecified e (.data dv dw de dc) := by
  have hproperty : e.property heap = .accessor pair.get pair.set
      (isSet e.flags flagEnumerable) (isSet e.flags flagConfigurable) := by
    rw [Entry.property, hslot]
  obtain ⟨hw, he, hc⟩ := fold_data dv dw de dc e.flags
  rw [stepped_data, validate_data, hslot, hproperty, validateAndApply, ite_not_bool]
  cases dv with
  | none =>
    have hstored : (Entry.mk (.accessor pair)
        (foldFlags (Descriptor.data (V := AnyValue) none dw de dc).flagsByte e.flags)).property heap =
        .accessor pair.get pair.set (de.getD (isSet e.flags flagEnumerable))
          (dc.getD (isSet e.flags flagConfigurable)) := by
      change Property.accessor _ _ _ _ = Property.accessor _ _ _ _
      rw [he, hc]
    cases dw with
    | none =>
      refine iff_of_true (if_congr Iff.rfl rfl (Prod.ext rfl ?_)) trivial
      exact hstored
    | some w =>
      have hcond : AsSpecified e (.data none (some w) de dc) ↔
          isSet e.flags flagConfigurable = false ∧
            (dc == some true || changes de (isSet e.flags flagEnumerable)) = true := by
        rw [AsSpecified, hslot, Bool.or_eq_true, beq_iff_eq]
        exact ⟨fun h => h rfl, fun h _ => h⟩
      rw [hcond]
      dsimp only
      rw [hstored]
      cases hconf : isSet e.flags flagConfigurable with
      | true =>
        refine iff_of_false (fun h => ?_) (fun h => Bool.noConfusion h.1)
        exact Property.noConfusion (congrArg Prod.snd h)
      | false =>
        change (if (dc == some true || changes de _ || false) = true then _ else _) =
          (if (dc == some true || changes de _ || true) = true then _ else _) ↔ _
        rw [Bool.or_false, Bool.or_true, if_pos rfl, and_iff_right rfl]
        split_ifs with hother
        · exact iff_of_true rfl hother
        · exact iff_of_false (fun h => Bool.noConfusion (congrArg Prod.fst h)) hother
  | some v =>
    have hstored : (Entry.mk (.value v)
        (foldFlags (Descriptor.data (some v) dw de dc).flagsByte e.flags)).property heap =
        .data (v.denote heap) (dw.getD (isSet e.flags flagWritable))
          (de.getD (isSet e.flags flagEnumerable)) (dc.getD (isSet e.flags flagConfigurable)) := by
      change Property.data _ _ _ _ = Property.data _ _ _ _
      rw [hw, he, hc]
    dsimp only
    rw [hstored]
    cases dw with
    | some w => exact iff_of_true (if_congr Iff.rfl rfl rfl) trivial
    | none =>
      rw [AsSpecified, hslot]
      cases hconf : isSet e.flags flagConfigurable with
      | false =>
        refine iff_of_true ?_ fun h => Bool.noConfusion h.2.1
        change (if (_ || true) = true then _ else _) = (if (_ || true) = true then _ else _)
        rw [Bool.or_true, Bool.or_true]
        rfl
      | true =>
        cases isSet e.flags flagWritable with
        | false => exact iff_of_true rfl fun h => Bool.noConfusion h.2.2
        | true =>
          refine iff_of_false (fun h => ?_) fun h => h ⟨rfl, rfl, rfl⟩
          exact Bool.noConfusion (Property.data.inj (congrArg Prod.snd h)).2.1

/-- **One step** is the specified one exactly under the condition. -/
lemma stepped_iff (d : Descriptor AnyValue) :
    stepped heap e d = validateAndApply (e.property heap) (d.denote heap) ↔ AsSpecified e d := by
  cases hslot : e.slot with
  | value v =>
    refine iff_of_true (stepped_value heap e hslot d) ?_
    have hnot : ¬ e.slot.isAccessor = true := by
      rw [hslot]
      exact Bool.false_ne_true
    cases d with
    | accessor faces de dc => trivial
    | data dv dw de dc =>
      cases dv with
      | none =>
        cases dw with
        | none => trivial
        | some w => exact fun h => absurd h hnot
      | some x =>
        cases dw with
        | none => exact fun h => hnot h.1
        | some w => trivial
  | accessor pair =>
    cases d with
    | accessor faces de dc =>
      exact iff_of_true (stepped_accessor_accessor heap e hslot faces de dc) trivial
    | data dv dw de dc => exact stepped_accessor_data heap e hslot dv dw de dc

end Step

/-! ### Runs -/

/-- The answers of a run of the code, with the property behind each. -/
def redefineRun (heap : Heap) (e : Entry) : List (Descriptor AnyValue) → List (Bool × Property)
  | [] => []
  | d :: ds => stepped heap e d :: redefineRun heap (redefine heap e d).entry ds

/-- The answers of a run of the specification. -/
def specifiedRun (p : Property) : List (Descriptor JsValue) → List (Bool × Property)
  | [] => []
  | d :: ds => validateAndApply p d :: specifiedRun (validateAndApply p d).2 ds

/-- Every step of a run meets the condition. -/
def AllAsSpecified (heap : Heap) (e : Entry) : List (Descriptor AnyValue) → Prop
  | [] => True
  | d :: ds => AsSpecified e d ∧ AllAsSpecified heap (redefine heap e d).entry ds

/-- A refusal leaves the entry as it is. -/
lemma redefine_refused (heap : Heap) (e : Entry) (d : Descriptor AnyValue)
    (hrefused : (redefine heap e d).refusal ≠ none) : (redefine heap e d).entry = e := by
  unfold redefine redefineEntry at hrefused ⊢
  cases hval : validate heap e d.incoming d.flagsByte with
  | some text => rfl
  | none =>
    rw [hval] at hrefused
    dsimp only at hrefused ⊢
    split_ifs at hrefused ⊢ with hvalue
    · cases hmerge : mergeIncoming e d.incoming d.flagsByte with
      | none => rfl
      | some slot =>
        rw [hmerge] at hrefused
        exact absurd rfl hrefused
    · exact absurd rfl hrefused

/-- **When redefinition implements ValidateAndApplyPropertyDescriptor.**  A run of descriptors over
an entry is answered, and leaves the property, as the specification says at every step if and only
if every step meets the condition; and a step that is refused leaves the entry as it is. -/
theorem redefine_exact_iff (heap : Heap) (e : Entry) (ds : List (Descriptor AnyValue)) :
    (redefineRun heap e ds = specifiedRun (e.property heap) (ds.map (·.denote heap)) ↔
      AllAsSpecified heap e ds) ∧
    ∀ d, (redefine heap e d).refusal ≠ none → (redefine heap e d).entry = e := by
  refine ⟨?_, redefine_refused heap e⟩
  induction ds generalizing e with
  | nil => exact iff_of_true rfl trivial
  | cons d ds ih =>
    rw [List.map_cons, redefineRun, specifiedRun, List.cons.injEq, stepped_iff, AllAsSpecified]
    refine and_congr_right fun hd => ?_
    have hstep := (stepped_iff heap e d).mpr hd
    rw [← ih, ← hstep]
    rfl

/-- A heap with every string in it. -/
def stringHeap : Heap where
  cell p :=
    match (Encodable.decode p : Option (List ℕ)) with
    | some bytes => .str (bytes.map UInt8.ofNat)
    | none => .object
  materialize bytes := Encodable.encode (bytes.map UInt8.toNat)
  materialized bytes := by
    rw [Encodable.encodek]
    dsimp only
    rw [List.map_map]
    congr 1
    exact List.map_id'' (fun b => UInt8.ofNat_toNat) bytes

/-- A property that is writable becomes an accessor, and a data property again: it is still
writable. -/
theorem redefine_stale_writable :
    redefineRun stringHeap ⟨.value .undefined, flagWritable ||| flagConfigurable⟩
        [.accessor (.get none) none none, .data (some .null) none none none] ≠
      specifiedRun (Entry.property stringHeap
          ⟨.value .undefined, flagWritable ||| flagConfigurable⟩)
        [.accessor (.get none) none none, .data (some .null) none none none] := by
  decide

end Torajs.Dynobj
