import ToraJs.Collections.Key

/-!
# The table of a Map or Set

A Map is a dense array of entries in insertion order and a table of slots that finds
them.  The slot table is Robin Hood: an insertion displaces a resident that is closer to
its ideal slot than the element in hand, and a lookup gives up at the first resident that
it has out-probed.  A deleted entry keeps its place in the array under hash zero, its slot
becomes a tombstone, and a rehash drops both.  A Set has the same table, with `undefined`
for every value.

Sizes are 32-bit.  An operation answers `none` where the code would loop for ever or
leave its arrays.
-/

namespace Torajs.Collections

/-- The value a 32-bit register keeps. -/
def u32 (n : ℕ) : ℕ := n % 2 ^ 32

/-! ### Slots -/

/-- The entry index of a slot that was never used. -/
def slotEmpty : ℕ := 0xffffffff

/-- The entry index of a slot whose entry was deleted. -/
def slotTombstone : ℕ := 0xfffffffe

/-- A slot, a word of 32 bits of hash and 32 bits of entry index. -/
structure MapSlot where
  hash : ℕ
  index : ℕ
deriving DecidableEq, Repr

/-- The slot written on creation. -/
def MapSlot.empty : MapSlot := ⟨0, slotEmpty⟩

/-- The slot written on deletion; its hash is zero. -/
def MapSlot.tombstone : MapSlot := ⟨0, slotTombstone⟩

/-- The slot leads to an entry. -/
def MapSlot.isLive (s : MapSlot) : Bool := s.index != slotEmpty && s.index != slotTombstone

/-- The loop of an insertion: `cur` is the element in hand, `probe` its distance from its
ideal slot.  A tombstone in the way is compared and displaced like any resident, at the
distance its hash zero gives it. -/
def slotInsertLoop (cap : ℕ) : ℕ → List MapSlot → ℕ → ℕ → MapSlot → Option (List MapSlot)
  | 0, _, _, _, _ => none
  | fuel + 1, slots, i, probe, cur =>
    let mask := cap - 1
    match slots[i]? with
    | none => none
    | some s =>
      if s.index = slotEmpty then some (slots.set i cur)
      else
        let slotIdeal := s.hash &&& mask
        let slotProbe := (i + cap - slotIdeal) &&& mask
        if slotProbe < probe then
          slotInsertLoop cap fuel (slots.set i cur) ((i + 1) &&& mask) (slotProbe + 1) s
        else slotInsertLoop cap fuel slots ((i + 1) &&& mask) (probe + 1) cur

/-- Insert `(hash, idx)` into the slots. -/
def mapSlotInsert (slots : List MapSlot) (cap hash idx : ℕ) : Option (List MapSlot) :=
  slotInsertLoop cap cap slots (hash &&& (cap - 1)) 0 ⟨hash, idx⟩

/-! ### The map -/

/-- An entry; hash zero marks a deleted one. -/
structure MapEntry where
  hash : ℕ
  keyAnyv : AnyValue
  valueAnyv : AnyValue
deriving DecidableEq

/-- The entry left behind by a deletion. -/
def MapEntry.deleted : MapEntry := ⟨0, .null, .null⟩

/-- The entry is not deleted. -/
def MapEntry.isLive (e : MapEntry) : Bool := e.hash != 0

/-- A Map or Set.  `valuesNumber` is the header flag of a `Map<K, number>`; `entries` is
the used prefix of the entry array, whose capacity is `entriesCap`. -/
structure Map where
  valuesNumber : Bool
  nEntries : ℕ
  nTombstones : ℕ
  entriesCap : ℕ
  generation : ℕ
  slots : List MapSlot
  entries : List MapEntry
deriving DecidableEq

/-- The length of the used prefix of the entry array. -/
def Map.nUsed (m : Map) : ℕ := m.entries.length

/-- The number of slots. -/
def Map.slotsCount (m : Map) : ℕ := m.slots.length

/-- The capacity of the entry array at creation. -/
def mapEntriesInitial : ℕ := 8

/-- The number of slots at creation. -/
def mapSlotsInitial : ℕ := 16

/-- A fresh map. -/
def mapCreate (valuesNumber : Bool) : Map where
  valuesNumber
  nEntries := 0
  nTombstones := 0
  entriesCap := mapEntriesInitial
  generation := 0
  slots := List.replicate mapSlotsInitial MapSlot.empty
  entries := []

/-! ### Lookup -/

/-- The outcome of a lookup. -/
structure LookupResult where
  slotIdx : ℕ
  entryIdx : ℕ
  hash : ℕ
  found : Bool
deriving DecidableEq, Repr

/-- The answer of a lookup that finds nothing: the first tombstone seen, else the slot the
walk stopped at. -/
def lookupMiss (m : Map) (hash i firstTomb : ℕ) : LookupResult where
  slotIdx := if firstTomb ≠ m.slotsCount then firstTomb else i
  entryIdx := slotEmpty
  hash
  found := false

/-- The walk of a lookup; the first argument counts the probes left. -/
def lookupLoop (m : Map) (k : AnyPair) (hash : ℕ) : ℕ → ℕ → ℕ → ℕ → Option LookupResult
  | 0, i, _, firstTomb => some (lookupMiss m hash i firstTomb)
  | left + 1, i, probe, firstTomb =>
    let mask := m.slotsCount - 1
    match m.slots[i]? with
    | none => none
    | some s =>
      if s.index = slotEmpty then some (lookupMiss m hash i firstTomb)
      else if s.index = slotTombstone then
        lookupLoop m k hash left ((i + 1) &&& mask) (probe + 1)
          (if firstTomb = m.slotsCount then i else firstTomb)
      else if s.hash = hash then
        match m.entries[s.index]? with
        | none => none
        | some e =>
          if mapKeysEqual (storedPair e.keyAnyv) k then
            some { slotIdx := i, entryIdx := s.index, hash, found := true }
          else lookupLoop m k hash left ((i + 1) &&& mask) (probe + 1) firstTomb
      else
        let slotIdeal := s.hash &&& mask
        let slotProbe := (i + m.slotsCount - slotIdeal) &&& mask
        if slotProbe < probe then some (lookupMiss m hash i firstTomb)
        else lookupLoop m k hash left ((i + 1) &&& mask) (probe + 1) firstTomb

/-- Look a key up. -/
def mapLookupSlot (m : Map) (k : AnyPair) : Option LookupResult :=
  let hash := mapHashKey k
  lookupLoop m k hash m.slotsCount (hash &&& (m.slotsCount - 1)) 0 m.slotsCount

/-! ### Rehash -/

/-- The copy loop of a rehash: live entries move to the end of the new array and are
inserted into the new slots. -/
def rehashLoop (newEntriesCap newSlotsCount : ℕ) :
    List MapEntry → List MapEntry → List MapSlot → Option (List MapEntry × List MapSlot)
  | [], newE, newS => some (newE, newS)
  | src :: rest, newE, newS =>
    if src.hash = 0 then rehashLoop newEntriesCap newSlotsCount rest newE newS
    else if newE.length < newEntriesCap then
      match mapSlotInsert newS newSlotsCount src.hash newE.length with
      | none => none
      | some newS' => rehashLoop newEntriesCap newSlotsCount rest (newE ++ [src]) newS'
    else none

/-- Compact the entries and rebuild the slots at the given sizes. -/
def mapRehash (m : Map) (newEntriesCap newSlotsCount : ℕ) : Option Map :=
  match rehashLoop newEntriesCap newSlotsCount m.entries []
      (List.replicate newSlotsCount MapSlot.empty) with
  | none => none
  | some (newE, newS) =>
    some { m with
      nTombstones := 0
      entriesCap := newEntriesCap
      generation := u32 (m.generation + 1)
      slots := newS
      entries := newE }

/-- Whether one more entry would push the slots over three quarters. -/
def slotLoadExceeded (nEntries nTombstones slotsCount : ℕ) : Bool :=
  decide (u32 (u32 (nEntries + nTombstones + 1) * 4) > u32 (slotsCount * 3))

/-! ### Operations -/

/-- The pattern of `-0.0`. -/
def negZero : BitVec 64 := 0x8000000000000000#64

/-- Key `-0` is stored as `+0`. -/
def normalizeKey : AnyPair → AnyPair
  | .f64 bits => if bits = negZero then .f64 0#64 else .f64 bits
  | k => k

/-- Whether a map takes a value of this kind: one that is marked keeps its values numbers or
undefined. -/
def admitsKind (valuesNumber : Bool) (v : AnyPair) : Bool :=
  if valuesNumber then
    match v with
    | .i64 _ => true
    | .f64 _ => true
    | .undef => true
    | _ => false
  else true

/-- Whether the map takes the value. -/
def admitsValue (m : Map) (v : AnyPair) : Bool := admitsKind m.valuesNumber v

/-- The slot-side growth of an insertion. -/
def growSlots (m : Map) : Option Map :=
  if slotLoadExceeded m.nEntries m.nTombstones m.slotsCount then
    let newEntries :=
      if u32 (m.nEntries + 1) > m.entriesCap then u32 (m.entriesCap * 2) else m.entriesCap
    mapRehash m newEntries (u32 (m.slotsCount * 2))
  else some m

/-- The entry-side growth of an insertion that found its key absent; answers the hash to
insert under as well. -/
def growEntries (m : Map) (k : AnyPair) (hash : ℕ) : Option (Map × ℕ) :=
  if m.nUsed ≥ m.entriesCap then do
    let m' ← mapRehash m (u32 (m.entriesCap * 2)) m.slotsCount
    let re ← mapLookupSlot m' k
    some (m', re.hash)
  else some (m, hash)

/-- Append a fresh entry and place its slot. -/
def appendEntry (m : Map) (hash : ℕ) (k v : AnyPair) : Option Map :=
  if m.nUsed < m.entriesCap then do
    let slots ← mapSlotInsert m.slots m.slotsCount hash m.nUsed
    some { m with
      nEntries := u32 (m.nEntries + 1)
      slots
      entries := m.entries ++ [⟨hash, boxFromPair k, boxFromPair v⟩] }
  else none

/-- Write the value of the entry at `idx`. -/
def overwriteEntry (m : Map) (idx : ℕ) (v : AnyPair) : Map :=
  { m with entries := m.entries.modify idx fun e => { e with valueAnyv := boxFromPair v } }

/-- `map.set(k, v)`, and `set.add(k)` with `v` undefined. -/
def mapSet (m : Map) (key v : AnyPair) : Option Map :=
  if admitsValue m v then do
    let k := normalizeKey key
    let m₁ ← growSlots m
    let lr ← mapLookupSlot m₁ k
    if lr.found then some (overwriteEntry m₁ lr.entryIdx v)
    else
      let (m₂, hash) ← growEntries m₁ k lr.hash
      appendEntry m₂ hash k v
  else some m

/-- `map.getOrInsert(k, default)`; answers the value as well. -/
def mapGetOrInsert (m : Map) (key default : AnyPair) : Option (Map × AnyPair) := do
  let k := normalizeKey key
  let lr ← mapLookupSlot m k
  if lr.found then
    match m.entries[lr.entryIdx]? with
    | none => none
    | some e => some (m, storedPair e.valueAnyv)
  else if admitsValue m default then
    let m' ← mapSet m k default
    some (m', default)
  else some (m, .undef)

/-- Mark the entry at `entryIdx` and its slot deleted. -/
def removeEntry (m : Map) (slotIdx entryIdx : ℕ) : Map :=
  { m with
    nEntries := m.nEntries - 1
    nTombstones := u32 (m.nTombstones + 1)
    slots := m.slots.set slotIdx MapSlot.tombstone
    entries := m.entries.set entryIdx MapEntry.deleted }

/-- `map.delete(k)`; answers whether an entry was removed. -/
def mapDelete (m : Map) (k : AnyPair) : Option (Map × Bool) := do
  let lr ← mapLookupSlot m k
  if lr.found then
    let m' := removeEntry m lr.slotIdx lr.entryIdx
    if m'.nTombstones > m'.slotsCount / 4 then
      let m'' ← mapRehash m' m'.entriesCap m'.slotsCount
      some (m'', true)
    else some (m', true)
  else some (m, false)

/-- `map.clear()`. -/
def mapClear (m : Map) : Map :=
  { m with
    nEntries := 0
    nTombstones := 0
    generation := u32 (m.generation + 1)
    slots := List.replicate m.slotsCount MapSlot.empty
    entries := [] }

/-- `map.size`. -/
def mapSize (m : Map) : ℕ := m.nEntries

/-- `map.has(k)`. -/
def mapHas (m : Map) (k : AnyPair) : Option Bool := do
  let lr ← mapLookupSlot m k
  some lr.found

/-- `map.get(k)`. -/
def mapGet (m : Map) (k : AnyPair) : Option AnyPair := do
  let lr ← mapLookupSlot m k
  if lr.found then
    match m.entries[lr.entryIdx]? with
    | none => none
    | some e => some (storedPair e.valueAnyv)
  else some .undef

end Torajs.Collections
