import ToraJs.Collections.Dictionary
import ToraJs.Lib.DictHistory

/-!
# Map and Set iterators

An iterator is a cursor into the array of entries.  The file compares it with the cursor
of a dictionary's history, along every interleaving of steps and edits.  The two agree as
long as no compaction finds a deleted entry below the cursor and no `clear` finds the cursor
past the start; otherwise the entries move and the cursor does not.
-/

namespace Torajs.Collections

open OrderedDict

/-! ### The iterators -/

/-- What an iterator made by `keys`, `values`, `entries` or a Set's `entries` yields. -/
inductive IterKind
  | keys
  | values
  | entries
  | setEntries
deriving DecidableEq

/-- A yielded payload: of a key, a value, a pair `[k, v]` or a pair `[k, k]`. -/
inductive Yield (K : Type)
  | key (k : K)
  | value (v : AnyPair)
  | pair (k : K) (v : AnyPair)
  | keyPair (k k' : K)
deriving DecidableEq

/-- Read the keys of a payload otherwise. -/
def Yield.map {K L : Type} (f : K → L) : Yield K → Yield L
  | .key k => .key (f k)
  | .value v => .value v
  | .pair k v => .pair (f k) v
  | .keyPair k k' => .keyPair (f k) (f k')

/-- The payload for an entry. -/
def IterKind.yield {K : Type} (kind : IterKind) (k : K) (v : AnyPair) : Yield K :=
  match kind with
  | .keys => .key k
  | .values => .value v
  | .entries => .pair k v
  | .setEntries => .keyPair k k

/-- A MapIter; the map it holds is passed to its steps. -/
structure MapIter where
  cursor : ℕ
  kind : IterKind
deriving DecidableEq

/-- The loop of a step: the first live entry from `i` on, with the index behind it.  The
first argument counts the entries left. -/
def iterLoop (m : Map) : ℕ → ℕ → Option (MapEntry × ℕ)
  | 0, _ => none
  | left + 1, i =>
    match m.entries[i]? with
    | none => none
    | some e => if e.hash = 0 then iterLoop m left (i + 1) else some (e, i + 1)

/-- A step of a MapIter. -/
def mapIterStep (it : MapIter) (m : Map) : MapIter × Option (Yield AnyPair) :=
  let i := u32 it.cursor
  match iterLoop m (m.nUsed - i) i with
  | some (e, i') =>
    ({ it with cursor := i' },
      some (it.kind.yield (storedPair e.keyAnyv) (storedPair e.valueAnyv)))
  | none => ({ it with cursor := m.nUsed }, none)

/-- A step of `forEach`, whose cursor the caller keeps; it is −1 before the first one. -/
def mapIterNext (m : Map) (cursor : ℤ) : ℤ × Option (AnyPair × AnyPair) :=
  let i := if cursor = -1 then 0 else (cursor % 2 ^ 32).toNat
  match iterLoop m (m.nUsed - i) i with
  | some (e, i') => (i', some (storedPair e.keyAnyv, storedPair e.valueAnyv))
  | none => (m.nUsed, none)

/-- An iterator of either surface. -/
inductive LiveIter
  | iter (it : MapIter)
  | forEach (cursor : ℤ)
deriving DecidableEq

/-- A new iterator: of `forEach`, or a MapIter of a kind. -/
def LiveIter.create : Option IterKind → LiveIter
  | none => .forEach (-1)
  | some kind => .iter ⟨0, kind⟩

/-- A step of an iterator. -/
def LiveIter.step (m : Map) : LiveIter → LiveIter × Option (Yield AnyPair)
  | .iter it =>
    let r := mapIterStep it m
    (.iter r.1, r.2)
  | .forEach cursor =>
    let r := mapIterNext m cursor
    (.forEach r.1, r.2.map fun kv => .pair kv.1 kv.2)

/-- What the collection and its iterator go through. -/
inductive IterEvent
  | mutate (op : MapOp)
  | next
deriving DecidableEq

/-- The yields of an iterator, and whether it has come to its end. -/
structure IterRun where
  yields : List (Yield AnyPair)
  exhausted : Bool
deriving DecidableEq

/-- Interleave operations and steps, until the iterator has come to its end. -/
def iterRun (m : Map) (it : LiveIter) : List IterEvent → Option IterRun
  | [] => some ⟨[], false⟩
  | .mutate op :: events => (op.run m).bind fun m' => iterRun m' it events
  | .next :: events =>
    match it.step m with
    | (_, none) => some ⟨[], true⟩
    | (it', some y) => (iterRun m it' events).map fun r => { r with yields := y :: r.yields }

/-- The entry at which an iterator stands. -/
def LiveIter.cursor : LiveIter → ℕ
  | .iter it => it.cursor
  | .forEach cursor => cursor.toNat

/-- What an iterator yields for an entry. -/
def LiveIter.kind : LiveIter → IterKind
  | .iter it => it.kind
  | .forEach _ => .entries

/-- Place an iterator. -/
def LiveIter.moveTo (i : ℕ) : LiveIter → LiveIter
  | .iter it => .iter { it with cursor := i }
  | .forEach _ => .forEach i

/-- The cursor of `forEach` is an index or −1. -/
def LiveIter.Valid : LiveIter → Prop
  | .iter _ => True
  | .forEach cursor => -1 ≤ cursor

/-- Both surfaces run the loop from the cursor. -/
lemma LiveIter.step_eq {m : Map} {it : LiveIter} (hvalid : it.Valid)
    (hlt : it.cursor < 2 ^ 32) :
    it.step m = match iterLoop m (m.nUsed - it.cursor) it.cursor with
      | some (e, i) =>
        (it.moveTo i, some (it.kind.yield (storedPair e.keyAnyv) (storedPair e.valueAnyv)))
      | none => (it.moveTo m.nUsed, none) := by
  cases it with
  | iter it =>
    have hu : u32 it.cursor = it.cursor := u32_of_lt hlt
    simp only [step, mapIterStep, cursor, hu]
    cases iterLoop m (m.nUsed - it.cursor) it.cursor <;> rfl
  | forEach c =>
    have hi : (if c = -1 then 0 else (c % 2 ^ 32).toNat) = c.toNat := by
      simp only [cursor, Valid] at hlt hvalid
      split_ifs with hc
      · rw [hc]
        rfl
      · rw [Int.emod_eq_of_lt (by omega) (by omega)]
    simp only [step, mapIterNext, cursor, hi]
    cases iterLoop m (m.nUsed - c.toNat) c.toNat <;> rfl

/-- The loop finds the first live entry from the cursor on. -/
lemma iterLoop_spec (m : Map) (left i : ℕ) (hleft : i + left = m.nUsed) :
    match iterLoop m left i with
    | none => liveDict (m.entries.drop i) = []
    | some (e, i') => i' ≤ m.nUsed ∧
      liveDict (m.entries.take i') = liveDict (m.entries.take i) ++ [e.pair] ∧
      liveDict (m.entries.drop i) = e.pair :: liveDict (m.entries.drop i') := by
  induction left generalizing i with
  | zero =>
    simp only [iterLoop]
    rw [List.drop_eq_nil_of_le (by unfold Map.nUsed at hleft; omega)]
    rfl
  | succ left ih =>
    have hi : i < m.entries.length := by
      unfold Map.nUsed at hleft
      omega
    have hdrop := List.drop_eq_getElem_cons hi
    have htake : m.entries.take (i + 1) = m.entries.take i ++ [m.entries[i]] := by
      rw [List.take_append_getElem]
    simp only [iterLoop, List.getElem?_eq_getElem hi]
    by_cases hdead : m.entries[i].hash = 0
    · have hlive : m.entries[i].isLive = false := by simp [MapEntry.isLive, hdead]
      have hrest := ih (i + 1) (by omega)
      rw [if_pos hdead]
      rw [htake, liveDict_append, liveDict_cons_dead hlive] at hrest
      rw [hdrop, liveDict_cons_dead hlive]
      simpa [liveDict] using hrest
    · have hlive : m.entries[i].isLive = true := by simpa [MapEntry.isLive] using hdead
      rw [if_neg hdead]
      refine ⟨hi, ?_, ?_⟩
      · rw [htake, liveDict_append, liveDict_cons_live hlive]
        rfl
      · rw [hdrop, liveDict_cons_live hlive]

/-! ### The two sides of a cursor -/

/-- The dictionaries of the entries before an index and of those from it on. -/
def sides (es : List MapEntry) (c : ℕ) : Dict × Dict :=
  (liveDict (es.take c), liveDict (es.drop c))

/-- The two sides make up the dictionary. -/
lemma sides_append (es : List MapEntry) (c : ℕ) :
    (sides es c).1 ++ (sides es c).2 = liveDict es := by
  rw [sides, ← liveDict_append, List.take_append_drop]

/-- No entry before the index is deleted. -/
def NoHoleBelow (es : List MapEntry) (c : ℕ) : Prop := ∀ e ∈ es.take c, e.isLive = true

instance (es : List MapEntry) (c : ℕ) : Decidable (NoHoleBelow es c) := by
  unfold NoHoleBelow
  infer_instance

/-- Compaction leaves the entries before the index where they are, if none is deleted. -/
lemma sides_filter {es : List MapEntry} {c : ℕ} (hc : c ≤ es.length) (h : NoHoleBelow es c) :
    c ≤ (es.filter MapEntry.isLive).length ∧
      sides (es.filter MapEntry.isLive) c = sides es c := by
  have hsplit : es.filter MapEntry.isLive = es.take c ++ (es.drop c).filter MapEntry.isLive := by
    conv_lhs => rw [← List.take_append_drop c es]
    rw [List.filter_append, List.filter_eq_self.mpr h]
  have hlen : (es.take c).length = c := List.length_take_of_le hc
  refine ⟨?_, ?_⟩
  · rw [hsplit, List.length_append, hlen]
    exact Nat.le_add_right _ _
  · rw [sides, hsplit, List.take_left' hlen, List.drop_left' hlen, liveDict_filter]
    rfl

/-- Growth leaves the entries before the index where they are. -/
lemma sides_sameLive {es fs : List MapEntry} {c : ℕ} (hsame : SameLive es fs)
    (hc : c ≤ es.length) (h : fs ≠ es → NoHoleBelow es c) :
    c ≤ fs.length ∧ sides fs c = sides es c := by
  by_cases heq : fs = es
  · rw [heq]
    exact ⟨hc, rfl⟩
  · rcases hsame with hfs | hfs
    · exact absurd hfs heq
    · rw [hfs]
      exact sides_filter hc (h heq)

/-- An appended entry is behind the index. -/
lemma sides_concat {es : List MapEntry} {c : ℕ} (hc : c ≤ es.length) {e : MapEntry}
    (he : e.isLive = true) :
    sides (es ++ [e]) c = ((sides es c).1, (sides es c).2 ++ [e.pair]) := by
  rw [sides, List.take_append_of_le_length hc, List.drop_append_of_le_length hc,
    liveDict_append, liveDict_cons_live he]
  rfl

/-- Overwriting a value changes it on the side it is on. -/
lemma sides_modify {es : List MapEntry} (hd : NodupKeys (liveDict es)) {i : ℕ} {e : MapEntry}
    (hi : es[i]? = some e) (he : e.isLive = true) (v : AnyValue) (c : ℕ) :
    sides (es.modify i fun e => { e with valueAnyv := v }) c =
      ((sides es c).1.map (revalue e.keyValue v), (sides es c).2.map (revalue e.keyValue v)) := by
  have hmem : e.keyValue ∈ (liveDict es).map Prod.fst :=
    List.mem_map.mpr ⟨e.pair, List.mem_map.mpr
      ⟨e, List.mem_filter.mpr ⟨List.mem_of_getElem? hi, he⟩, rfl⟩, rfl⟩
  have hwhole := liveDict_modify_value hd hi he v
  rw [put_of_mem hmem, ← sides_append es c, ← sides_append _ c, List.map_append] at hwhole
  have hhash : (es.modify i fun e => { e with valueAnyv := v }).map MapEntry.hash =
      es.map MapEntry.hash := by
    obtain ⟨xs, ys, rfl, rfl⟩ := exists_split_at hi
    rw [modify_split]
    simp
  have hlen : (sides (es.modify i fun e => { e with valueAnyv := v }) c).1.length =
      ((sides es c).1.map (revalue e.keyValue v)).length := by
    rw [List.length_map]
    simp only [sides, length_liveDict, ← length_liveRefs]
    refine congrArg List.length (liveRefs_congr ?_)
    rw [List.map_take, List.map_take, hhash]
  obtain ⟨h1, h2⟩ := List.append_inj hwhole hlen
  exact Prod.ext h1 h2

/-- Deleting an entry erases it on the side it is on. -/
lemma sides_deleted {es : List MapEntry} (hd : NodupKeys (liveDict es)) {i : ℕ} {e : MapEntry}
    (hi : es[i]? = some e) (he : e.isLive = true) (c : ℕ) :
    sides (es.set i .deleted) c =
      (erase (sides es c).1 e.keyValue, erase (sides es c).2 e.keyValue) := by
  have hwhole := liveDict_set_deleted hd hi he
  rw [← sides_append es c, ← sides_append _ c] at hwhole
  have hsplit : erase ((sides es c).1 ++ (sides es c).2) e.keyValue =
      erase (sides es c).1 e.keyValue ++ erase (sides es c).2 e.keyValue := List.filter_append ..
  rw [hsplit] at hwhole
  rw [← sides_append es c, NodupKeys, List.map_append, List.nodup_append] at hd
  have hkey : ∀ fs : List MapEntry, e ∈ fs → e.keyValue ∈ (liveDict fs).map Prod.fst :=
    fun fs hmem => List.mem_map.mpr ⟨e.pair, List.mem_map.mpr
      ⟨e, List.mem_filter.mpr ⟨hmem, he⟩, rfl⟩, rfl⟩
  have hfirst : (sides (es.set i .deleted) c).1 = erase (sides es c).1 e.keyValue := by
    rcases Nat.lt_or_ge i c with hlt | hge
    · have hi' : (es.take c)[i]? = some e := by rw [List.getElem?_take_of_lt hlt, hi]
      simp only [sides, List.take_set]
      exact liveDict_set_deleted hd.1 hi' he
    · have hmem : e ∈ es.drop c := by
        refine List.mem_of_getElem? (i := i - c) ?_
        rw [List.getElem?_drop, Nat.add_sub_cancel' hge, hi]
      have hnot : e.keyValue ∉ (sides es c).1.map Prod.fst :=
        fun h => hd.2.2 _ h _ (hkey _ hmem) rfl
      rw [erase_of_notMem hnot]
      simp only [sides, List.take_set_of_le hge]
  rw [hfirst] at hwhole
  exact Prod.ext hfirst (List.append_cancel_left hwhole)

/-! ### The condition -/

/-- Where `set` compacts the entries, none below the cursor is deleted. -/
def SetKeepsSides (m : Map) (c : ℕ) (key : AnyPair) : Prop :=
  (slotLoadExceeded m.nEntries m.nTombstones m.slotsCount = true → NoHoleBelow m.entries c) ∧
    ∀ lr ∈ mapLookupSlot m (normalizeKey key), lr.found = false → m.nUsed ≥ m.entriesCap →
      NoHoleBelow m.entries c

instance (m : Map) (c : ℕ) (key : AnyPair) : Decidable (SetKeepsSides m c key) := by
  unfold SetKeepsSides
  infer_instance

/-- The condition on an operation while a cursor stands at an index: a compaction finds no
deleted entry below the cursor, and `clear` finds nothing below it. -/
def KeepsSides (m : Map) (c : ℕ) : MapOp → Prop
  | .set key v => admitsValue m v = true → SetKeepsSides m c key
  | .getOrInsert key default =>
    ∀ lr ∈ mapLookupSlot m (normalizeKey key), lr.found = false →
      admitsValue m default = true → SetKeepsSides m c (normalizeKey key)
  | .delete key =>
    ∀ lr ∈ mapLookupSlot m key, lr.found = true →
      (removeEntry m lr.slotIdx lr.entryIdx).nTombstones >
        (removeEntry m lr.slotIdx lr.entryIdx).slotsCount / 4 →
      NoHoleBelow (removeEntry m lr.slotIdx lr.entryIdx).entries c
  | .clear => c = 0

instance (m : Map) (c : ℕ) : (op : MapOp) → Decidable (KeepsSides m c op)
  | .set key v => inferInstanceAs (Decidable (admitsValue m v = true → SetKeepsSides m c key))
  | .getOrInsert key default =>
    inferInstanceAs (Decidable (∀ lr ∈ mapLookupSlot m (normalizeKey key), lr.found = false →
      admitsValue m default = true → SetKeepsSides m c (normalizeKey key)))
  | .delete key =>
    inferInstanceAs (Decidable (∀ lr ∈ mapLookupSlot m key, lr.found = true →
      (removeEntry m lr.slotIdx lr.entryIdx).nTombstones >
        (removeEntry m lr.slotIdx lr.entryIdx).slotsCount / 4 →
      NoHoleBelow (removeEntry m lr.slotIdx lr.entryIdx).entries c))
  | .clear => inferInstanceAs (Decidable (c = 0))

/-- Every operation of the interleaving meets its conditions in the state before it. -/
def IterSafe (m : Map) (it : LiveIter) : List IterEvent → Prop
  | [] => True
  | .mutate op :: events =>
    StepSafe m op ∧ KeepsSides m it.cursor op ∧ ∀ m' ∈ op.run m, IterSafe m' it events
  | .next :: events => (it.step m).2.isSome = true → IterSafe m (it.step m).1 events

instance (m : Map) (it : LiveIter) (events : List IterEvent) :
    Decidable (IterSafe m it events) := by
  induction events generalizing m it with
  | nil => exact isTrue trivial
  | cons event events ih =>
    cases event <;> unfold IterSafe <;> infer_instance

/-! ### Operations under a cursor -/

/-- The edit of the dictionary that an operation makes, if the map takes the value. -/
def MapOp.edit (valuesNumber : Bool) : MapOp → Option (Edit JsValue AnyValue)
  | .set key v =>
    if admitsKind valuesNumber v then some (.put (jsValue key) (boxFromPair v)) else none
  | .getOrInsert key default =>
    if admitsKind valuesNumber default then
      some (.putAbsent (jsValue key) (boxFromPair default))
    else none
  | .delete key => some (.erase (jsValue key))
  | .clear => some .clear

/-- What an optional edit does on both sides of a cursor. -/
def editSides (e : Option (Edit JsValue AnyValue)) (p : Dict × Dict) : Dict × Dict :=
  match e with
  | some e => e.applySides p.1 p.2
  | none => p

/-- A compaction brings no deleted entries. -/
lemma NoHoleBelow.sameLive {es fs : List MapEntry} {c : ℕ} (h : NoHoleBelow es c)
    (hsame : SameLive es fs) : NoHoleBelow fs c := by
  rcases hsame with rfl | rfl
  · exact h
  · exact fun e he => (List.mem_filter.mp (List.mem_of_mem_take he)).2

/-- `set` puts the key, leaving the entries on the sides of the cursor where they are. -/
lemma mapSet_sides {m m' : Map} (h : m.Wf) {k v : AnyPair} {c : ℕ} (hc : c ≤ m.nUsed)
    (hadm : admitsValue m v = true) (hsafe : SetSafe m k) (hkeep : SetKeepsSides m c k)
    (hrun : mapSet m k v = some m') :
    c ≤ m'.nUsed ∧ sides m'.entries c =
      (Edit.put (jsValue k) (boxFromPair v)).applySides (sides m.entries c).1
        (sides m.entries c).2 := by
  obtain ⟨hsize, hkey, hplace⟩ := hsafe
  have hk := isValue_normalizeKey hkey
  obtain ⟨m₁, hm₁, hwf₁, hsame₁, hroom₁, -⟩ := growSlots_spec h hsize
  have hstay : slotLoadExceeded m.nEntries m.nTombstones m.slotsCount = false → m₁ = m := by
    intro hex
    simpa [growSlots, hex, eq_comm] using hm₁
  have hhole₁ : m₁.entries ≠ m.entries → NoHoleBelow m.entries c := by
    intro hne
    refine hkeep.1 ?_
    by_contra hex
    exact hne (by rw [hstay (Bool.eq_false_iff.mpr hex)])
  obtain ⟨hc₁, hsides₁⟩ := sides_sameLive hsame₁ hc hhole₁
  obtain ⟨lr, hlr, hspec⟩ := mapLookupSlot_spec hwf₁ (normalizeKey k)
  have hiff := lookup_found_iff hwf₁ hlr
  rw [jsValue_normalizeKey, ← sides_append _ c, hsides₁] at hiff
  simp only [mapSet, hadm, if_true, hm₁, Option.bind_eq_bind, Option.bind_some, hlr] at hrun
  cases hf : lr.found with
  | true =>
    rw [hf, if_pos rfl, Option.some_inj] at hrun
    obtain ⟨e, he, helive, hek, -⟩ := lookup_entry hwf₁ hlr hf
    have hsides := sides_modify hwf₁.distinct he helive (boxFromPair v) c
    rw [hsides₁, hek, jsValue_normalizeKey] at hsides
    subst hrun
    refine ⟨?_, ?_⟩
    · simpa [Map.nUsed, overwriteEntry] using hc₁
    · simp only [Edit.applySides, if_pos (hiff.mp hf)]
      exact hsides
  | false =>
    rw [hf, if_neg (by simp), hspec.1] at hrun
    obtain ⟨m₂, hm₂, hwf₂, hsame₂, hroom₂, hcap₂, -⟩ :=
      growEntries_spec hwf₁ hroom₁ (normalizeKey k)
    have hsafe₂ := hplace m₁ hm₁ lr hlr hf
    rw [hspec.1] at hsafe₂
    have hhole₂ : m₂.entries ≠ m₁.entries → NoHoleBelow m₁.entries c := by
      intro hne
      cases hex : slotLoadExceeded m.nEntries m.nTombstones m.slotsCount with
      | true => exact (hkeep.1 hex).sameLive hsame₁
      | false =>
        have hm := hstay hex
        subst hm
        refine hkeep.2 lr hlr hf ?_
        by_contra hfull
        simp only [growEntries, if_neg hfull, Option.some.injEq, Prod.mk.injEq] at hm₂
        exact hne (by rw [hm₂.1])
    obtain ⟨hc₂, hsides₂⟩ := sides_sameLive hsame₂ hc₁ hhole₂
    have hnot : jsValue k ∉ (liveDict m₂.entries).map Prod.fst := by
      rw [← sides_append _ c, hsides₂, hsides₁, ← hiff, hf]
      simp
    obtain ⟨m₃, hm₃, -, hes₃, -⟩ := appendEntry_spec hwf₂ hroom₂ hcap₂ hk
      (by rwa [jsValue_normalizeKey]) v (hsafe₂ _ hm₂)
    simp only [hm₂, Option.bind_some, hm₃, Option.some_inj] at hrun
    subst hrun
    have hlive : (MapEntry.mk (mapHashKey (normalizeKey k)) (boxFromPair (normalizeKey k))
        (boxFromPair v)).isLive = true := by
      simpa [MapEntry.isLive] using mapHashKey_ne_zero (normalizeKey k)
    rw [← sides_append _ c, hsides₂, hsides₁] at hnot
    refine ⟨?_, ?_⟩
    · rw [Map.nUsed, hes₃, List.length_append]
      exact Nat.le_add_right_of_le hc₂
    · rw [hes₃, sides_concat hc₂ hlive, hsides₂, hsides₁]
      simp only [Edit.applySides, if_neg hnot, MapEntry.pair, MapEntry.keyValue,
        hk.jsValue_stored, jsValue_normalizeKey]

/-- `delete` erases the key, leaving the entries on the sides of the cursor where they are. -/
lemma mapDelete_sides {m m' : Map} (h : m.Wf) {k : AnyPair} {c : ℕ} (hc : c ≤ m.nUsed)
    (hkeep : KeepsSides m c (.delete k)) {b : Bool} (hrun : mapDelete m k = some (m', b)) :
    c ≤ m'.nUsed ∧ sides m'.entries c =
      (Edit.erase (jsValue k)).applySides (sides m.entries c).1 (sides m.entries c).2 := by
  obtain ⟨lr, hlr, -⟩ := mapLookupSlot_spec h k
  have hiff := lookup_found_iff h hlr
  simp only [mapDelete, hlr, Option.bind_eq_bind, Option.bind_some] at hrun
  cases hf : lr.found with
  | false =>
    rw [hf, if_neg (by simp)] at hrun
    simp only [Option.some.injEq, Prod.mk.injEq] at hrun
    obtain ⟨rfl, -⟩ := hrun
    have hnot : jsValue k ∉ (liveDict m.entries).map Prod.fst := by
      rw [← hiff, hf]
      simp
    rw [← sides_append _ c, List.map_append, List.mem_append, not_or] at hnot
    refine ⟨hc, ?_⟩
    simp only [Edit.applySides, erase_of_notMem hnot.1, erase_of_notMem hnot.2]
  | true =>
    rw [hf, if_pos rfl] at hrun
    obtain ⟨e, he, helive, hek, hes⟩ := lookup_entry h hlr hf
    obtain ⟨hwf, -⟩ := removeEntry_spec h he helive hes
    have hsides := sides_deleted h.distinct he helive c
    rw [hek] at hsides
    have hc' : c ≤ (removeEntry m lr.slotIdx lr.entryIdx).entries.length := by
      simpa [removeEntry, Map.nUsed] using hc
    split_ifs at hrun with hmany
    · obtain ⟨m₁, hm₁, -, hes₁, -⟩ := mapRehash_same hwf
      simp only [hm₁, Option.bind_some, Option.some.injEq, Prod.mk.injEq] at hrun
      obtain ⟨rfl, -⟩ := hrun
      obtain ⟨hlen, hsame⟩ := sides_filter hc' (hkeep lr hlr hf hmany)
      rw [Map.nUsed, hes₁]
      exact ⟨hlen, hsame.trans hsides⟩
    · simp only [Option.some.injEq, Prod.mk.injEq] at hrun
      obtain ⟨rfl, -⟩ := hrun
      exact ⟨hc', hsides⟩

/-- An operation edits the dictionary on both sides of the cursor. -/
theorem step_sides {m m' : Map} (h : m.Wf) {op : MapOp} (hsafe : StepSafe m op) {c : ℕ}
    (hc : c ≤ m.nUsed) (hkeep : KeepsSides m c op) (hrun : op.run m = some m') :
    c ≤ m'.nUsed ∧
      sides m'.entries c = editSides (op.edit m.valuesNumber) (sides m.entries c) := by
  cases op with
  | set key v =>
    cases hadm : admitsValue m v with
    | false =>
      have hkind : admitsKind m.valuesNumber v = false := hadm
      simp only [MapOp.run, mapSet, hadm, Bool.false_eq_true, if_false, Option.some_inj] at hrun
      subst hrun
      exact ⟨hc, by simp [MapOp.edit, hkind, editSides]⟩
    | true =>
      have hkind : admitsKind m.valuesNumber v = true := hadm
      simp only [MapOp.edit, hkind, if_true, editSides]
      exact mapSet_sides h hc hadm (hsafe hadm) (hkeep hadm) hrun
  | delete key =>
    simp only [MapOp.run, Option.map_eq_some_iff] at hrun
    obtain ⟨⟨m₁, b⟩, hdel, rfl⟩ := hrun
    exact mapDelete_sides h hc hkeep hdel
  | clear =>
    simp only [MapOp.run, Option.some_inj] at hrun
    subst hrun
    obtain rfl : c = 0 := hkeep
    exact ⟨Nat.zero_le _, rfl⟩
  | getOrInsert key default =>
    obtain ⟨lr, hlr, -⟩ := mapLookupSlot_spec h (normalizeKey key)
    have hiff := lookup_found_iff h hlr
    rw [jsValue_normalizeKey, ← sides_append _ c] at hiff
    simp only [MapOp.run, mapGetOrInsert, hlr, Option.bind_eq_bind, Option.bind_some] at hrun
    cases hf : lr.found with
    | true =>
      obtain ⟨e, he, -, -, -⟩ := lookup_entry h hlr hf
      simp only [hf, if_true, he, Option.map_some, Option.some_inj] at hrun
      subst hrun
      refine ⟨hc, ?_⟩
      simp only [MapOp.edit]
      split_ifs
      · simp only [editSides, Edit.applySides, if_pos (hiff.mp hf)]
      · rfl
    | false =>
      have hnot : jsValue key ∉ ((sides m.entries c).1 ++ (sides m.entries c).2).map Prod.fst := by
        rw [← hiff, hf]
        simp
      cases hadm : admitsValue m default with
      | false =>
        have hkind : admitsKind m.valuesNumber default = false := hadm
        simp only [hf, Bool.false_eq_true, if_false, hadm, Option.map_some,
          Option.some_inj] at hrun
        subst hrun
        exact ⟨hc, by simp [MapOp.edit, hkind, editSides]⟩
      | true =>
        have hkind : admitsKind m.valuesNumber default = true := hadm
        simp only [hf, Bool.false_eq_true, if_false, hadm, if_true] at hrun
        obtain ⟨m₁, hset, -⟩ :=
          mapSet_spec h (k := normalizeKey key) (v := default) (hsafe lr hlr hf)
        simp only [hset, Option.bind_some, Option.map_some, Option.some_inj] at hrun
        subst hrun
        obtain ⟨hc', hsides⟩ := mapSet_sides h hc hadm (hsafe lr hlr hf hadm)
          (hkeep lr hlr hf hadm) hset
        refine ⟨hc', ?_⟩
        rw [hsides, jsValue_normalizeKey]
        simp only [MapOp.edit, hkind, if_true, editSides, Edit.applySides, if_neg hnot]

/-! ### Runs -/

/-- What an event does to the walk of the dictionary's history. -/
def IterEvent.walk (valuesNumber : Bool) : IterEvent → Option (WalkEvent JsValue AnyValue)
  | .mutate op => (op.edit valuesNumber).map .edit
  | .next => some .next

/-- An iterator follows the cursor of a history: the same entries are before it and from it
on. -/
structure Follows (m : Map) (it : LiveIter) (h : History JsValue AnyValue) : Prop where
  valid : it.Valid
  le : it.cursor ≤ m.nUsed
  sides : sides m.entries it.cursor = (h.passed.reduceOption, h.ahead.reduceOption)

/-- An operation that meets the conditions keeps the iterator with the history. -/
lemma Follows.mutate {m m' : Map} {it : LiveIter} {h : History JsValue AnyValue}
    (hf : Follows m it h) (hwf : m.Wf) {op : MapOp} (hsafe : StepSafe m op)
    (hkeep : KeepsSides m it.cursor op) (hrun : op.run m = some m') :
    Follows m' it (match op.edit m.valuesNumber with
      | some e => h.edit e
      | none => h) := by
  obtain ⟨hle, hsides⟩ := step_sides hwf hsafe hf.le hkeep hrun
  refine ⟨hf.valid, hle, ?_⟩
  rw [hsides, hf.sides]
  cases op.edit m.valuesNumber with
  | none => rfl
  | some e => exact (h.edit_sides e).symm

/-- Placing an iterator. -/
lemma LiveIter.cursor_moveTo (it : LiveIter) (i : ℕ) : (it.moveTo i).cursor = i := by
  cases it <;> simp [moveTo, cursor]

/-- An iterator that is placed stands at an index. -/
lemma LiveIter.valid_moveTo (it : LiveIter) (i : ℕ) : (it.moveTo i).Valid := by
  cases it with
  | iter it => trivial
  | forEach c =>
    simp only [moveTo, Valid]
    omega

/-- Placing an iterator does not change what it yields. -/
lemma LiveIter.kind_moveTo (it : LiveIter) (i : ℕ) : (it.moveTo i).kind = it.kind := by
  cases it <;> rfl

/-- A payload is made up alike from a key and from its value. -/
lemma IterKind.map_yield {K L : Type} (f : K → L) (kind : IterKind) (k : K) (v : AnyPair) :
    (kind.yield k v).map f = kind.yield (f k) v := by
  cases kind <;> rfl

/-- A step of an iterator that follows a history does what a step of its cursor does. -/
theorem Follows.step {m : Map} {it : LiveIter} {h : History JsValue AnyValue}
    (hf : Follows m it h) (hwf : m.Wf) :
    match h.advance with
    | none => (it.step m).2 = none
    | some (_, e, h') => ∃ it' y, it.step m = (it', some y) ∧ it'.kind = it.kind ∧
        y.map jsValue = it.kind.yield e.1 (storedPair e.2) ∧ Follows m it' h' := by
  have hlt : it.cursor < 2 ^ 32 := by
    have h1 := hwf.nUsed_lt
    have h2 := hf.le
    unfold slotTombstone at h1
    omega
  have hleft : it.cursor + (m.nUsed - it.cursor) = m.nUsed := by
    have := hf.le
    omega
  have hstep := LiveIter.step_eq hf.valid hlt (m := m)
  have hloop := iterLoop_spec m _ _ hleft
  obtain ⟨hbelow, habove⟩ := Prod.ext_iff.mp hf.sides
  simp only [Torajs.Collections.sides] at hbelow habove
  cases hr : iterLoop m (m.nUsed - it.cursor) it.cursor with
  | none =>
    rw [hr] at hloop hstep
    simp only at hloop
    have hadv : h.advance = none := by
      refine History.advanceFrom_eq_none.mpr ?_
      rw [← habove, hloop]
    rw [hadv, hstep]
  | some r =>
    obtain ⟨e, i⟩ := r
    rw [hr] at hloop hstep
    obtain ⟨hile, htake, hdrop⟩ := hloop
    cases hadv : h.advance with
    | none =>
      have hnil := History.advanceFrom_eq_none.mp hadv
      rw [← habove, hdrop] at hnil
      exact absurd hnil (List.cons_ne_nil _ _)
    | some s =>
      obtain ⟨p, kv, h'⟩ := s
      obtain ⟨-, -, -, hpassed, hahead⟩ := History.advance_eq_some hadv
      rw [← habove, hdrop] at hahead
      obtain ⟨hkv, hrest⟩ := List.cons_eq_cons.mp hahead
      refine ⟨_, _, hstep, it.kind_moveTo i, ?_, it.valid_moveTo i, ?_, ?_⟩
      · rw [IterKind.map_yield, ← hkv]
        rfl
      · rw [LiveIter.cursor_moveTo]
        exact hile
      · rw [LiveIter.cursor_moveTo, Torajs.Collections.sides, htake, hbelow, hkv, hrest, hpassed]

/-- An iterator that follows a history yields what the cursor visits, along every
interleaving that meets the conditions. -/
theorem iterRun_follows {m : Map} {it : LiveIter} {h : History JsValue AnyValue}
    (hwf : m.Wf) (hf : Follows m it h) {events : List IterEvent}
    (hsafe : IterSafe m it events) :
    ∃ r, iterRun m it events = some r ∧
      r.yields.map (Yield.map jsValue) =
        (h.visits (events.filterMap (IterEvent.walk m.valuesNumber))).visited.map
          (fun x => it.kind.yield x.2.1 (storedPair x.2.2)) ∧
      r.exhausted =
        (h.visits (events.filterMap (IterEvent.walk m.valuesNumber))).exhausted := by
  induction events generalizing m it h with
  | nil => exact ⟨_, rfl, rfl, rfl⟩
  | cons event events ih =>
    cases event with
    | mutate op =>
      obtain ⟨hstep, hkeep, hrest⟩ := hsafe
      obtain ⟨m', hrun, hwf', -, hv⟩ := step_refines hwf hstep
      obtain ⟨r, hr, hyields, hex⟩ :=
        ih hwf' (hf.mutate hwf hstep hkeep hrun) (hrest m' hrun)
      rw [hv] at hyields hex
      refine ⟨r, by simp [iterRun, hrun, hr], ?_⟩
      cases he : op.edit m.valuesNumber with
      | none =>
        rw [he] at hyields hex
        simpa [IterEvent.walk, he] using ⟨hyields, hex⟩
      | some e =>
        rw [he] at hyields hex
        simpa [IterEvent.walk, he, History.visits] using ⟨hyields, hex⟩
    | next =>
      have hstep := hf.step hwf
      cases hadv : h.advance with
      | none =>
        rw [hadv] at hstep
        have hit : it.step m = ((it.step m).1, none) := Prod.ext rfl hstep
        refine ⟨⟨[], true⟩, ?_, by simp [IterEvent.walk, History.visits, hadv]⟩
        rw [iterRun, hit]
      | some s =>
        obtain ⟨p, kv, h'⟩ := s
        rw [hadv] at hstep
        obtain ⟨it', y, hit, hkind, hy, hf'⟩ := hstep
        have hsafe' : IterSafe m it' events := by
          have := hsafe (by rw [hit]; rfl)
          rwa [hit] at this
        obtain ⟨r, hr, hyields, hex⟩ := ih hwf hf' hsafe'
        refine ⟨_, by simp [iterRun, hit, hr]; rfl, ?_, ?_⟩
        · have hwalk : IterEvent.walk m.valuesNumber .next = some .next := rfl
          rw [List.filterMap_cons_some hwalk, List.map_cons, hy, hyields, hkind]
          simp only [History.visits, hadv, List.map_cons]
        · simpa [IterEvent.walk, History.visits, hadv] using hex

/-- A new iterator follows the history that starts with the dictionary it was made on. -/
lemma follows_create {m : Map} {d : Dict} (hd : liveDict m.entries = d)
    (kind : Option IterKind) : Follows m (LiveIter.create kind) (History.start d) := by
  have hzero : (LiveIter.create kind).cursor = 0 := by cases kind <;> rfl
  refine ⟨?_, by rw [hzero]; exact Nat.zero_le _, ?_⟩
  · cases kind with
    | none => exact le_rfl
    | some kind => trivial
  · have hsome : ∀ l : Dict, (l.map some).reduceOption = l := by
      intro l
      induction l with
      | nil => rfl
      | cons e l ih => rw [List.map_cons, List.reduceOption_cons_of_some, ih]
    rw [hzero, sides, List.take_zero, List.drop_zero, hd, History.start, hsome]
    rfl

/-- An iterator on a Map or Set that was filled safely yields, along every interleaving
whose operations meet the conditions, what the cursor of the dictionary's history visits:
entries in increasing positions, and none that is there at the end is left out. -/
theorem iterator_is_stable {valuesNumber : Bool} {ops : List MapOp}
    (hops : RunSafe (mapCreate valuesNumber) ops) {m : Map}
    (hm : runOps (mapCreate valuesNumber) ops = some m) (kind : Option IterKind)
    {events : List IterEvent} (hsafe : IterSafe m (LiveIter.create kind) events) :
    let walk := (History.start (applyOps valuesNumber ops)).visits
      (events.filterMap (IterEvent.walk valuesNumber))
    ∃ r, iterRun m (LiveIter.create kind) events = some r ∧
      r.yields.map (Yield.map jsValue) =
        walk.visited.map
          (fun x => (LiveIter.create kind).kind.yield x.2.1 (storedPair x.2.2)) ∧
      r.exhausted = walk.exhausted ∧
      (walk.visited.map Prod.fst).Pairwise (· < ·) ∧
      (walk.exhausted = true → ∀ (p : ℕ) (e : JsValue × AnyValue),
        walk.last.data[p]? = some (some e) → p ∈ walk.visited.map Prod.fst) := by
  obtain ⟨hwf₀, hempty⟩ := mapCreate_spec valuesNumber
  obtain ⟨m', hrun, hwf, hdict, hv⟩ := run_refines hwf₀ hops
  rw [hm] at hrun
  obtain rfl := Option.some_inj.mp hrun
  rw [hempty] at hdict
  obtain ⟨r, hr, hyields, hex⟩ :=
    iterRun_follows hwf (follows_create hdict kind) hsafe
  rw [hv] at hyields hex
  refine ⟨r, hr, hyields, hex, (History.visits_increasing _ _).1, ?_⟩
  intro hend p e hp
  rcases History.visits_complete hend hp with ⟨f, hf⟩ | hvisited
  · simp [History.start] at hf
  · exact hvisited

/-- Set-adds of the integer keys from `1` to `n`. -/
def addUpTo (n : ℕ) : List MapOp :=
  (List.range n).map (fun i => .set (intKey (i + 1)) .undef)

/-- Deleting an entry that was visited and one that was not, and adding one. -/
theorem iterator_is_stable_edits :
    let walk := (History.start (applyOps false (addUpTo 3))).visits
      ([.next, .mutate (.delete (intKey 1)), .mutate (.delete (intKey 2)),
        .mutate (.set (intKey 4) .undef), .next, .next, .next].filterMap (IterEvent.walk false))
    ∃ m, runOps (mapCreate false) (addUpTo 3) = some m ∧
    ∃ r, iterRun m (LiveIter.create (some .keys))
        [.next, .mutate (.delete (intKey 1)), .mutate (.delete (intKey 2)),
          .mutate (.set (intKey 4) .undef), .next, .next, .next] = some r ∧
      r.yields.map (Yield.map jsValue) =
        walk.visited.map (fun x => IterKind.keys.yield x.2.1 (storedPair x.2.2)) ∧
      r.exhausted = walk.exhausted ∧
      (walk.visited.map Prod.fst).Pairwise (· < ·) ∧
      (walk.exhausted = true → ∀ (p : ℕ) (e : JsValue × AnyValue),
        walk.last.data[p]? = some (some e) → p ∈ walk.visited.map Prod.fst) := by
  have hops : RunSafe (mapCreate false) (addUpTo 3) := by decide +kernel
  obtain ⟨m, hm, -⟩ := run_refines (mapCreate_spec false).1 hops
  have hsafe : ∀ m' ∈ runOps (mapCreate false) (addUpTo 3),
      IterSafe m' (LiveIter.create (some .keys))
        [.next, .mutate (.delete (intKey 1)), .mutate (.delete (intKey 2)),
          .mutate (.set (intKey 4) .undef), .next, .next, .next] := by decide +kernel
  exact ⟨m, hm, iterator_is_stable hops hm (some .keys) (hsafe m hm)⟩

/-- A key is skipped: the iterator comes to its end without yielding it although the
collection has it. -/
def skips (ops : List MapOp) (events : List IterEvent) (k : AnyPair) : Option Bool := do
  let m ← runOps (mapCreate false) ops
  let r ← iterRun m (LiveIter.create (some .keys)) events
  let m' ← runOps m (events.filterMap fun event => match event with
    | .mutate op => some op
    | .next => none)
  let has ← mapHas m' k
  some (r.exhausted && !r.yields.contains (.key k) && has)

/-- The fifth `delete` of entries that were visited compacts the array below the cursor, and
a `clear` leaves the cursor behind the entries that are added after it. -/
theorem iterator_skips :
    skips (addUpTo 7)
        ([.next, .next, .next, .next, .next] ++
          [1, 2, 3, 4, 5].map (fun n => .mutate (.delete (intKey n))) ++ [.next])
        (intKey 6) = some true ∧
      skips (addUpTo 1) [.next, .mutate .clear, .mutate (.set (intKey 2) .undef), .next]
        (intKey 2) = some true := by
  decide +kernel

end Torajs.Collections
