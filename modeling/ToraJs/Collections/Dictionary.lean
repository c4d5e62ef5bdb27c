import ToraJs.Collections.Operations

/-!
# A Map is a dictionary

The purpose of a Map is a finite map over keys compared by SameValueZero, kept in insertion
order.  `MapOp.apply` says what each operation does to it; this file shows that the table
does the same along every run whose fresh entries are placed safely, and that one whose are
not can lose a live key.
-/

namespace Torajs.Collections

open OrderedDict

/-- The mutating operations of a Map; a Set adds with an undefined value. -/
inductive MapOp
  | set (key v : AnyPair)
  | getOrInsert (key default : AnyPair)
  | delete (key : AnyPair)
  | clear
deriving DecidableEq

/-- An operation on the table. -/
def MapOp.run (m : Map) : MapOp → Option Map
  | .set key v => mapSet m key v
  | .getOrInsert key default => (mapGetOrInsert m key default).map Prod.fst
  | .delete key => (mapDelete m key).map Prod.fst
  | .clear => some (mapClear m)

/-- A sequence of operations on the table. -/
def runOps (m : Map) : List MapOp → Option Map
  | [] => some m
  | op :: ops => (op.run m).bind fun m' => runOps m' ops

/-- The dictionary of a Map: its entries in insertion order. -/
abbrev Dict := List (JsValue × AnyValue)

/-- An operation on the dictionary.  A map that is marked refuses other values than numbers. -/
def MapOp.apply (valuesNumber : Bool) (d : Dict) : MapOp → Dict
  | .set key v =>
    if admitsKind valuesNumber v then put d (jsValue key) (boxFromPair v) else d
  | .getOrInsert key default =>
    if jsValue key ∈ d.map Prod.fst then d
    else if admitsKind valuesNumber default then put d (jsValue key) (boxFromPair default)
    else d
  | .delete key => erase d (jsValue key)
  | .clear => []

/-- A sequence of operations on the dictionary. -/
def applyOps (valuesNumber : Bool) (ops : List MapOp) : Dict :=
  ops.foldl (MapOp.apply valuesNumber) []

/-! ### Agreement -/

/-- A table agrees with a dictionary: its queries answer as the dictionary does, a lookup
finds every live key, no key has two live slots, and the size counts the live entries. -/
structure Agrees (m : Map) (d : Dict) : Prop where
  has : ∀ k, mapHas m k = some (decide (jsValue k ∈ d.map Prod.fst))
  get : ∀ k, mapGet m k = some (match find d (jsValue k) with
    | some v => storedPair v
    | none => .undef)
  size : mapSize m = d.length
  found : ∀ (i : ℕ) (e : MapEntry), m.entries[i]? = some e → e.isLive = true →
    ∃ lr, mapLookupSlot m (storedPair e.keyAnyv) = some lr ∧ lr.found = true ∧ lr.entryIdx = i
  unique : ∀ (i j : ℕ) (s t : MapSlot) (e f : MapEntry), m.slots[i]? = some s →
    m.slots[j]? = some t → s.isLive = true → t.isLive = true →
    m.entries[s.index]? = some e → m.entries[t.index]? = some f → e.keyValue = f.keyValue →
    i = j
  live : mapSize m = (m.entries.filter MapEntry.isLive).length

/-- The references to live entries are distinct. -/
lemma nodup_liveRefs (es : List MapEntry) : (liveRefs es).Nodup := by
  have hsnd : (liveRefs es).map MapSlot.index =
      (es.zipIdx.filter fun p => p.1.isLive).map Prod.snd := by
    simp only [liveRefs, List.map_map]
    rfl
  refine List.Nodup.of_map MapSlot.index ?_
  rw [hsnd]
  refine List.Nodup.sublist ((List.filter_sublist).map Prod.snd) ?_
  rw [List.zipIdx_map_snd]
  exact List.nodup_range'

/-- Two slots with one live content are one slot. -/
lemma Map.Wf.slot_unique {m : Map} (h : m.Wf) {i j : ℕ} {s : MapSlot} (hi : m.slots[i]? = some s)
    (hj : m.slots[j]? = some s) (hs : s.isLive = true) : i = j := by
  have hnodup : (m.slots.filter MapSlot.isLive).Nodup :=
    h.refs.nodup_iff.mpr (nodup_liveRefs m.entries)
  have hpair := List.pairwise_filter.mp hnodup
  obtain ⟨hilt, higet⟩ := List.getElem?_eq_some_iff.mp hi
  obtain ⟨hjlt, hjget⟩ := List.getElem?_eq_some_iff.mp hj
  rw [List.pairwise_iff_getElem] at hpair
  rcases Nat.lt_trichotomy i j with hlt | heq | hgt
  · have := hpair i j hilt hjlt hlt
    rw [higet, hjget] at this
    exact absurd rfl (this hs hs)
  · exact heq
  · have := hpair j i hjlt hilt hgt
    rw [higet, hjget] at this
    exact absurd rfl (this hs hs)

/-- A table under the invariant agrees with the dictionary it stands for. -/
theorem Map.Wf.agrees {m : Map} (h : m.Wf) : Agrees m (liveDict m.entries) where
  has := by
    intro k
    obtain ⟨lr, hlr, -⟩ := mapLookupSlot_spec h k
    have hiff := lookup_found_iff h hlr
    simp only [mapHas, hlr, Option.bind_eq_bind, Option.bind_some, Option.some.injEq]
    rw [Bool.eq_iff_iff, hiff, decide_eq_true_iff]
  get := by
    intro k
    obtain ⟨lr, hlr, -⟩ := mapLookupSlot_spec h k
    have hiff := lookup_found_iff h hlr
    simp only [mapGet, hlr, Option.bind_eq_bind, Option.bind_some]
    cases hf : lr.found with
    | true =>
      obtain ⟨e, he, helive, hek, -⟩ := lookup_entry h hlr hf
      have hmem : (jsValue k, e.valueAnyv) ∈ liveDict m.entries := by
        rw [← hek]
        exact List.mem_map.mpr ⟨e, List.mem_filter.mpr ⟨List.mem_of_getElem? he, helive⟩, rfl⟩
      rw [(find_eq_some_iff h.distinct).mpr hmem]
      simp [he]
    | false =>
      have hnone : find (liveDict m.entries) (jsValue k) = none := by
        rw [← Option.not_isSome_iff_eq_none, find_isSome_iff, ← hiff, hf]
        simp
      rw [hnone]
      simp
  size := by rw [mapSize, h.live, length_liveDict]
  found := by
    intro i e hi he
    obtain ⟨lr, hlr, -⟩ := mapLookupSlot_spec h (storedPair e.keyAnyv)
    have hmem : jsValue (storedPair e.keyAnyv) ∈ (liveDict m.entries).map Prod.fst :=
      List.mem_map.mpr ⟨e.pair, List.mem_map.mpr
        ⟨e, List.mem_filter.mpr ⟨List.mem_of_getElem? hi, he⟩, rfl⟩, rfl⟩
    have hf := (lookup_found_iff h hlr).mpr hmem
    obtain ⟨f, hfe, hflive, hfk, -⟩ := lookup_entry h hlr hf
    exact ⟨lr, hlr, hf, entry_unique h.distinct hfe hi hflive he hfk⟩
  unique := by
    intro i j s t e f hs ht hslive htlive he hf hk
    obtain ⟨e', he', helive, hse⟩ := h.entry_of_slot hs hslive
    obtain ⟨f', hf', hflive, htf⟩ := h.entry_of_slot ht htlive
    rw [he] at he'
    rw [hf] at hf'
    obtain rfl := Option.some_inj.mp he'
    obtain rfl := Option.some_inj.mp hf'
    have hidx := entry_unique h.distinct he hf helive hflive hk
    rw [hidx, hf] at he
    obtain rfl := Option.some_inj.mp he
    have hst : s = t := by
      cases s
      cases t
      simp_all
    subst hst
    exact h.slot_unique hs ht hslive
  live := by rw [mapSize, h.live]

/-! ### Steps and runs -/

/-- The condition on a step: where it inserts a fresh key, `SetSafe`. -/
def StepSafe (m : Map) : MapOp → Prop
  | .set key v => admitsValue m v = true → SetSafe m key
  | .getOrInsert key default =>
    ∀ lr ∈ mapLookupSlot m (normalizeKey key), lr.found = false →
      admitsValue m default = true → SetSafe m (normalizeKey key)
  | .delete _ => True
  | .clear => True

instance (m : Map) (op : MapOp) : Decidable (StepSafe m op) := by
  cases op <;> unfold StepSafe <;> infer_instance

/-- Every step of the run meets the condition in the state before it. -/
def RunSafe (m : Map) : List MapOp → Prop
  | [] => True
  | op :: ops => StepSafe m op ∧ ∀ m' ∈ op.run m, RunSafe m' ops

instance (m : Map) (ops : List MapOp) : Decidable (RunSafe m ops) := by
  induction ops generalizing m with
  | nil => exact isTrue trivial
  | cons op ops ih =>
    unfold RunSafe
    infer_instance

/-- A step that meets the condition does to the table what it does to the dictionary. -/
theorem step_refines {m : Map} (h : m.Wf) {op : MapOp} (hsafe : StepSafe m op) :
    ∃ m', op.run m = some m' ∧ m'.Wf ∧
      liveDict m'.entries = op.apply m.valuesNumber (liveDict m.entries) ∧
      m'.valuesNumber = m.valuesNumber := by
  cases op with
  | set key v => exact mapSet_spec h hsafe
  | delete key =>
    obtain ⟨m', hrun, hwf, hdict, hv⟩ := mapDelete_spec h key
    exact ⟨m', by simp [MapOp.run, hrun], hwf, hdict, hv⟩
  | clear => exact ⟨_, rfl, mapClear_spec h⟩
  | getOrInsert key default =>
    obtain ⟨lr, hlr, -⟩ := mapLookupSlot_spec h (normalizeKey key)
    have hiff := lookup_found_iff h hlr
    rw [jsValue_normalizeKey] at hiff
    simp only [MapOp.run, MapOp.apply, mapGetOrInsert, hlr, Option.bind_eq_bind, Option.bind_some]
    cases hf : lr.found with
    | true =>
      obtain ⟨e, he, -, -, -⟩ := lookup_entry h hlr hf
      rw [if_pos (hiff.mp hf)]
      exact ⟨m, by simp [he], h, rfl, rfl⟩
    | false =>
      have hnot : jsValue key ∉ (liveDict m.entries).map Prod.fst := by
        rw [← hiff, hf]
        simp
      rw [if_neg hnot]
      cases hadm : admitsValue m default with
      | false =>
        have hkind : admitsKind m.valuesNumber default = false := hadm
        exact ⟨m, by simp, h, by simp [hkind], rfl⟩
      | true =>
        have hkind : admitsKind m.valuesNumber default = true := hadm
        obtain ⟨m', hrun, hwf, hdict, hv⟩ :=
          mapSet_spec h (k := normalizeKey key) (v := default) (hsafe lr hlr hf)
        rw [hadm, if_pos rfl, jsValue_normalizeKey] at hdict
        exact ⟨m', by simp [hrun], hwf, by simp [hkind, hdict], hv⟩

/-- A run whose steps meet the condition does to the table what it does to the dictionary. -/
theorem run_refines {m : Map} (h : m.Wf) {ops : List MapOp} (hsafe : RunSafe m ops) :
    ∃ m', runOps m ops = some m' ∧ m'.Wf ∧
      liveDict m'.entries = ops.foldl (MapOp.apply m.valuesNumber) (liveDict m.entries) ∧
      m'.valuesNumber = m.valuesNumber := by
  induction ops generalizing m with
  | nil => exact ⟨m, rfl, h, rfl, rfl⟩
  | cons op ops ih =>
    obtain ⟨m₁, hrun, hwf, hdict, hv⟩ := step_refines h hsafe.1
    obtain ⟨m₂, hrun₂, hwf₂, hdict₂, hv₂⟩ := ih hwf (hsafe.2 m₁ hrun)
    refine ⟨m₂, by simp [runOps, hrun, hrun₂], hwf₂, ?_, hv₂.trans hv⟩
    rw [hdict₂, hdict, hv, List.foldl_cons]

/-- The condition on a run is a condition on each of its beginnings. -/
lemma RunSafe.of_prefix {m : Map} {pre ops : List MapOp} (h : RunSafe m ops) (hp : pre <+: ops) :
    RunSafe m pre := by
  obtain ⟨rest, rfl⟩ := hp
  induction pre generalizing m with
  | nil => trivial
  | cons op pre ih => exact ⟨h.1, fun m' hm' => ih (h.2 m' hm')⟩

/-- In every run of a fresh Map or Set whose fresh keys are placed safely, the table agrees
with the dictionary in every state that the run reaches. -/
theorem map_is_dictionary {valuesNumber : Bool} {ops : List MapOp}
    (hsafe : RunSafe (mapCreate valuesNumber) ops) {pre : List MapOp} (hpre : pre <+: ops) :
    ∃ m, runOps (mapCreate valuesNumber) pre = some m ∧
      Agrees m (applyOps valuesNumber pre) := by
  obtain ⟨hwf, hempty⟩ := mapCreate_spec valuesNumber
  obtain ⟨m, hrun, hwf', hdict, -⟩ := run_refines hwf (hsafe.of_prefix hpre)
  refine ⟨m, hrun, ?_⟩
  have hagrees := hwf'.agrees
  rw [hdict, hempty] at hagrees
  exact hagrees

/-- The integer key `n`. -/
def intKey (n : ℕ) : AnyPair := .i64 (BitVec.ofNat 64 n)

/-- Adding and deleting around a full chain agrees with the dictionary as long as no
tombstone is displaced. -/
theorem map_is_dictionary_chain :
    ∃ m, runOps (mapCreate false) [.set (intKey 0) .undef, .set (intKey 25) .undef,
        .delete (intKey 0), .getOrInsert (intKey 26) (intKey 1)] = some m ∧
      Agrees m (applyOps false [.set (intKey 0) .undef, .set (intKey 25) .undef,
        .delete (intKey 0), .getOrInsert (intKey 26) (intKey 1)]) :=
  map_is_dictionary (by decide +kernel) (List.prefix_refl _)

/-- Four keys with ideal slot 14 fill slots 14, 15, 0 and 1; the one in slot 0 is deleted and
a key with ideal slot 15 takes the place of its tombstone, at distance 1. -/
def lostKeyOps : List MapOp :=
  [.set (intKey 0) .undef, .set (intKey 25) .undef, .set (intKey 26) .undef,
    .set (intKey 32) .undef, .delete (intKey 26), .set (intKey 4) .undef]

/-- The table has lost the key in slot 1, whose chain crosses slot 0 at distance 2: `has`
denies a key that was added and never deleted. -/
theorem map_loses_key :
    (∀ k ∈ [0, 25, 26, 32, 4], IsValue (intKey k)) ∧
      ∃ m, runOps (mapCreate false) lostKeyOps = some m ∧ m.slotsCount = 16 ∧
        mapHas m (intKey 32) = some false ∧
        jsValue (intKey 32) ∈ (applyOps false lostKeyOps).map Prod.fst ∧
        ¬ Agrees m (applyOps false lostKeyOps) := by
  have hrun : ((runOps (mapCreate false) lostKeyOps).bind fun m => mapHas m (intKey 32)) =
      some false := by decide +kernel
  have hmem : jsValue (intKey 32) ∈ (applyOps false lostKeyOps).map Prod.fst := by
    decide +kernel
  obtain ⟨m, hm, hhas⟩ := Option.bind_eq_some_iff.mp hrun
  have hsize : (runOps (mapCreate false) lostKeyOps).map Map.slotsCount = some 16 := by
    decide +kernel
  rw [hm] at hsize
  refine ⟨by decide +kernel, m, hm, Option.some_inj.mp hsize, hhas, hmem, ?_⟩
  intro hagrees
  have h := hagrees.has (intKey 32)
  rw [hhas, decide_eq_true hmem] at h
  exact absurd h (by decide)

end Torajs.Collections
