import ToraJs.Collections.Probe
import ToraJs.Lib.OrderedDict

/-!
# The invariant of a table, and what a lookup answers under it

The live slots and the live entries refer to each other one to one, the counters count
them, no key has two live entries, and the chains are open.  Under the invariant a lookup
finds a key exactly when it has a live entry.

The dictionary a table stands for is the list of its live entries in the order of the
array, under the values their keys stand for.
-/

namespace Torajs.Collections

open OpenAddressing

/-! ### What a table stands for -/

/-- The value of the key of an entry. -/
def MapEntry.keyValue (e : MapEntry) : JsValue := jsValue (storedPair e.keyAnyv)

/-- The entry of the dictionary that a live entry stands for. -/
def MapEntry.pair (e : MapEntry) : JsValue × AnyValue := (e.keyValue, e.valueAnyv)

/-- The dictionary an array of entries stands for. -/
def liveDict (es : List MapEntry) : List (JsValue × AnyValue) :=
  (es.filter MapEntry.isLive).map MapEntry.pair

/-- The slots that refer to the live entries. -/
def liveRefs (es : List MapEntry) : List MapSlot :=
  (es.zipIdx.filter fun p => p.1.isLive).map fun p => ⟨p.1.hash, p.2⟩

/-- A slot refers to a live entry by its index and has its hash. -/
lemma mem_liveRefs {es : List MapEntry} {s : MapSlot} :
    s ∈ liveRefs es ↔ ∃ e, es[s.index]? = some e ∧ e.isLive = true ∧ s.hash = e.hash := by
  simp only [liveRefs, List.mem_map, List.mem_filter, Prod.exists, List.mem_zipIdx_iff_getElem?]
  constructor
  · rintro ⟨e, i, ⟨he, hlive⟩, rfl⟩
    exact ⟨e, he, hlive, rfl⟩
  · rintro ⟨e, he, hlive, hh⟩
    exact ⟨e, s.index, ⟨he, hlive⟩, by rw [← hh]⟩

/-! ### The invariant -/

/-- The slots find the live entries of the array, next to `tombs` tombstones. -/
structure SlotsOk (slots : List MapSlot) (es : List MapEntry) (tombs : ℕ) : Prop where
  refs : (slots.filter MapSlot.isLive).Perm (liveRefs es)
  tombs : slots.count MapSlot.tombstone = tombs
  kinds : ∀ s ∈ slots, s.isLive = true ∨ s = MapSlot.tombstone ∨ s = MapSlot.empty
  chains : ChainsOpen slots

/-- The live entries carry the hash of their key, and no key has two. -/
structure EntriesOk (es : List MapEntry) : Prop where
  hashes : ∀ e ∈ es, e.isLive = true → e.hash = mapHashKey (storedPair e.keyAnyv)
  distinct : OrderedDict.NodupKeys (liveDict es)

/-- The invariant of a table. -/
structure Map.Wf (m : Map) : Prop
    extends SlotsOk m.slots m.entries m.nTombstones, EntriesOk m.entries where
  size : ∃ b, 4 ≤ b ∧ b ≤ 31 ∧ m.slotsCount = 2 ^ b
  capPos : 0 < m.entriesCap
  capLe : 2 * m.entriesCap ≤ 3 * m.slotsCount
  used : m.nUsed ≤ m.entriesCap
  counts : m.nUsed = m.nEntries + m.nTombstones
  load : 4 * m.nUsed ≤ 3 * m.slotsCount
  live : m.nEntries = (m.entries.filter MapEntry.isLive).length

/-- Empty slots are all alike. -/
lemma SlotsOk.emptyUniform {slots : List MapSlot} {es : List MapEntry} {t : ℕ}
    (h : SlotsOk slots es t) : EmptyUniform slots := by
  intro s hs hse
  rcases h.kinds s hs with hlive | rfl | rfl
  · exact absurd hse (index_ne_empty_of_isLive hlive)
  · exact absurd hse (by decide)
  · rfl

section Wf
variable {m : Map} (h : m.Wf)
include h

/-- A live slot leads to a live entry with its hash. -/
lemma Map.Wf.entry_of_slot {j : ℕ} {s : MapSlot} (hj : m.slots[j]? = some s)
    (hs : s.isLive = true) :
    ∃ e, m.entries[s.index]? = some e ∧ e.isLive = true ∧ s.hash = e.hash := by
  rw [← mem_liveRefs]
  exact h.refs.mem_iff.mp (List.mem_filter.mpr ⟨List.mem_of_getElem? hj, hs⟩)

/-- A live entry has a live slot with its hash. -/
lemma Map.Wf.slot_of_entry {i : ℕ} {e : MapEntry} (hi : m.entries[i]? = some e)
    (he : e.isLive = true) :
    ∃ j : ℕ, m.slots[j]? = some (MapSlot.mk e.hash i) ∧ (MapSlot.mk e.hash i).isLive = true := by
  have hmem : (⟨e.hash, i⟩ : MapSlot) ∈ liveRefs m.entries := mem_liveRefs.mpr ⟨e, hi, he, rfl⟩
  obtain ⟨hslot, hlive⟩ := List.mem_filter.mp (h.refs.mem_iff.mpr hmem)
  obtain ⟨j, hj⟩ := List.mem_iff_getElem?.mp hslot
  exact ⟨j, hj, hlive⟩

/-- The table has slots. -/
lemma Map.Wf.slots_pos : 0 < m.slots.length := by
  obtain ⟨b, -, -, hb⟩ := h.size
  rw [← Map.slotsCount, hb]
  exact Nat.two_pow_pos b

/-- The entries fit 32-bit indices, below the two marks. -/
lemma Map.Wf.nUsed_lt : m.nUsed < slotTombstone := by
  obtain ⟨b, -, hb31, hb⟩ := h.size
  have hle : (2 : ℕ) ^ b ≤ 2 ^ 31 := Nat.pow_le_pow_right (by norm_num) hb31
  have hload := h.load
  rw [hb] at hload
  unfold slotTombstone
  omega

end Wf

/-- A live key has one entry. -/
lemma entry_unique {es : List MapEntry} (hd : OrderedDict.NodupKeys (liveDict es)) {i j : ℕ}
    {e f : MapEntry} (hi : es[i]? = some e) (hj : es[j]? = some f) (he : e.isLive = true)
    (hf : f.isLive = true) (hk : e.keyValue = f.keyValue) : i = j := by
  induction es generalizing i j with
  | nil => simp at hi
  | cons a es ih =>
    have hmem : ∀ {x : ℕ} {g : MapEntry}, es[x]? = some g → g.isLive = true →
        g.keyValue ∈ (liveDict es).map Prod.fst := by
      intro x g hx hg
      exact List.mem_map.mpr ⟨g.pair, List.mem_map.mpr
        ⟨g, List.mem_filter.mpr ⟨List.mem_of_getElem? hx, hg⟩, rfl⟩, rfl⟩
    by_cases ha : a.isLive = true
    · have hd' : a.keyValue ∉ (liveDict es).map Prod.fst ∧
          OrderedDict.NodupKeys (liveDict es) := by
        simpa [OrderedDict.NodupKeys, liveDict, ha, MapEntry.pair] using hd
      cases i with
      | zero =>
        cases j with
        | zero => rfl
        | succ j =>
          simp only [List.getElem?_cons_zero, Option.some.injEq] at hi
          rw [List.getElem?_cons_succ] at hj
          subst hi
          exact absurd (hk ▸ hmem hj hf) hd'.1
      | succ i =>
        rw [List.getElem?_cons_succ] at hi
        cases j with
        | zero =>
          simp only [List.getElem?_cons_zero, Option.some.injEq] at hj
          subst hj
          exact absurd (hk ▸ hmem hi he) hd'.1
        | succ j =>
          rw [List.getElem?_cons_succ] at hj
          rw [ih hd'.2 hi hj]
    · have hd' : OrderedDict.NodupKeys (liveDict es) := by
        simpa [liveDict, ha] using hd
      cases i with
      | zero =>
        simp only [List.getElem?_cons_zero, Option.some.injEq] at hi
        exact absurd (hi ▸ he) ha
      | succ i =>
        cases j with
        | zero =>
          simp only [List.getElem?_cons_zero, Option.some.injEq] at hj
          exact absurd (hj ▸ hf) ha
        | succ j =>
          rw [List.getElem?_cons_succ] at hi hj
          rw [ih hd' hi hj]

/-! ### Lookup -/

/-- A slot that a lookup for key `k` answers. -/
def Map.Hit (m : Map) (k : AnyPair) (s : MapSlot) : Prop :=
  s.isLive = true ∧ s.hash = mapHashKey k ∧
    ∃ e, m.entries[s.index]? = some e ∧ e.keyValue = jsValue k

/-- Where the walk along a key's probes stops before it meets a hit, there is none. -/
lemma no_hit_of_stopped {m : Map} (hchains : ChainsOpen m.slots) {k : AnyPair} {probe : ℕ}
    (hbefore : ∀ p < probe, ∀ t, m.slots[slotAt m.slots.length (mapHashKey k) p]? = some t →
      ¬ m.Hit k t)
    (hstop : ∀ t, m.slots[slotAt m.slots.length (mapHashKey k) probe]? = some t →
      ¬ m.Hit k t ∧
        ¬ t.Passable m.slots.length (slotAt m.slots.length (mapHashKey k) probe) probe) :
    ∀ s ∈ m.slots, ¬ m.Hit k s := by
  intro s hs hhit
  obtain ⟨j, hj⟩ := List.mem_iff_getElem?.mp hs
  have hlt := lt_length_of_getElem?_eq_some hj
  have hcap : 0 < m.slots.length := Nat.zero_lt_of_lt hlt
  have hat := slotAt_probeDist hcap hlt (mapHashKey k)
  have hopen := hchains j s hj hhit.1
  rw [hhit.2.1] at hopen
  rcases Nat.lt_trichotomy (probeDist m.slots.length (mapHashKey k) j) probe with hd | hd | hd
  · exact hbefore _ hd s (by rw [hat, hj]) hhit
  · exact (hstop s (by rw [← hd, hat, hj])).1 hhit
  · obtain ⟨t, ht, hpass⟩ := hopen probe hd
    exact (hstop t ht).2 hpass

/-- What a lookup answers: a hit, or that there is none. -/
def LookupSpec (m : Map) (k : AnyPair) (lr : LookupResult) : Prop :=
  lr.hash = mapHashKey k ∧
    (lr.found = true → ∃ s, m.slots[lr.slotIdx]? = some s ∧ s.index = lr.entryIdx ∧ m.Hit k s) ∧
    (lr.found = false → ∀ s ∈ m.slots, ¬ m.Hit k s)

/-- A miss is the right answer where there is no hit. -/
lemma lookupSpec_miss {m : Map} {k : AnyPair} (i firstTomb : ℕ)
    (hno : ∀ s ∈ m.slots, ¬ m.Hit k s) :
    LookupSpec m k (lookupMiss m (mapHashKey k) i firstTomb) :=
  ⟨rfl, fun h => absurd h (by simp [lookupMiss]), fun _ => hno⟩

/-- The lookup loop finds the hit of a key, if there is one. -/
lemma lookupLoop_spec {m : Map} (h : m.Wf) (k : AnyPair) (left i probe firstTomb : ℕ)
    (hi : i = slotAt m.slots.length (mapHashKey k) probe)
    (hleft : probe + left = m.slots.length)
    (hbefore : ∀ p < probe, ∀ t, m.slots[slotAt m.slots.length (mapHashKey k) p]? = some t →
      ¬ m.Hit k t) :
    ∃ lr, lookupLoop m k (mapHashKey k) left i probe firstTomb = some lr ∧ LookupSpec m k lr := by
  obtain ⟨b, -, -, hb⟩ := h.size
  have hcap := h.slots_pos
  induction left generalizing i probe firstTomb with
  | zero =>
    refine ⟨_, rfl, lookupSpec_miss i firstTomb ?_⟩
    intro s hs hhit
    obtain ⟨j, hj⟩ := List.mem_iff_getElem?.mp hs
    have hlt := lt_length_of_getElem?_eq_some hj
    refine hbefore (probeDist m.slots.length (mapHashKey k) j) ?_ s ?_ hhit
    · have := probeDist_lt hcap (mapHashKey k) j
      omega
    · rw [slotAt_probeDist hcap hlt, hj]
  | succ left ih =>
    have hilt : i < m.slots.length := by
      rw [hi]
      exact slotAt_lt hcap _ _
    have hget : m.slots[i]? = some m.slots[i] := List.getElem?_eq_getElem hilt
    set s := m.slots[i] with hs
    have hstopped : ¬ m.Hit k s → ¬ s.Passable m.slots.length i probe →
        ∀ t ∈ m.slots, ¬ m.Hit k t := by
      intro hno hpass
      refine no_hit_of_stopped h.chains hbefore ?_
      intro t ht
      rw [← hi, hget] at ht
      rw [← Option.some_inj.mp ht, ← hi]
      exact ⟨hno, hpass⟩
    have hnext : ∀ firstTomb', ¬ m.Hit k s →
        ∃ lr, lookupLoop m k (mapHashKey k) left ((i + 1) % m.slots.length) (probe + 1)
          firstTomb' = some lr ∧ LookupSpec m k lr := by
      intro firstTomb' hno
      refine ih _ _ _ (by rw [slotAt_succ, ← hi]) (by omega) ?_
      intro p hp t ht
      rcases Nat.lt_succ_iff_lt_or_eq.mp hp with hlt | rfl
      · exact hbefore p hlt t ht
      · rw [← hi, hget] at ht
        rwa [← Option.some_inj.mp ht]
    have hmask : ∀ n, n &&& (m.slotsCount - 1) = n % m.slots.length := and_mask hb
    have hdist : (i + m.slotsCount - s.hash % m.slots.length) % m.slots.length =
        probeDist m.slots.length s.hash i := rfl
    simp only [lookupLoop, hget, hmask, hdist]
    by_cases hempty : s.index = slotEmpty
    · rw [if_pos hempty]
      refine ⟨_, rfl, lookupSpec_miss _ _ (hstopped ?_ fun hpass => hpass.1 hempty)⟩
      exact fun hhit => index_ne_empty_of_isLive hhit.1 hempty
    · rw [if_neg hempty]
      by_cases htomb : s.index = slotTombstone
      · rw [if_pos htomb]
        refine hnext _ fun hhit => ?_
        simpa [MapSlot.isLive, htomb] using hhit.1
      · rw [if_neg htomb]
        have hlive : s.isLive = true := by simp [MapSlot.isLive, hempty, htomb]
        by_cases hhash : s.hash = mapHashKey k
        · rw [if_pos hhash]
          obtain ⟨e, he, -, -⟩ := h.entry_of_slot hget hlive
          simp only [he]
          by_cases heq : mapKeysEqual (storedPair e.keyAnyv) k = true
          · rw [if_pos heq]
            have hhit : m.Hit k s := ⟨hlive, hhash, e, he, (mapKeysEqual_iff _ _).mp heq⟩
            exact ⟨_, rfl, rfl, fun _ => ⟨s, hget, rfl, hhit⟩, fun hf => absurd hf (by simp)⟩
          · rw [if_neg heq]
            refine hnext _ fun hhit => heq ?_
            obtain ⟨e', he', hk⟩ := hhit.2.2
            rw [he] at he'
            rw [Option.some_inj.mp he']
            exact (mapKeysEqual_iff _ _).mpr hk
        · rw [if_neg hhash]
          by_cases hfar : probeDist m.slots.length s.hash i < probe
          · rw [if_pos hfar]
            refine ⟨_, rfl, lookupSpec_miss _ _ (hstopped (fun hhit => hhash hhit.2.1) ?_)⟩
            exact fun hpass => absurd (hpass.2 hlive) (not_le.mpr hfar)
          · rw [if_neg hfar]
            exact hnext _ fun hhit => hhash hhit.2.1

/-- A lookup answers. -/
theorem mapLookupSlot_spec {m : Map} (h : m.Wf) (k : AnyPair) :
    ∃ lr, mapLookupSlot m k = some lr ∧ LookupSpec m k lr := by
  obtain ⟨b, -, -, hb⟩ := h.size
  have hmask : mapHashKey k &&& (m.slotsCount - 1) = mapHashKey k % m.slots.length := and_mask hb _
  simp only [mapLookupSlot, hmask]
  refine lookupLoop_spec h k _ _ _ _ (slotAt_zero _ _).symm (Nat.zero_add _) ?_
  exact fun p hp => absurd hp (Nat.not_lt_zero p)

/-- A lookup finds a key exactly when the key has a live entry, and then finds the entry. -/
theorem lookup_found_iff {m : Map} (h : m.Wf) {k : AnyPair} {lr : LookupResult}
    (hlr : mapLookupSlot m k = some lr) :
    lr.found = true ↔ jsValue k ∈ (liveDict m.entries).map Prod.fst := by
  obtain ⟨lr', hlr', hspec⟩ := mapLookupSlot_spec h k
  rw [hlr] at hlr'
  obtain rfl := Option.some_inj.mp hlr'
  constructor
  · intro hf
    obtain ⟨s, hs, -, hlive, -, e, he, hk⟩ := hspec.2.1 hf
    obtain ⟨e', he', helive, -⟩ := h.entry_of_slot hs hlive
    rw [he] at he'
    obtain rfl := Option.some_inj.mp he'
    exact List.mem_map.mpr ⟨e.pair, List.mem_map.mpr
      ⟨e, List.mem_filter.mpr ⟨List.mem_of_getElem? he, helive⟩, rfl⟩, hk⟩
  · intro hmem
    obtain ⟨q, hq, hqk⟩ := List.mem_map.mp hmem
    obtain ⟨e, he, rfl⟩ := List.mem_map.mp hq
    obtain ⟨hemem, helive⟩ := List.mem_filter.mp he
    obtain ⟨i, hi⟩ := List.mem_iff_getElem?.mp hemem
    obtain ⟨j, hj, hjlive⟩ := h.slot_of_entry hi helive
    by_contra hf
    refine hspec.2.2 (Bool.eq_false_iff.mpr hf) _ (List.mem_of_getElem? hj) ⟨hjlive, ?_, e, hi, hqk⟩
    rw [h.hashes e hemem helive]
    exact mapHashKey_congr hqk

/-- The slot and the entry that a successful lookup answers. -/
theorem lookup_entry {m : Map} (h : m.Wf) {k : AnyPair} {lr : LookupResult}
    (hlr : mapLookupSlot m k = some lr) (hf : lr.found = true) :
    ∃ e, m.entries[lr.entryIdx]? = some e ∧ e.isLive = true ∧ e.keyValue = jsValue k ∧
      m.slots[lr.slotIdx]? = some ⟨e.hash, lr.entryIdx⟩ := by
  obtain ⟨lr', hlr', hspec⟩ := mapLookupSlot_spec h k
  rw [hlr] at hlr'
  obtain rfl := Option.some_inj.mp hlr'
  obtain ⟨s, hs, hidx, hlive, -, e, he, hk⟩ := hspec.2.1 hf
  obtain ⟨e', he', helive, hhash⟩ := h.entry_of_slot hs hlive
  rw [he] at he'
  obtain rfl := Option.some_inj.mp he'
  rw [hidx] at he
  refine ⟨e, he, helive, hk, ?_⟩
  rw [hs, ← hhash, ← hidx]

end Torajs.Collections
