import ToraJs.Collections.Invariant

/-!
# The operations keep the invariant

One lemma for each operation of the table: under the invariant it returns, keeps the
invariant, and changes the dictionary the table stands for as it should.  The growth
steps need the slot table to stay within `2 ^ 31` slots, and the placement of a fresh
entry needs its insertion to displace no tombstone harmfully.
-/

namespace Torajs.Collections

open OpenAddressing OrderedDict

/-! ### Arrays of entries -/

/-- An element splits its list. -/
lemma exists_split_at {α : Type*} {l : List α} {i : ℕ} {a : α} (h : l[i]? = some a) :
    ∃ xs ys, l = xs ++ a :: ys ∧ xs.length = i := by
  obtain ⟨hi, ha⟩ := List.getElem?_eq_some_iff.mp h
  refine ⟨l.take i, l.drop (i + 1), ?_, List.length_take_of_le hi.le⟩
  rw [← ha, ← List.drop_eq_getElem_cons hi, List.take_append_drop]

/-- Modifying at the place of a split changes the element there. -/
lemma modify_split {α : Type*} (xs ys : List α) (a : α) (f : α → α) :
    (xs ++ a :: ys).modify xs.length f = xs ++ f a :: ys := by
  induction xs with
  | nil => rfl
  | cons x xs ih => simp [ih]

/-- Setting at the place of a split changes the element there. -/
lemma set_split {α : Type*} (xs ys : List α) (a b : α) :
    (xs ++ a :: ys).set xs.length b = xs ++ b :: ys := by
  rw [List.set_append_right _ _ le_rfl, Nat.sub_self, List.set_cons_zero]

/-- The dictionary of two arrays one after the other. -/
lemma liveDict_append (es fs : List MapEntry) : liveDict (es ++ fs) = liveDict es ++ liveDict fs := by
  simp [liveDict]

/-- A live entry contributes its pair. -/
lemma liveDict_cons_live {e : MapEntry} (he : e.isLive = true) (es : List MapEntry) :
    liveDict (e :: es) = e.pair :: liveDict es := by
  simp [liveDict, he]

/-- A deleted entry contributes nothing. -/
lemma liveDict_cons_dead {e : MapEntry} (he : e.isLive = false) (es : List MapEntry) :
    liveDict (e :: es) = liveDict es := by
  simp [liveDict, he]

/-- Dropping the deleted entries does not change the dictionary. -/
lemma liveDict_filter (es : List MapEntry) : liveDict (es.filter MapEntry.isLive) = liveDict es := by
  simp [liveDict]

/-- The dictionary has one entry for each live entry of the array. -/
lemma length_liveDict (es : List MapEntry) :
    (liveDict es).length = (es.filter MapEntry.isLive).length := by
  simp [liveDict]

/-- The deleted entry is not live. -/
lemma isLive_deleted : MapEntry.deleted.isLive = false := rfl

/-- Deleting an entry erases its key from the dictionary. -/
lemma liveDict_set_deleted {es : List MapEntry} (hd : NodupKeys (liveDict es)) {i : ℕ}
    {e : MapEntry} (hi : es[i]? = some e) (he : e.isLive = true) :
    liveDict (es.set i .deleted) = erase (liveDict es) e.keyValue := by
  obtain ⟨xs, ys, rfl, rfl⟩ := exists_split_at hi
  rw [liveDict_append, liveDict_cons_live he] at hd ⊢
  rw [MapEntry.pair] at hd ⊢
  rw [erase_split hd, set_split, liveDict_append, liveDict_cons_dead isLive_deleted]

/-- Overwriting the value of an entry puts it in the dictionary. -/
lemma liveDict_modify_value {es : List MapEntry} (hd : NodupKeys (liveDict es)) {i : ℕ}
    {e : MapEntry} (hi : es[i]? = some e) (he : e.isLive = true) (v : AnyValue) :
    liveDict (es.modify i fun e => { e with valueAnyv := v }) =
      put (liveDict es) e.keyValue v := by
  obtain ⟨xs, ys, rfl, rfl⟩ := exists_split_at hi
  rw [liveDict_append, liveDict_cons_live he] at hd ⊢
  rw [MapEntry.pair] at hd ⊢
  have hlive : ({ e with valueAnyv := v } : MapEntry).isLive = true := he
  rw [put_split hd, modify_split, liveDict_append, liveDict_cons_live hlive]
  rfl

/-! ### References to the live entries -/

/-- References depend on the hashes of the entries only. -/
lemma liveRefs_congr {es fs : List MapEntry} (h : es.map MapEntry.hash = fs.map MapEntry.hash) :
    liveRefs es = liveRefs fs := by
  have hhash : ∀ l : List MapEntry, liveRefs l =
      (((l.map MapEntry.hash).zipIdx.filter fun p => p.1 != 0).map fun p => ⟨p.1, p.2⟩) := by
    intro l
    simp only [liveRefs, List.zipIdx_map, List.filter_map, List.map_map]
    rfl
  rw [hhash, hhash, h]

/-- An appended live entry adds the reference to it. -/
lemma liveRefs_concat (es : List MapEntry) {e : MapEntry} (he : e.isLive = true) :
    liveRefs (es ++ [e]) = liveRefs es ++ [⟨e.hash, es.length⟩] := by
  simp [liveRefs, List.zipIdx_append, he]

/-- There is one reference for each live entry. -/
lemma length_liveRefs (es : List MapEntry) :
    (liveRefs es).length = (es.filter MapEntry.isLive).length := by
  have h : es.filter MapEntry.isLive = ((es.zipIdx.filter fun p => p.1.isLive).map Prod.fst) := by
    conv_lhs => rw [← List.zipIdx_map_fst 0 es]
    rw [List.filter_map]
    rfl
  rw [h, liveRefs, List.length_map, List.length_map]

/-- Deleting an entry removes the reference to it. -/
lemma liveRefs_set_deleted {es : List MapEntry} {i : ℕ} {e : MapEntry} (hi : es[i]? = some e)
    (he : e.isLive = true) :
    (MapSlot.mk e.hash i :: liveRefs (es.set i .deleted)).Perm (liveRefs es) := by
  obtain ⟨xs, ys, rfl, rfl⟩ := exists_split_at hi
  rw [set_split]
  simp only [liveRefs, List.zipIdx_append, List.zipIdx_cons, List.filter_append, List.map_append,
    Nat.zero_add]
  rw [List.filter_cons_of_neg (by simp [isLive_deleted]), List.filter_cons_of_pos (by exact he)]
  exact List.perm_middle.symm

/-! ### Slots -/

/-- A table that finds fewer entries, tombstones counted, than it has slots has an empty slot. -/
lemma SlotsOk.empty_mem {slots : List MapSlot} {es : List MapEntry} {t : ℕ}
    (h : SlotsOk slots es t) (hroom : (es.filter MapEntry.isLive).length + t < slots.length) :
    MapSlot.empty ∈ slots := by
  have hlive : slots.countP MapSlot.isLive = (es.filter MapEntry.isLive).length := by
    rw [List.countP_eq_length_filter, h.refs.length_eq, length_liveRefs]
  have hcount : slots.countP (fun s => s.isLive || s == MapSlot.tombstone) ≤
      slots.countP MapSlot.isLive + slots.count MapSlot.tombstone := by
    clear h hlive hroom
    induction slots with
    | nil => simp
    | cons s slots ih =>
      simp only [List.countP_cons, List.count_cons]
      cases s.isLive <;> cases (s == MapSlot.tombstone) <;> simp <;> omega
  have hlt : slots.countP (fun s => s.isLive || s == MapSlot.tombstone) < slots.length := by
    rw [hlive, h.tombs] at hcount
    omega
  obtain ⟨i, hi, hfree⟩ := exists_free_of_countP_lt hlt
  simp only [Bool.or_eq_false_iff, beq_eq_false_iff_ne] at hfree
  rcases h.kinds _ (List.getElem_mem hi) with h1 | h1 | h1
  · exact absurd h1 (by simp [hfree.1])
  · exact absurd h1 hfree.2
  · exact h1 ▸ List.getElem_mem hi

/-- A slot index below the marks is live. -/
lemma isLive_of_lt {g n : ℕ} (h : n < slotTombstone) : (MapSlot.mk g n).isLive = true := by
  simp only [MapSlot.isLive, Bool.and_eq_true, bne_iff_ne]
  unfold slotTombstone at h
  exact ⟨by unfold slotEmpty; omega, by unfold slotTombstone; omega⟩

/-- Inserting the reference to an appended entry makes the slots find it too. -/
lemma SlotsOk.inserted {slots slots' : List MapSlot} {es : List MapEntry} {t : ℕ}
    (h : SlotsOk slots es t) {e : MapEntry} (he : e.isLive = true)
    (hidx : es.length < slotTombstone) (hins : Inserted slots ⟨e.hash, es.length⟩ slots') :
    SlotsOk slots' (es ++ [e]) t := by
  have hcur := isLive_of_lt (g := e.hash) hidx
  have hne : (MapSlot.mk e.hash es.length) ≠ MapSlot.tombstone := by
    intro heq
    rw [heq] at hcur
    exact absurd hcur (by decide)
  refine ⟨?_, ?_, ?_, hins.chains⟩
  · have hf := hins.perm.filter MapSlot.isLive
    rw [List.filter_cons_of_pos hcur, List.filter_cons_of_neg (by decide)] at hf
    rw [liveRefs_concat es he]
    exact hf.symm.trans ((h.refs.cons _).trans (List.perm_append_singleton _ _).symm)
  · have hc := hins.perm.count_eq MapSlot.tombstone
    rw [List.count_cons_of_ne hne, List.count_cons_of_ne (by decide)] at hc
    rw [← hc, h.tombs]
  · intro s hs
    have hmem := hins.perm.mem_iff.mpr (List.mem_cons_of_mem MapSlot.empty hs)
    rcases List.mem_cons.mp hmem with rfl | hmem
    · exact Or.inl hcur
    · exact h.kinds s hmem

/-- Fresh slots find nothing. -/
lemma slotsOk_replicate (n : ℕ) : SlotsOk (List.replicate n MapSlot.empty) [] 0 where
  refs := by
    have h : (List.replicate n MapSlot.empty).filter MapSlot.isLive = [] := by
      rw [List.filter_eq_nil_iff]
      intro s hs
      rw [List.eq_of_mem_replicate hs]
      decide
    rw [h]
    exact List.Perm.refl _
  tombs := by
    rw [List.count_eq_zero]
    intro hmem
    exact absurd (List.eq_of_mem_replicate hmem) (by decide)
  kinds := fun s hs => Or.inr (Or.inr (List.eq_of_mem_replicate hs))
  chains := by
    intro j s hj hs
    rw [List.eq_of_mem_replicate (List.mem_of_getElem? hj)] at hs
    exact absurd hs (by decide)

/-! ### Rehash -/

/-- The copy loop moves the live entries and finds them all. -/
lemma rehashLoop_spec {b c : ℕ} (rest newE : List MapEntry) (newS : List MapSlot)
    (hb : newS.length = 2 ^ b) (hlive : ∀ e ∈ newE, e.isLive = true)
    (hok : SlotsOk newS newE 0) (hcap : (newE ++ rest.filter MapEntry.isLive).length ≤ c)
    (hroom : (newE ++ rest.filter MapEntry.isLive).length < newS.length)
    (hidx : (newE ++ rest.filter MapEntry.isLive).length < slotTombstone) :
    ∃ newS', rehashLoop c newS.length rest newE newS =
        some (newE ++ rest.filter MapEntry.isLive, newS') ∧
      newS'.length = newS.length ∧ SlotsOk newS' (newE ++ rest.filter MapEntry.isLive) 0 := by
  induction rest generalizing newE newS with
  | nil => exact ⟨newS, by simp [rehashLoop], rfl, by simpa using hok⟩
  | cons src rest ih =>
    by_cases hsrc : src.isLive = true
    · have hh : src.hash ≠ 0 := by simpa [MapEntry.isLive] using hsrc
      rw [List.filter_cons_of_pos hsrc] at hcap hroom hidx ⊢
      rw [List.append_cons] at hcap hroom hidx ⊢
      simp only [rehashLoop, if_neg hh]
      have hlen : newE.length < (newE ++ [src] ++ rest.filter MapEntry.isLive).length := by
        simp
      rw [if_pos (lt_of_lt_of_le hlen hcap)]
      have hall : newE.filter MapEntry.isLive = newE := List.filter_eq_self.mpr hlive
      have hempty : MapSlot.empty ∈ newS := by
        refine hok.empty_mem ?_
        rw [hall]
        omega
      have hnotomb : ∀ s ∈ newS, s.index ≠ slotTombstone := by
        intro s hs htomb
        rcases hok.kinds s hs with h1 | rfl | rfl
        · simp [MapSlot.isLive, htomb] at h1
        · exact List.count_eq_zero.mp hok.tombs hs
        · exact absurd htomb (by decide)
      have hlt : newE.length < slotTombstone := lt_trans hlen hidx
      obtain ⟨newS', hrun, hins⟩ := mapSlotInsert_spec hb hok.chains hok.emptyUniform hempty
        (g := src.hash) (n := newE.length)
        (by unfold slotEmpty; unfold slotTombstone at hlt; omega)
        (displacesSafely_of_no_tombstone _ _ _ _ _ _ hnotomb hlt.ne)
      rw [hrun]
      have hok' := hok.inserted hsrc hlt hins
      obtain ⟨newS'', hrun', hlen', hok''⟩ := ih (newE ++ [src]) newS' (by rw [hins.length, hb])
        (by
          intro e he
          rcases List.mem_append.mp he with h1 | h1
          · exact hlive e h1
          · rw [List.mem_singleton.mp h1]
            exact hsrc)
        hok' hcap (by rw [hins.length]; exact hroom) hidx
      rw [hins.length] at hrun' hlen'
      exact ⟨newS'', hrun', hlen', hok''⟩
    · have hh : src.hash = 0 := by simpa [MapEntry.isLive] using hsrc
      rw [List.filter_cons_of_neg hsrc] at hcap hroom hidx ⊢
      simp only [rehashLoop, if_pos hh]
      exact ih newE newS hb hlive hok hcap hroom hidx

/-- A rehash to sizes that hold the live entries keeps the invariant and the dictionary. -/
theorem mapRehash_spec {m : Map} (h : EntriesOk m.entries)
    (hlive : m.nEntries = (m.entries.filter MapEntry.isLive).length) {b c : ℕ}
    (hb4 : 4 ≤ b) (hb31 : b ≤ 31) (hcap : m.nEntries ≤ c) (hpos : 0 < c)
    (hcapLe : 2 * c ≤ 3 * 2 ^ b) (hload : 4 * m.nEntries ≤ 3 * 2 ^ b) :
    ∃ m', mapRehash m c (2 ^ b) = some m' ∧ m'.Wf ∧
      m'.entries = m.entries.filter MapEntry.isLive ∧ m'.nEntries = m.nEntries ∧
      m'.nTombstones = 0 ∧ m'.entriesCap = c ∧ m'.slotsCount = 2 ^ b ∧
      m'.valuesNumber = m.valuesNumber := by
  have hpow : (2 : ℕ) ^ b ≤ 2 ^ 31 := Nat.pow_le_pow_right (by norm_num) hb31
  have hpow4 : 2 ^ 4 ≤ (2 : ℕ) ^ b := Nat.pow_le_pow_right (by norm_num) hb4
  have hlen : (List.replicate (2 ^ b) MapSlot.empty).length = 2 ^ b := List.length_replicate
  obtain ⟨newS, hrun, hlenS, hok⟩ := rehashLoop_spec (c := c) m.entries []
    (List.replicate (2 ^ b) MapSlot.empty) hlen (by simp) (slotsOk_replicate _)
    (by rw [List.nil_append, ← hlive]; exact hcap)
    (by rw [List.nil_append, ← hlive, hlen]; omega)
    (by rw [List.nil_append, ← hlive]; unfold slotTombstone; omega)
  rw [hlen, List.nil_append] at hrun
  rw [List.nil_append] at hok
  have hsc : newS.length = 2 ^ b := by rw [hlenS, hlen]
  simp only [mapRehash, hrun]
  refine ⟨_, rfl, ?_, rfl, rfl, rfl, rfl, hsc, rfl⟩
  exact
    { toSlotsOk := hok
      hashes := fun e he => h.hashes e (List.mem_of_mem_filter he)
      distinct := by
        rw [liveDict_filter]
        exact h.distinct
      size := ⟨b, hb4, hb31, hsc⟩
      capPos := hpos
      capLe := by
        simp only [Map.slotsCount, hsc]
        exact hcapLe
      used := by
        simp only [Map.nUsed, ← hlive]
        exact hcap
      counts := by
        simp only [Map.nUsed, ← hlive]
        rfl
      load := by
        simp only [Map.slotsCount, Map.nUsed, hsc, ← hlive]
        exact hload
      live := by
        simp only [List.filter_filter, Bool.and_self]
        exact hlive }

/-! ### Growth -/

/-- The arrays of entries of two tables hold the same live entries in the same order. -/
def SameLive (es fs : List MapEntry) : Prop := fs = es ∨ fs = es.filter MapEntry.isLive

/-- Tables with the same live entries stand for one dictionary. -/
lemma SameLive.liveDict_eq {es fs : List MapEntry} (h : SameLive es fs) :
    liveDict fs = liveDict es := by
  rcases h with rfl | rfl
  · rfl
  · exact liveDict_filter es

/-- A 32-bit register keeps numbers in range. -/
lemma u32_of_lt {n : ℕ} (h : n < 2 ^ 32) : u32 n = n := Nat.mod_eq_of_lt h

/-- The slot-side growth makes room for one more slot. -/
lemma growSlots_spec {m : Map} (h : m.Wf) (hsize : m.slotsCount ≤ 2 ^ 30) :
    ∃ m', growSlots m = some m' ∧ m'.Wf ∧ SameLive m.entries m'.entries ∧
      4 * (m'.nUsed + 1) ≤ 3 * m'.slotsCount ∧ m'.valuesNumber = m.valuesNumber := by
  obtain ⟨b, hb4, -, hb⟩ := h.size
  have hpow4 : 2 ^ 4 ≤ (2 : ℕ) ^ b := Nat.pow_le_pow_right (by norm_num) hb4
  have hcounts := h.counts
  have hload := h.load
  have hcap := h.capLe
  have hused := h.used
  have hexceeded : slotLoadExceeded m.nEntries m.nTombstones m.slotsCount =
      decide (3 * m.slotsCount < 4 * (m.nUsed + 1)) := by
    unfold slotLoadExceeded
    rw [u32_of_lt (n := m.nEntries + m.nTombstones + 1) (by omega), u32_of_lt (by omega),
      u32_of_lt (by omega), decide_eq_decide]
    omega
  unfold growSlots
  rw [hexceeded]
  by_cases hex : 3 * m.slotsCount < 4 * (m.nUsed + 1)
  · rw [decide_eq_true hex, if_pos rfl]
    have hslots : u32 (m.slotsCount * 2) = 2 ^ (b + 1) := by
      rw [u32_of_lt (by omega), hb, pow_succ]
    have hb30 : b + 1 ≤ 31 := by
      by_contra hgt
      have : 2 ^ 31 ≤ (2 : ℕ) ^ b := Nat.pow_le_pow_right (by norm_num) (by omega)
      omega
    have hpow' : (2 : ℕ) ^ (b + 1) = m.slotsCount * 2 := by rw [hb, pow_succ]
    have hpos := h.capPos
    rw [hslots]
    obtain ⟨m', hrun, hwf, hes, hn, ht, hc, hs, hv⟩ := mapRehash_spec (b := b + 1)
      (c := if u32 (m.nEntries + 1) > m.entriesCap then u32 (m.entriesCap * 2)
        else m.entriesCap) h.toEntriesOk h.live (by omega) hb30
      (by split_ifs with hc
          · rw [u32_of_lt (by omega)]
            omega
          · rw [u32_of_lt (by omega)] at hc
            omega)
      (by split_ifs
          · rw [u32_of_lt (by omega)]
            omega
          · exact hpos)
      (by rw [hpow']
          split_ifs
          · rw [u32_of_lt (by omega)]
            omega
          · omega)
      (by omega)
    refine ⟨m', hrun, hwf, Or.inr hes, ?_, hv⟩
    rw [hwf.counts, hn, ht, hs]
    omega
  · rw [decide_eq_false hex, if_neg (by simp)]
    exact ⟨m, rfl, h, Or.inl rfl, by omega, rfl⟩

/-- The entry-side growth makes room for one more entry, without changing the slots' size. -/
lemma growEntries_spec {m : Map} (h : m.Wf) (hroom : 4 * (m.nUsed + 1) ≤ 3 * m.slotsCount)
    (k : AnyPair) :
    ∃ m', growEntries m k (mapHashKey k) = some (m', mapHashKey k) ∧ m'.Wf ∧
      SameLive m.entries m'.entries ∧ 4 * (m'.nUsed + 1) ≤ 3 * m'.slotsCount ∧
      m'.nUsed < m'.entriesCap ∧ m'.valuesNumber = m.valuesNumber := by
  obtain ⟨b, hb4, hb31, hb⟩ := h.size
  have hpow : (2 : ℕ) ^ b ≤ 2 ^ 31 := Nat.pow_le_pow_right (by norm_num) hb31
  have hcounts := h.counts
  have hused := h.used
  have hpos := h.capPos
  unfold growEntries
  by_cases hfull : m.nUsed ≥ m.entriesCap
  · rw [if_pos hfull, hb, u32_of_lt (by omega)]
    obtain ⟨m', hrun, hwf, hes, hn, ht, hc, hs, hv⟩ := mapRehash_spec (b := b)
      (c := m.entriesCap * 2) h.toEntriesOk h.live hb4 hb31 (by omega) (by omega) (by omega)
      (by omega)
    obtain ⟨lr, hlr, hspec⟩ := mapLookupSlot_spec hwf k
    refine ⟨m', by simp [hrun, hlr, hspec.1], hwf, Or.inr hes, ?_, ?_, hv⟩
    · rw [hwf.counts, hn, ht, hs]
      omega
    · rw [hwf.counts, hn, ht, hc]
      omega
  · rw [if_neg hfull]
    exact ⟨m, rfl, h, Or.inl rfl, hroom, by omega, rfl⟩

/-! ### Insertion -/

/-- The condition on the placement of a fresh entry: its insertion displaces no tombstone
harmfully. -/
def placesSafely (m : Map) (hash : ℕ) : Prop :=
  displacesSafely m.slotsCount m.slotsCount m.slots (hash &&& (m.slotsCount - 1)) 0
    ⟨hash, m.nUsed⟩

instance (cap fuel : ℕ) (slots : List MapSlot) (i probe : ℕ) (cur : MapSlot) :
    Decidable (displacesSafely cap fuel slots i probe cur) := by
  induction fuel generalizing slots i probe cur with
  | zero => exact isTrue trivial
  | succ fuel ih =>
    simp only [displacesSafely]
    cases slots[i]? with
    | none => exact isTrue trivial
    | some s =>
      simp only
      infer_instance

instance (m : Map) (hash : ℕ) : Decidable (placesSafely m hash) := by
  unfold placesSafely
  infer_instance

/-- Appending a fresh key adds it at the end of the dictionary. -/
lemma appendEntry_spec {m : Map} (h : m.Wf) (hroom : 4 * (m.nUsed + 1) ≤ 3 * m.slotsCount)
    (hcap : m.nUsed < m.entriesCap) {k : AnyPair} (hk : IsValue k)
    (hfresh : jsValue k ∉ (liveDict m.entries).map Prod.fst) (v : AnyPair)
    (hsafe : placesSafely m (mapHashKey k)) :
    ∃ m', appendEntry m (mapHashKey k) k v = some m' ∧ m'.Wf ∧
      m'.entries = m.entries ++ [⟨mapHashKey k, boxFromPair k, boxFromPair v⟩] ∧
      m'.valuesNumber = m.valuesNumber := by
  obtain ⟨b, hb4, hb31, hb⟩ := h.size
  have hpow : (2 : ℕ) ^ b ≤ 2 ^ 31 := Nat.pow_le_pow_right (by norm_num) hb31
  have hcounts := h.counts
  have hlive := h.live
  have hidx := h.nUsed_lt
  have hempty : MapSlot.empty ∈ m.slots := by
    refine h.toSlotsOk.empty_mem ?_
    rw [← hlive, ← hcounts]
    unfold Map.slotsCount at hroom
    omega
  obtain ⟨slots', hrun, hins⟩ := mapSlotInsert_spec (b := b) hb h.chains h.emptyUniform hempty
    (g := mapHashKey k) (n := m.nUsed)
    (by unfold slotEmpty; unfold slotTombstone at hidx; omega) hsafe
  have he : (MapEntry.mk (mapHashKey k) (boxFromPair k) (boxFromPair v)).isLive = true := by
    simpa [MapEntry.isLive] using mapHashKey_ne_zero k
  have hpair : (MapEntry.mk (mapHashKey k) (boxFromPair k) (boxFromPair v)).pair =
      (jsValue k, boxFromPair v) := by
    simp only [MapEntry.pair, MapEntry.keyValue, hk.jsValue_stored]
  have hrun' : mapSlotInsert m.slots m.slotsCount (mapHashKey k) m.nUsed = some slots' := hrun
  have hlen : slots'.length = m.slotsCount := hins.length
  unfold appendEntry
  rw [if_pos hcap, hrun']
  refine ⟨_, rfl, ?_, rfl, rfl⟩
  have hn : u32 (m.nEntries + 1) = m.nEntries + 1 := u32_of_lt (by omega)
  exact
    { toSlotsOk := h.toSlotsOk.inserted he hidx hins
      hashes := by
        intro e hmem helive
        rcases List.mem_append.mp hmem with h1 | h1
        · exact h.hashes e h1 helive
        · rw [List.mem_singleton.mp h1]
          exact (mapHashKey_congr hk.jsValue_stored).symm
      distinct := by
        have hput := nodupKeys_put h.distinct (jsValue k) (boxFromPair v)
        rw [put_of_notMem hfresh] at hput
        rw [liveDict_append, liveDict_cons_live he, hpair]
        exact hput
      size := ⟨b, hb4, hb31, by rw [← hb, ← hlen]; rfl⟩
      capPos := h.capPos
      capLe := by
        simp only [Map.slotsCount, hlen]
        exact h.capLe
      used := by
        simp only [Map.nUsed, List.length_append, List.length_singleton]
        exact hcap
      counts := by
        simp only [Map.nUsed, List.length_append, List.length_singleton, hn]
        unfold Map.nUsed at hcounts
        omega
      load := by
        simp only [Map.slotsCount, Map.nUsed, List.length_append, List.length_singleton, hlen]
        exact hroom
      live := by
        change u32 (m.nEntries + 1) = _
        rw [hn, List.filter_append, List.length_append, ← hlive]
        simp [he] }

/-- Overwriting the value of a live entry. -/
lemma overwriteEntry_spec {m : Map} (h : m.Wf) {idx : ℕ} {e : MapEntry}
    (hi : m.entries[idx]? = some e) (he : e.isLive = true) (v : AnyPair) :
    (overwriteEntry m idx v).Wf ∧
      liveDict (overwriteEntry m idx v).entries =
        put (liveDict m.entries) e.keyValue (boxFromPair v) := by
  have hdict : liveDict (overwriteEntry m idx v).entries =
      put (liveDict m.entries) e.keyValue (boxFromPair v) :=
    liveDict_modify_value h.distinct hi he (boxFromPair v)
  obtain ⟨xs, ys, hsplit, hlen⟩ := exists_split_at hi
  have hmod : (overwriteEntry m idx v).entries =
      xs ++ { e with valueAnyv := boxFromPair v } :: ys := by
    simp only [overwriteEntry, hsplit, ← hlen, modify_split]
  have hhash : (overwriteEntry m idx v).entries.map MapEntry.hash = m.entries.map MapEntry.hash := by
    rw [hmod, hsplit]
    simp
  have hused : (overwriteEntry m idx v).nUsed = m.nUsed := by
    simp [Map.nUsed, overwriteEntry]
  refine ⟨?_, hdict⟩
  exact
    { refs := by
        rw [liveRefs_congr hhash]
        exact h.refs
      tombs := h.tombs
      kinds := h.kinds
      chains := h.chains
      hashes := by
        intro f hf hflive
        rw [hmod] at hf
        rcases List.mem_append.mp hf with h1 | h1
        · exact h.hashes f (by rw [hsplit]; exact List.mem_append_left _ h1) hflive
        · rcases List.mem_cons.mp h1 with rfl | h1
          · exact h.hashes e (List.mem_of_getElem? hi) he
          · exact h.hashes f
              (by rw [hsplit]; exact List.mem_append_right _ (List.mem_cons_of_mem _ h1)) hflive
      distinct := by
        rw [hdict]
        exact nodupKeys_put h.distinct _ _
      size := h.size
      capPos := h.capPos
      capLe := h.capLe
      used := by
        rw [hused]
        exact h.used
      counts := by
        rw [hused]
        exact h.counts
      load := by
        rw [hused]
        exact h.load
      live := by
        have hn : (overwriteEntry m idx v).nEntries = m.nEntries := rfl
        rw [hn, h.live, ← length_liveRefs, ← length_liveRefs, liveRefs_congr hhash] }

/-! ### Deletion -/

/-- Marking an entry and its slot deleted. -/
lemma removeEntry_spec {m : Map} (h : m.Wf) {slotIdx idx : ℕ} {e : MapEntry}
    (hi : m.entries[idx]? = some e) (he : e.isLive = true)
    (hs : m.slots[slotIdx]? = some ⟨e.hash, idx⟩) :
    (removeEntry m slotIdx idx).Wf ∧
      liveDict (removeEntry m slotIdx idx).entries = erase (liveDict m.entries) e.keyValue := by
  have hdict : liveDict (removeEntry m slotIdx idx).entries =
      erase (liveDict m.entries) e.keyValue := liveDict_set_deleted h.distinct hi he
  refine ⟨?_, hdict⟩
  obtain ⟨hslt, hsget⟩ := List.getElem?_eq_some_iff.mp hs
  have hidx : idx < m.nUsed := lt_length_of_getElem?_eq_some hi
  have hslive : (MapSlot.mk e.hash idx).isLive = true := isLive_of_lt (lt_trans hidx h.nUsed_lt)
  have hslots : (MapSlot.mk e.hash idx :: m.slots.set slotIdx MapSlot.tombstone).Perm
      (MapSlot.tombstone :: m.slots) := by
    have hperm := cons_set_perm hslt MapSlot.tombstone
    rwa [hsget] at hperm
  have hrefs := liveRefs_set_deleted hi he
  have hused : (removeEntry m slotIdx idx).nUsed = m.nUsed := by
    simp [Map.nUsed, removeEntry]
  have hsc : (removeEntry m slotIdx idx).slotsCount = m.slotsCount := by
    simp [Map.slotsCount, removeEntry]
  have hlive : (m.entries.filter MapEntry.isLive).length =
      ((m.entries.set idx MapEntry.deleted).filter MapEntry.isLive).length + 1 := by
    rw [← length_liveRefs, ← length_liveRefs, ← hrefs.length_eq, List.length_cons]
  have hcounts := h.counts
  have hn := h.live
  have hlt := h.nUsed_lt
  have ht : u32 (m.nTombstones + 1) = m.nTombstones + 1 := by
    refine u32_of_lt ?_
    unfold slotTombstone at hlt
    omega
  exact
    { refs := by
        have hf := hslots.filter MapSlot.isLive
        rw [List.filter_cons_of_pos hslive, List.filter_cons_of_neg (by decide)] at hf
        exact (hf.trans (h.refs.trans hrefs.symm)).cons_inv
      tombs := by
        have hne : (MapSlot.mk e.hash idx) ≠ MapSlot.tombstone := by
          intro heq
          rw [heq] at hslive
          exact absurd hslive (by decide)
        have hc := hslots.count_eq MapSlot.tombstone
        rw [List.count_cons_of_ne hne, List.count_cons_self, h.tombs] at hc
        change (m.slots.set slotIdx MapSlot.tombstone).count MapSlot.tombstone =
          u32 (m.nTombstones + 1)
        rw [hc, ht]
      kinds := by
        intro s hsm
        rcases List.mem_or_eq_of_mem_set hsm with hmem | rfl
        · exact h.kinds s hmem
        · exact Or.inr (Or.inl rfl)
      chains := h.chains.set hslt (by decide) (fun hl => absurd hl (by decide))
        (fun hl => absurd hl (by decide))
      hashes := by
        intro f hf hflive
        rcases List.mem_or_eq_of_mem_set hf with hmem | rfl
        · exact h.hashes f hmem hflive
        · exact absurd hflive (by decide)
      distinct := by
        rw [hdict]
        exact nodupKeys_erase h.distinct _
      size := by
        rw [hsc]
        exact h.size
      capPos := h.capPos
      capLe := by
        rw [hsc]
        exact h.capLe
      used := by
        rw [hused]
        exact h.used
      counts := by
        rw [hused]
        change m.nUsed = m.nEntries - 1 + u32 (m.nTombstones + 1)
        rw [ht]
        omega
      load := by
        rw [hused, hsc]
        exact h.load
      live := by
        change m.nEntries - 1 = _
        have hset : (removeEntry m slotIdx idx).entries = m.entries.set idx MapEntry.deleted := rfl
        rw [hset]
        omega }

/-- Rehashing at the same sizes. -/
lemma mapRehash_same {m : Map} (h : m.Wf) :
    ∃ m', mapRehash m m.entriesCap m.slotsCount = some m' ∧ m'.Wf ∧
      m'.entries = m.entries.filter MapEntry.isLive ∧ m'.valuesNumber = m.valuesNumber := by
  obtain ⟨b, hb4, hb31, hb⟩ := h.size
  have hcounts := h.counts
  have hused := h.used
  have hload := h.load
  have hcap := h.capLe
  rw [hb] at hload hcap
  obtain ⟨m', hrun, hwf, hes, -, -, -, -, hv⟩ :=
    mapRehash_spec (b := b) (c := m.entriesCap) h.toEntriesOk h.live hb4 hb31 (by omega)
      h.capPos hcap (by omega)
  exact ⟨m', by rw [hb, hrun], hwf, hes, hv⟩

/-- `delete` erases the key and answers whether it was present. -/
theorem mapDelete_spec {m : Map} (h : m.Wf) (k : AnyPair) :
    ∃ m', mapDelete m k = some (m', decide (jsValue k ∈ (liveDict m.entries).map Prod.fst)) ∧
      m'.Wf ∧ liveDict m'.entries = erase (liveDict m.entries) (jsValue k) ∧
      m'.valuesNumber = m.valuesNumber := by
  obtain ⟨lr, hlr, -⟩ := mapLookupSlot_spec h k
  have hiff := lookup_found_iff h hlr
  cases hf : lr.found with
  | false =>
    have hnot : jsValue k ∉ (liveDict m.entries).map Prod.fst := by
      rw [← hiff, hf]
      simp
    refine ⟨m, by simp [mapDelete, hlr, hf, hnot], h, (erase_of_notMem hnot).symm, rfl⟩
  | true =>
    have hmem := hiff.mp hf
    obtain ⟨e, he, helive, hek, hes⟩ := lookup_entry h hlr hf
    obtain ⟨hwf, hdict⟩ := removeEntry_spec h he helive hes
    rw [hek] at hdict
    simp only [mapDelete, hlr, Option.bind_eq_bind, Option.bind_some, hf, if_true,
      decide_eq_true hmem]
    by_cases hmany : (removeEntry m lr.slotIdx lr.entryIdx).nTombstones >
        (removeEntry m lr.slotIdx lr.entryIdx).slotsCount / 4
    · obtain ⟨m', hrun, hwf', hes', hv⟩ := mapRehash_same hwf
      rw [if_pos hmany, hrun]
      refine ⟨m', rfl, hwf', ?_, hv⟩
      rw [hes', liveDict_filter, hdict]
    · rw [if_neg hmany]
      exact ⟨_, rfl, hwf, hdict, rfl⟩

/-- `clear` empties the dictionary. -/
theorem mapClear_spec {m : Map} (h : m.Wf) :
    (mapClear m).Wf ∧ liveDict (mapClear m).entries = [] ∧
      (mapClear m).valuesNumber = m.valuesNumber := by
  have hsc : (mapClear m).slotsCount = m.slotsCount := by simp [Map.slotsCount, mapClear]
  refine ⟨?_, rfl, rfl⟩
  exact
    { toSlotsOk := slotsOk_replicate _
      hashes := fun e he => absurd he (List.not_mem_nil (a := e))
      distinct := nodupKeys_nil
      size := by
        rw [hsc]
        exact h.size
      capPos := h.capPos
      capLe := by
        rw [hsc]
        exact h.capLe
      used := Nat.zero_le _
      counts := rfl
      load := Nat.zero_le _
      live := rfl }

/-- A fresh table keeps the invariant and stands for the empty dictionary. -/
theorem mapCreate_spec (valuesNumber : Bool) :
    (mapCreate valuesNumber).Wf ∧ liveDict (mapCreate valuesNumber).entries = [] := by
  refine ⟨?_, rfl⟩
  exact
    { toSlotsOk := slotsOk_replicate _
      hashes := fun e he => absurd he (List.not_mem_nil (a := e))
      distinct := nodupKeys_nil
      size := ⟨4, le_rfl, by norm_num, by simp [Map.slotsCount, mapCreate, mapSlotsInitial]⟩
      capPos := by simp [mapCreate, mapEntriesInitial]
      capLe := by simp [mapCreate, mapEntriesInitial, mapSlotsInitial, Map.slotsCount]
      used := Nat.zero_le _
      counts := rfl
      load := Nat.zero_le _
      live := rfl }

/-! ### `set` and `getOrInsert` -/

/-- The key that is stored stands for the value of the key given. -/
lemma jsValue_normalizeKey (k : AnyPair) : jsValue (normalizeKey k) = jsValue k := by
  unfold normalizeKey
  cases k with
  | f64 bits =>
    simp only
    split_ifs with h
    · subst h
      simp [jsValue, negZero, Binary64.value, Binary64.biasedExp, Binary64.fraction,
        Binary64.magnitude, Binary64.signBit]
    · rfl
  | _ => rfl

/-- A key that stands for a value is stored as one. -/
lemma isValue_normalizeKey {k : AnyPair} (h : IsValue k) : IsValue (normalizeKey k) := by
  unfold normalizeKey
  cases k with
  | f64 bits =>
    simp only
    split_ifs
    · exact isValue_f64 _
    · exact h
  | _ => exact h

/-- The condition on `set`: the slots can still be doubled, the key stands for a value, and
where the key is absent the fresh entry is placed safely in the table after its growth. -/
def SetSafe (m : Map) (key : AnyPair) : Prop :=
  m.slotsCount ≤ 2 ^ 30 ∧ IsValue key ∧
    ∀ m₁ ∈ growSlots m, ∀ lr ∈ mapLookupSlot m₁ (normalizeKey key), lr.found = false →
      ∀ g ∈ growEntries m₁ (normalizeKey key) lr.hash, placesSafely g.1 g.2

instance (m : Map) (key : AnyPair) : Decidable (SetSafe m key) := by
  unfold SetSafe
  infer_instance

/-- `set` puts the key where the map takes the value. -/
theorem mapSet_spec {m : Map} (h : m.Wf) {k v : AnyPair}
    (hsafe : admitsValue m v = true → SetSafe m k) :
    ∃ m', mapSet m k v = some m' ∧ m'.Wf ∧
      liveDict m'.entries = (if admitsValue m v then
        put (liveDict m.entries) (jsValue k) (boxFromPair v) else liveDict m.entries) ∧
      m'.valuesNumber = m.valuesNumber := by
  cases hadm : admitsValue m v with
  | false => exact ⟨m, by simp [mapSet, hadm], h, by simp, rfl⟩
  | true =>
    obtain ⟨hsize, hkey, hplace⟩ := hsafe hadm
    have hk := isValue_normalizeKey hkey
    obtain ⟨m₁, hm₁, hwf₁, hsame₁, hroom₁, hv₁⟩ := growSlots_spec h hsize
    obtain ⟨lr, hlr, hspec⟩ := mapLookupSlot_spec hwf₁ (normalizeKey k)
    have hiff := lookup_found_iff hwf₁ hlr
    rw [jsValue_normalizeKey, hsame₁.liveDict_eq] at hiff
    simp only [mapSet, hadm, if_true, hm₁, Option.bind_eq_bind, Option.bind_some, hlr]
    cases hf : lr.found with
    | true =>
      obtain ⟨e, he, helive, hek, -⟩ := lookup_entry hwf₁ hlr hf
      obtain ⟨hwf', hdict⟩ := overwriteEntry_spec hwf₁ he helive v
      refine ⟨_, rfl, hwf', ?_, hv₁⟩
      rw [hdict, hek, jsValue_normalizeKey, hsame₁.liveDict_eq]
    | false =>
      have hnot : jsValue k ∉ (liveDict m.entries).map Prod.fst := by
        rw [← hiff, hf]
        simp
      obtain ⟨m₂, hm₂, hwf₂, hsame₂, hroom₂, hcap₂, hv₂⟩ :=
        growEntries_spec hwf₁ hroom₁ (normalizeKey k)
      have hsafe₂ := hplace m₁ hm₁ lr hlr hf
      rw [hspec.1] at hsafe₂ ⊢
      have hdict₂ : liveDict m₂.entries = liveDict m.entries := by
        rw [hsame₂.liveDict_eq, hsame₁.liveDict_eq]
      obtain ⟨m₃, hm₃, hwf₃, hes₃, hv₃⟩ := appendEntry_spec hwf₂ hroom₂ hcap₂ hk
        (by rw [jsValue_normalizeKey, hdict₂]; exact hnot) v (hsafe₂ _ hm₂)
      refine ⟨m₃, by simp [hm₂, hm₃], hwf₃, ?_, by rw [hv₃, hv₂, hv₁]⟩
      have hlive : (MapEntry.mk (mapHashKey (normalizeKey k)) (boxFromPair (normalizeKey k))
          (boxFromPair v)).isLive = true := by
        simpa [MapEntry.isLive] using mapHashKey_ne_zero (normalizeKey k)
      rw [hes₃, liveDict_append, liveDict_cons_live hlive, hdict₂, put_of_notMem hnot,
        MapEntry.pair, MapEntry.keyValue, hk.jsValue_stored, jsValue_normalizeKey]
      rfl

end Torajs.Collections
