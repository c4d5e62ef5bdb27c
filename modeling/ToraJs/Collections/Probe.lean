import ToraJs.Collections.Table
import ToraJs.Lib.OpenAddressing
import Mathlib.Data.Nat.Bitwise

/-!
# Probe chains of the slot table

The chain of a live slot is the stretch of slots between its ideal slot and itself.  A
lookup for its key walks exactly the chain, so it arrives when no slot of the chain stops
it: none is empty, and no resident is closer to its own ideal slot than the walk is to
the key's.  This is the invariant of the table, `ChainsOpen`.

An insertion keeps the invariant when it displaces residents, but not when it displaces a
tombstone: the tombstone's place says nothing about the chains that cross it.
`displacesSafely` is the exact condition under which it does no harm.
-/

namespace Torajs.Collections

open OpenAddressing

/-! ### Masks -/

/-- The mask of a table whose size is a power of two takes remainders. -/
lemma and_mask {cap b : ℕ} (hb : cap = 2 ^ b) (n : ℕ) : n &&& (cap - 1) = n % cap := by
  rw [hb, Nat.and_two_pow_sub_one_eq_mod]

/-- The probe distance of a resident as the code computes it. -/
lemma slotProbe_eq {cap b : ℕ} (hb : cap = 2 ^ b) (i hash : ℕ) :
    (i + cap - (hash &&& (cap - 1))) &&& (cap - 1) = probeDist cap hash i := by
  rw [and_mask hb, and_mask hb, probeDist]

/-! ### Chains -/

/-- A probe at distance `p` goes on at this slot, found at `i`. -/
def MapSlot.Passable (cap i p : ℕ) (s : MapSlot) : Prop :=
  s.index ≠ slotEmpty ∧ (s.isLive = true → p ≤ probeDist cap s.hash i)

/-- The first `d` probes from `home` go on. -/
def OpenTo (slots : List MapSlot) (home d : ℕ) : Prop :=
  ∀ p < d, ∃ t, slots[slotAt slots.length home p]? = some t ∧
    t.Passable slots.length (slotAt slots.length home p) p

/-- No slot stops the walk along the chain of a live slot. -/
def ChainsOpen (slots : List MapSlot) : Prop :=
  ∀ j s, slots[j]? = some s → s.isLive = true →
    OpenTo slots s.hash (probeDist slots.length s.hash j)

/-- A slot that is in use leads to an entry or is a tombstone. -/
lemma index_ne_empty_of_isLive {s : MapSlot} (h : s.isLive = true) : s.index ≠ slotEmpty := by
  simp only [MapSlot.isLive, Bool.and_eq_true, bne_iff_ne] at h
  exact h.1

/-- The position of an element of a list is below its length. -/
lemma lt_length_of_getElem?_eq_some {α : Type*} {l : List α} {i : ℕ} {a : α}
    (h : l[i]? = some a) : i < l.length := (List.getElem?_eq_some_iff.mp h).1

/-- One more probe goes on. -/
lemma OpenTo.succ {slots : List MapSlot} {home d : ℕ} (h : OpenTo slots home d) {t : MapSlot}
    (ht : slots[slotAt slots.length home d]? = some t)
    (hp : t.Passable slots.length (slotAt slots.length home d) d) :
    OpenTo slots home (d + 1) := by
  intro p hpd
  rcases Nat.lt_succ_iff_lt_or_eq.mp hpd with hlt | rfl
  · exact h p hlt
  · exact ⟨t, ht, hp⟩

/-- A walk that goes on has not been all around a table with an empty slot. -/
lemma OpenTo.lt_length {slots : List MapSlot} {home d j : ℕ} {s : MapSlot}
    (h : OpenTo slots home d) (hj : slots[j]? = some s) (hs : s.index = slotEmpty) :
    d < slots.length := by
  have hlt := lt_length_of_getElem?_eq_some hj
  have hcap : 0 < slots.length := Nat.zero_lt_of_lt hlt
  by_contra hge
  obtain ⟨t, ht, hpass⟩ := h (probeDist slots.length home j)
    (lt_of_lt_of_le (probeDist_lt hcap home j) (not_lt.mp hge))
  rw [slotAt_probeDist hcap hlt, hj] at ht
  exact hpass.1 (by rw [← Option.some_inj.mp ht, hs])

/-- Overwriting a slot with an element that lets the walk pass keeps the walk going. -/
lemma OpenTo.set {slots : List MapSlot} {home d i : ℕ} {cur : MapSlot}
    (h : OpenTo slots home d) (hcur : cur.index ≠ slotEmpty)
    (hpass : cur.isLive = true → ∀ p < d, slotAt slots.length home p = i →
      p ≤ probeDist slots.length cur.hash i) :
    OpenTo (slots.set i cur) home d := by
  intro p hpd
  obtain ⟨t, ht, htp⟩ := h p hpd
  rw [List.length_set]
  by_cases hip : i = slotAt slots.length home p
  · have hlt := lt_length_of_getElem?_eq_some ht
    refine ⟨cur, by rw [hip, List.getElem?_set_self hlt], hcur, fun hlive => ?_⟩
    rw [← hip]
    exact hpass hlive p hpd hip.symm
  · exact ⟨t, by rw [List.getElem?_set_ne hip, ht], htp⟩

/-- Overwriting a slot keeps all chains open when the walk to the new element is open and no
chain crosses the slot farther from home than the new element is from its own. -/
lemma ChainsOpen.set {slots : List MapSlot} (h : ChainsOpen slots) {i : ℕ} (hi : i < slots.length)
    {cur : MapSlot} (hcur : cur.index ≠ slotEmpty)
    (hown : cur.isLive = true → OpenTo slots cur.hash (probeDist slots.length cur.hash i))
    (hcross : cur.isLive = true → ∀ j s, slots[j]? = some s → s.isLive = true →
      ∀ p < probeDist slots.length s.hash j, slotAt slots.length s.hash p = i →
        p ≤ probeDist slots.length cur.hash i) :
    ChainsOpen (slots.set i cur) := by
  have hcap : 0 < slots.length := Nat.zero_lt_of_lt hi
  intro j s hj hs
  rw [List.length_set]
  by_cases hij : i = j
  · subst hij
    rw [List.getElem?_set_self hi] at hj
    obtain rfl := Option.some_inj.mp hj
    refine (hown hs).set hcur ?_
    -- the chain of the new element ends before its slot
    intro _ p hp hpi
    have hd := probeDist_lt hcap cur.hash i
    rw [← hpi, probeDist_slotAt hcap (lt_trans hp hd)]
  · rw [List.getElem?_set_ne hij] at hj
    exact (h j s hj hs).set hcur fun hlive => hcross hlive j s hj hs

/-- No chain crosses an empty slot. -/
lemma ChainsOpen.not_crosses_empty {slots : List MapSlot} (h : ChainsOpen slots) {i : ℕ}
    {e : MapSlot} (hi : slots[i]? = some e) (he : e.index = slotEmpty) {j : ℕ} {s : MapSlot}
    (hj : slots[j]? = some s) (hs : s.isLive = true) {p : ℕ}
    (hp : p < probeDist slots.length s.hash j) : slotAt slots.length s.hash p ≠ i := by
  intro hpi
  obtain ⟨t, ht, hpass⟩ := h j s hj hs p hp
  rw [hpi, hi] at ht
  exact hpass.1 (by rw [← Option.some_inj.mp ht, he])

/-- A chain that crosses a live slot is there no farther from home than the resident. -/
lemma ChainsOpen.crossing_le {slots : List MapSlot} (h : ChainsOpen slots) {i : ℕ}
    {r : MapSlot} (hi : slots[i]? = some r) (hr : r.isLive = true) {j : ℕ} {s : MapSlot}
    (hj : slots[j]? = some s) (hs : s.isLive = true) {p : ℕ}
    (hp : p < probeDist slots.length s.hash j) (hpi : slotAt slots.length s.hash p = i) :
    p ≤ probeDist slots.length r.hash i := by
  obtain ⟨t, ht, hpass⟩ := h j s hj hs p hp
  rw [hpi] at ht hpass
  rw [hi] at ht
  obtain rfl := Option.some_inj.mp ht
  exact hpass.2 hr

/-! ### Insertion -/

/-- Every chain that crosses slot `i` is there at most `probe` from home. -/
def crossingsWithin (slots : List MapSlot) (i probe : ℕ) : Prop :=
  ∀ j < slots.length, ∀ p < slots.length, ∀ s ∈ slots[j]?, s.isLive = true →
    p < probeDist slots.length s.hash j → slotAt slots.length s.hash p = i → p ≤ probe

instance (slots : List MapSlot) (i probe : ℕ) : Decidable (crossingsWithin slots i probe) := by
  unfold crossingsWithin
  infer_instance

/-- Along the walk of an insertion, whenever a live element takes the place of a tombstone,
it is at least as far from its ideal slot as every chain that crosses the place. -/
def displacesSafely (cap : ℕ) : ℕ → List MapSlot → ℕ → ℕ → MapSlot → Prop
  | 0, _, _, _, _ => True
  | fuel + 1, slots, i, probe, cur =>
    let mask := cap - 1
    match slots[i]? with
    | none => True
    | some s =>
      if s.index = slotEmpty then True
      else
        let slotProbe := (i + cap - (s.hash &&& mask)) &&& mask
        if slotProbe < probe then
          (s.index = slotTombstone → cur.isLive = true → crossingsWithin slots i probe) ∧
            displacesSafely cap fuel (slots.set i cur) ((i + 1) &&& mask) (slotProbe + 1) s
        else displacesSafely cap fuel slots ((i + 1) &&& mask) (probe + 1) cur

/-- What an insertion achieves: the element is in the table in the place of an empty slot,
and the chains are open. -/
structure Inserted (slots : List MapSlot) (cur : MapSlot) (slots' : List MapSlot) : Prop where
  length : slots'.length = slots.length
  chains : ChainsOpen slots'
  perm : (cur :: slots).Perm (MapSlot.empty :: slots')

/-- Empty slots are all alike. -/
def EmptyUniform (slots : List MapSlot) : Prop := ∀ s ∈ slots, s.index = slotEmpty → s = .empty

/-- Writing an element over a slot leaves the empty slots alike. -/
lemma EmptyUniform.set {slots : List MapSlot} (h : EmptyUniform slots) (i : ℕ) {cur : MapSlot}
    (hcur : cur.index ≠ slotEmpty) : EmptyUniform (slots.set i cur) := by
  intro s hs hse
  rcases List.mem_or_eq_of_mem_set hs with hmem | rfl
  · exact h s hmem hse
  · exact absurd hse hcur

/-- The next slot of the walk. -/
lemma next_slot {cap i e : ℕ} : slotAt cap ((i + 1) % cap) e = slotAt cap i (e + 1) := by
  rw [slotAt_mod]
  simp only [slotAt]
  congr 1
  omega

/-- The insertion loop finds an empty slot and keeps the chains open. -/
lemma slotInsertLoop_spec {b : ℕ} (fuel : ℕ) (slots : List MapSlot) (i probe : ℕ) (cur : MapSlot)
    (hb : slots.length = 2 ^ b) (hi : i < slots.length) (hchains : ChainsOpen slots)
    (hempty : EmptyUniform slots) (hcur : cur.index ≠ slotEmpty)
    (hwalk : cur.isLive = true → i = slotAt slots.length cur.hash probe ∧
      OpenTo slots cur.hash probe)
    (hroom : ∃ e < fuel, slots[slotAt slots.length i e]? = some MapSlot.empty)
    (hsafe : displacesSafely slots.length fuel slots i probe cur) :
    ∃ slots', slotInsertLoop slots.length fuel slots i probe cur = some slots' ∧
      Inserted slots cur slots' := by
  have hcap : 0 < slots.length := Nat.zero_lt_of_lt hi
  induction fuel generalizing slots i probe cur with
  | zero =>
    obtain ⟨e, he, -⟩ := hroom
    exact absurd he (Nat.not_lt_zero e)
  | succ fuel ih =>
    have hget : slots[i]? = some slots[i] := List.getElem?_eq_getElem hi
    set s := slots[i] with hs
    simp only [slotInsertLoop, hget]
    simp only [displacesSafely, hget] at hsafe
    rw [slotProbe_eq hb] at hsafe ⊢
    rw [and_mask hb] at hsafe ⊢
    -- the walk has not been all around, so the distance of the element is its probe count
    obtain ⟨e, hefuel, he⟩ := hroom
    have hdist : cur.isLive = true → probeDist slots.length cur.hash i = probe := by
      intro hlive
      obtain ⟨hiw, hopen⟩ := hwalk hlive
      rw [hiw, probeDist_slotAt hcap (hopen.lt_length he rfl)]
    have hperm : (s :: slots.set i cur).Perm (cur :: slots) := cons_set_perm hi cur
    by_cases hsempty : s.index = slotEmpty
    · rw [if_pos hsempty]
      have hse : s = MapSlot.empty := hempty s (List.getElem_mem hi) hsempty
      refine ⟨_, rfl, List.length_set, ?_, ?_⟩
      · refine hchains.set hi hcur ?_ ?_
        · intro hlive
          rw [hdist hlive]
          exact (hwalk hlive).2
        · intro _ j t hj ht p hp hpi
          exact absurd hpi (hchains.not_crosses_empty hget hsempty hj ht hp)
      · rw [← hse]
        exact hperm.symm
    · rw [if_neg hsempty] at hsafe ⊢
      -- the empty slot ahead is not this one
      have he0 : e ≠ 0 := by
        rintro rfl
        rw [slotAt_zero_of_lt hi, hget] at he
        exact hsempty (by rw [Option.some_inj.mp he]; rfl)
      have hahead : slotAt slots.length ((i + 1) % slots.length) (e - 1) =
          slotAt slots.length i e := by
        rw [next_slot, Nat.sub_add_cancel (Nat.one_le_iff_ne_zero.mpr he0)]
      have hnext : (i + 1) % slots.length < slots.length := Nat.mod_lt _ hcap
      by_cases hprobe : probeDist slots.length s.hash i < probe
      · -- the resident is closer to its ideal slot: it is displaced and carried on
        rw [if_pos hprobe] at hsafe ⊢
        have hlen : (slots.set i cur).length = slots.length := List.length_set
        have hchains' : ChainsOpen (slots.set i cur) := by
          refine hchains.set hi hcur ?_ ?_
          · intro hlive
            rw [hdist hlive]
            exact (hwalk hlive).2
          · intro hlive j t hj ht p hp hpi
            rw [hdist hlive]
            by_cases hslive : s.isLive = true
            · exact le_trans (hchains.crossing_le hget hslive hj ht hp hpi) hprobe.le
            · have htomb : s.index = slotTombstone := by
                simp only [MapSlot.isLive, Bool.and_eq_true, bne_iff_ne, not_and_or,
                  not_not] at hslive
                exact hslive.resolve_left hsempty
              have hjlt := lt_length_of_getElem?_eq_some hj
              exact hsafe.1 htomb hlive j hjlt p (lt_trans hp (probeDist_lt hcap _ _)) t hj ht
                hp hpi
        have hne : i ≠ slotAt slots.length i e := by
          intro hie
          rw [← hie, hget] at he
          exact hsempty (by rw [Option.some_inj.mp he]; rfl)
        obtain ⟨slots', hrun, hins⟩ := ih (slots.set i cur) ((i + 1) % slots.length)
          (probeDist slots.length s.hash i + 1) s (by rw [hlen, hb]) (by rw [hlen]; exact hnext)
          hchains' (hempty.set i hcur) hsempty
          (by
            intro hslive
            rw [hlen]
            refine ⟨by rw [slotAt_succ, slotAt_probeDist hcap hi], ?_⟩
            have hopen := hchains i s hget hslive
            have hopen' : OpenTo (slots.set i cur) s.hash (probeDist slots.length s.hash i) := by
              refine hopen.set hcur ?_
              intro _ p hp hpi
              have hd := probeDist_slotAt hcap (lt_trans hp (probeDist_lt hcap s.hash i)) s.hash
              rw [hpi] at hd
              exact absurd hp hd.not_gt
            have hat : (slots.set i cur)[slotAt (slots.set i cur).length s.hash
                (probeDist slots.length s.hash i)]? = some cur := by
              rw [hlen, slotAt_probeDist hcap hi, List.getElem?_set_self hi]
            refine hopen'.succ hat ⟨hcur, fun hlive => ?_⟩
            rw [hlen, slotAt_probeDist hcap hi, hdist hlive]
            exact hprobe.le)
          ⟨e - 1, by omega, by rw [hlen, hahead, List.getElem?_set_ne hne, he]⟩
          (by rw [hlen]; exact hsafe.2) (by rw [hlen]; exact hcap)
        rw [hlen] at hrun
        refine ⟨slots', hrun, by rw [hins.length, hlen], hins.chains, ?_⟩
        exact hperm.symm.trans hins.perm
      · -- the resident stays, and lets the element in hand pass
        rw [if_neg hprobe] at hsafe ⊢
        refine ih slots ((i + 1) % slots.length) (probe + 1) cur hb hnext hchains hempty hcur ?_
          ⟨e - 1, by omega, by rw [hahead, he]⟩ hsafe hcap
        intro hlive
        obtain ⟨hiw, hopen⟩ := hwalk hlive
        refine ⟨by rw [slotAt_succ, ← hiw], ?_⟩
        have hat : slots[slotAt slots.length cur.hash probe]? = some s := by rw [← hiw, hget]
        refine hopen.succ hat ⟨hsempty, fun _ => ?_⟩
        rw [← hiw]
        exact not_lt.mp hprobe

/-- Inserting into a table with an empty slot, where no tombstone is displaced harmfully. -/
theorem mapSlotInsert_spec {b : ℕ} {slots : List MapSlot} (hb : slots.length = 2 ^ b)
    (hchains : ChainsOpen slots) (hempty : EmptyUniform slots)
    (hroom : MapSlot.empty ∈ slots) {g n : ℕ} (hidx : n ≠ slotEmpty)
    (hsafe : displacesSafely slots.length slots.length slots (g &&& (slots.length - 1)) 0
      ⟨g, n⟩) :
    ∃ slots', mapSlotInsert slots slots.length g n = some slots' ∧
      Inserted slots ⟨g, n⟩ slots' := by
  obtain ⟨j, hj, hje⟩ := List.getElem_of_mem hroom
  have hcap : 0 < slots.length := Nat.zero_lt_of_lt hj
  unfold mapSlotInsert
  rw [and_mask hb] at hsafe ⊢
  refine slotInsertLoop_spec slots.length slots (g % slots.length) 0 ⟨g, n⟩ hb
    (Nat.mod_lt _ hcap) hchains hempty hidx ?_ ?_ hsafe
  · intro _
    exact ⟨(slotAt_zero _ _).symm, fun p hp => absurd hp (Nat.not_lt_zero p)⟩
  · refine ⟨probeDist slots.length (g % slots.length) j, probeDist_lt hcap _ _, ?_⟩
    rw [slotAt_probeDist hcap hj, List.getElem?_eq_getElem hj, hje]

/-- Without tombstones nothing is displaced harmfully. -/
lemma displacesSafely_of_no_tombstone (cap fuel : ℕ) (slots : List MapSlot) (i probe : ℕ)
    (cur : MapSlot) (hslots : ∀ s ∈ slots, s.index ≠ slotTombstone)
    (hcur : cur.index ≠ slotTombstone) : displacesSafely cap fuel slots i probe cur := by
  induction fuel generalizing slots i probe cur with
  | zero => trivial
  | succ fuel ih =>
    simp only [displacesSafely]
    cases hget : slots[i]? with
    | none => trivial
    | some s =>
      have hs : s.index ≠ slotTombstone := hslots s (List.mem_of_getElem? hget)
      simp only
      split_ifs with h1 h2
      · refine ⟨fun htomb => absurd htomb hs, ih _ _ _ _ ?_ hs⟩
        intro t ht
        rcases List.mem_or_eq_of_mem_set ht with hmem | rfl
        · exact hslots t hmem
        · exact hcur
      · exact ih _ _ _ _ hslots hcur

end Torajs.Collections
