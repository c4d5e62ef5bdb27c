import Mathlib.Data.List.Perm.Basic
import Mathlib.Data.Nat.ModEq
import Mathlib.Tactic.Linarith

/-!
# Open addressing on a circular table

A table of `cap` slots is probed linearly from a home position, wrapping around at the
end.  `slotAt cap home p` is the slot of the `p`-th probe and `probeDist cap home i` the
number of probes that lead from the home position to slot `i`; on one turn around the
table the two are inverse to each other.

The second half is about the slots as a list: overwriting one slot exchanges one element
of the table for another, as multisets, and a table with fewer residents than slots has a
free one.
-/

namespace OpenAddressing

/-! ### Probe sequences -/

/-- The slot that the `p`-th probe from `home` visits. -/
def slotAt (cap home p : ℕ) : ℕ := (home + p) % cap

/-- The number of probes from `home` to slot `i`. -/
def probeDist (cap home i : ℕ) : ℕ := (i + cap - home % cap) % cap

section
variable {cap : ℕ} (hcap : 0 < cap)
include hcap

/-- Every probe stays in the table. -/
lemma slotAt_lt (home p : ℕ) : slotAt cap home p < cap := Nat.mod_lt _ hcap

/-- Every slot is reached within one turn around the table. -/
lemma probeDist_lt (home i : ℕ) : probeDist cap home i < cap := Nat.mod_lt _ hcap

/-- Probing as far as the distance of a slot reaches the slot. -/
lemma slotAt_probeDist {i : ℕ} (hi : i < cap) (home : ℕ) :
    slotAt cap home (probeDist cap home i) = i := by
  have hh : home % cap < cap := Nat.mod_lt _ hcap
  unfold slotAt probeDist
  rw [Nat.add_mod, Nat.mod_mod, ← Nat.add_mod, Nat.add_mod]
  rcases le_or_gt (home % cap) i with hle | hgt
  · have hsub : i + cap - home % cap = i - home % cap + cap := by omega
    rw [hsub, Nat.add_mod_right, Nat.mod_eq_of_lt (show i - home % cap < cap by omega)]
    rw [Nat.add_sub_cancel' hle, Nat.mod_eq_of_lt hi]
  · have hlt : i + cap - home % cap < cap := by omega
    rw [Nat.mod_eq_of_lt hlt]
    have hsum : home % cap + (i + cap - home % cap) = i + cap := by omega
    rw [hsum, Nat.add_mod_right, Nat.mod_eq_of_lt hi]

/-- The distance of the slot of the `p`-th probe is `p`, on the first turn. -/
lemma probeDist_slotAt {p : ℕ} (hp : p < cap) (home : ℕ) :
    probeDist cap home (slotAt cap home p) = p := by
  have hh : home % cap < cap := Nat.mod_lt _ hcap
  unfold slotAt probeDist
  rw [Nat.add_mod, Nat.mod_eq_of_lt hp]
  rcases Nat.lt_or_ge (home % cap + p) cap with hlt | hge
  · rw [Nat.mod_eq_of_lt hlt]
    have hsub : home % cap + p + cap - home % cap = p + cap := by omega
    rw [hsub, Nat.add_mod_right, Nat.mod_eq_of_lt hp]
  · rw [Nat.mod_eq_sub_mod hge,
      Nat.mod_eq_of_lt (show home % cap + p - cap < cap by omega)]
    have hsub : home % cap + p - cap + cap - home % cap = p := by omega
    rw [hsub, Nat.mod_eq_of_lt hp]

/-- The first turn visits no slot twice. -/
lemma slotAt_inj {p q : ℕ} (hp : p < cap) (hq : q < cap) {home : ℕ}
    (h : slotAt cap home p = slotAt cap home q) : p = q := by
  rw [← probeDist_slotAt hcap hp home, h, probeDist_slotAt hcap hq home]

end

/-- The home position counts modulo the size of the table only. -/
lemma slotAt_mod (home p : ℕ) : slotAt cap (home % cap) p = slotAt cap home p := by
  simp [slotAt]

/-- Distances add up along a probe sequence: a chain that starts at `home` and passes slot
`i` reaches a slot at distance `d` from `i` after that many further probes. -/
lemma slotAt_slotAt (home p q : ℕ) :
    slotAt cap (slotAt cap home p) q = slotAt cap home (p + q) := by
  simp [slotAt, Nat.add_assoc]

/-- The next probe visits the next slot. -/
lemma slotAt_succ (cap home p : ℕ) : slotAt cap home (p + 1) = (slotAt cap home p + 1) % cap := by
  simp [slotAt, Nat.add_assoc]

/-- The first probe visits the home position. -/
lemma slotAt_zero (cap home : ℕ) : slotAt cap home 0 = home % cap := rfl

/-- Probing from a slot of the table by no step stays there. -/
lemma slotAt_zero_of_lt {cap i : ℕ} (hi : i < cap) : slotAt cap i 0 = i := Nat.mod_eq_of_lt hi

/-! ### The slots as a list -/

section Slots
variable {α : Type*}

/-- Overwriting a slot exchanges its element for the new one. -/
lemma cons_set_perm {l : List α} {i : ℕ} (hi : i < l.length) (a : α) :
    (l[i] :: l.set i a).Perm (a :: l) := by
  have hset : (l.set i a).Perm (a :: l.eraseIdx i) := List.set_perm_cons_eraseIdx hi a
  have hget : (l[i] :: l.eraseIdx i).Perm l := List.getElem_cons_eraseIdx_perm hi
  calc (l[i] :: l.set i a).Perm (l[i] :: a :: l.eraseIdx i) := hset.cons _
    _ |>.Perm (a :: l[i] :: l.eraseIdx i) := List.Perm.swap _ _ _
    _ |>.Perm (a :: l) := hget.cons _

/-- A table where fewer than all slots are occupied has a free slot. -/
lemma exists_free_of_countP_lt {l : List α} {occupied : α → Bool}
    (h : l.countP occupied < l.length) : ∃ i, ∃ hi : i < l.length, occupied l[i] = false := by
  by_contra hne
  have hall : ∀ a ∈ l, occupied a = true := by
    intro a ha
    obtain ⟨i, hi, rfl⟩ := List.getElem_of_mem ha
    by_contra hfree
    exact hne ⟨i, hi, by simpa using hfree⟩
  have hcount : l.countP occupied = l.length := List.countP_eq_length.mpr hall
  omega

end Slots

end OpenAddressing
