import Mathlib.Data.List.ReduceOption
import Mathlib.Data.List.DropRight

/-!
# Lists with holes

A list whose entries may be empty: emptying the last slot that holds a value, dropping the empty
slots at the end, and the values that are left.
-/

namespace HoledList

variable {α : Type*}

/-- The values in the slots, in order. -/
def entries (l : List (Option α)) : List α := l.reduceOption

@[simp] lemma entries_nil : entries ([] : List (Option α)) = [] := rfl

@[simp] lemma entries_cons_none (l : List (Option α)) : entries (none :: l) = entries l :=
  List.reduceOption_cons_of_none l

@[simp] lemma entries_cons_some (a : α) (l : List (Option α)) :
    entries (some a :: l) = a :: entries l :=
  List.reduceOption_cons_of_some a l

@[simp] lemma entries_append (l l' : List (Option α)) :
    entries (l ++ l') = entries l ++ entries l' :=
  List.reduceOption_append l l'

/-- The list without the empty slots at its end. -/
def trimTail (l : List (Option α)) : List (Option α) := l.rdropWhile fun x => x.isNone

scoped instance lawfulBEq_slot [DecidableEq α] : LawfulBEq (Option α) := inferInstance

/-- The last slot that holds the value is emptied. -/
def clearLast [DecidableEq α] (a : α) : List (Option α) → List (Option α)
  | [] => []
  | x :: l =>
    if some a ∈ l then x :: clearLast a l
    else if x = some a then none :: l
    else x :: l

lemma mem_entries {a : α} {l : List (Option α)} : a ∈ entries l ↔ some a ∈ l :=
  List.reduceOption_mem_iff

/-- Empty slots hold no values. -/
lemma entries_filter_isSome (l : List (Option α)) :
    entries (l.filter Option.isSome) = entries l := by
  induction l with
  | nil => rfl
  | cons x l ih =>
    cases x with
    | none => simpa using ih
    | some a => simpa using ih

/-- The slots that are trimmed hold no values. -/
lemma entries_trimTail (l : List (Option α)) : entries (trimTail l) = entries l := by
  induction l using List.reverseRecOn with
  | nil => rfl
  | append_singleton l x ih =>
    cases x with
    | none =>
      rw [trimTail, List.rdropWhile_concat_pos _ _ _ (by simp), entries_append, entries_cons_none,
        entries_nil, List.append_nil]
      exact ih
    | some a => rw [trimTail, List.rdropWhile_concat_neg _ _ _ (by simp)]

/-- Emptying a slot keeps the length. -/
lemma entries_set_none {l : List (Option α)} {i : ℕ} {a : α} (hi : l[i]? = some (some a))
    (hnd : (entries l).Nodup) :
    (entries (l.set i none)).Nodup ∧
      ∀ b, b ∈ entries (l.set i none) ↔ b ∈ entries l ∧ b ≠ a := by
  induction l generalizing i with
  | nil => simp at hi
  | cons x l ih =>
    cases i with
    | zero =>
      obtain rfl : x = some a := by simpa using hi
      rw [entries_cons_some, List.nodup_cons] at hnd
      rw [List.set_cons_zero, entries_cons_none, entries_cons_some]
      refine ⟨hnd.2, fun b => ⟨fun hb => ⟨List.mem_cons_of_mem _ hb, ?_⟩, fun hb => ?_⟩⟩
      · rintro rfl
        exact hnd.1 hb
      · exact (List.mem_cons.mp hb.1).resolve_left hb.2
    | succ i =>
      have hi : l[i]? = some (some a) := by simpa using hi
      have hmem : a ∈ entries l := mem_entries.mpr (List.mem_of_getElem? hi)
      rw [List.set_cons_succ]
      cases x with
      | none =>
        simp only [entries_cons_none] at hnd ⊢
        exact ih hi hnd
      | some c =>
        simp only [entries_cons_some, List.nodup_cons, List.mem_cons] at hnd ⊢
        obtain ⟨hnodup, hiff⟩ := ih hi hnd.2
        refine ⟨⟨fun hc => hnd.1 ((hiff c).mp hc).1, hnodup⟩, fun b => ?_⟩
        rw [hiff b]
        constructor
        · rintro (rfl | hb)
          · exact ⟨Or.inl rfl, fun hba => hnd.1 (hba ▸ hmem)⟩
          · exact ⟨Or.inr hb.1, hb.2⟩
        · rintro ⟨rfl | hb, hne⟩
          · exact Or.inl rfl
          · exact Or.inr ⟨hb, hne⟩

/-- The values of a list stand at the same places in another. -/
def Within (l l' : List (Option α)) : Prop :=
  ∀ (i : ℕ) (a : α), l[i]? = some (some a) → l'[i]? = some (some a)

/-- The values behind a place are among those of the other list behind it. -/
lemma Within.entries_drop {l l' : List (Option α)} (h : Within l l') {n : ℕ} {a : α}
    (ha : a ∈ entries (l.drop n)) : a ∈ entries (l'.drop n) := by
  obtain ⟨i, hi⟩ := List.mem_iff_getElem?.mp (mem_entries.mp ha)
  rw [List.getElem?_drop] at hi
  refine mem_entries.mpr (List.mem_iff_getElem?.mpr ⟨i, ?_⟩)
  rw [List.getElem?_drop]
  exact h _ a hi

/-- Trimming keeps every value at its place. -/
lemma within_trimTail (l : List (Option α)) : Within (trimTail l) l := by
  intro i a hi
  obtain ⟨t, ht⟩ := List.rdropWhile_prefix (fun x : Option α => x.isNone) (l := l)
  obtain ⟨hlt, -⟩ := List.getElem?_eq_some_iff.mp hi
  rw [← ht]
  exact (List.getElem?_append_left hlt).trans hi

variable [DecidableEq α]

/-- Emptying a slot keeps the other values at their places. -/
lemma within_clearLast (a : α) (l : List (Option α)) : Within (clearLast a l) l := by
  induction l with
  | nil => exact fun i b hi => hi
  | cons x l ih =>
    intro i b hi
    rw [clearLast] at hi
    split_ifs at hi
    · cases i with
      | zero => exact hi
      | succ i => exact ih i b hi
    · cases i with
      | zero => simp at hi
      | succ i => exact hi
    · exact hi

@[simp] lemma length_clearLast (a : α) (l : List (Option α)) :
    (clearLast a l).length = l.length := by
  induction l with
  | nil => rfl
  | cons x l ih =>
    rw [clearLast]
    split_ifs
    · rw [List.length_cons, List.length_cons, ih]
    · rfl
    · rfl

/-- The value that is held behind a place is cleared behind it. -/
lemma drop_clearLast {a : α} {l : List (Option α)} {n : ℕ} (h : some a ∈ l.drop n) :
    (clearLast a l).drop n = clearLast a (l.drop n) := by
  induction n generalizing l with
  | zero => rfl
  | succ n ih =>
    cases l with
    | nil => simp at h
    | cons x l =>
      rw [List.drop_succ_cons] at h ⊢
      rw [clearLast, if_pos (List.mem_of_mem_drop h), List.drop_succ_cons]
      exact ih h

/-- A value that is held once is no longer held, and the others stay. -/
lemma entries_clearLast {a : α} {l : List (Option α)} (hmem : a ∈ entries l)
    (hnd : (entries l).Nodup) :
    (entries (clearLast a l)).Nodup ∧
      ∀ b, b ∈ entries (clearLast a l) ↔ b ∈ entries l ∧ b ≠ a := by
  have hset : ∃ i, l[i]? = some (some a) ∧ clearLast a l = l.set i none := by
    clear hnd
    induction l with
    | nil => simp at hmem
    | cons x l ih =>
      rw [clearLast]
      by_cases htail : some a ∈ l
      · rw [if_pos htail]
        obtain ⟨i, hi, heq⟩ := ih (mem_entries.mpr htail)
        exact ⟨i + 1, by simpa using hi, by rw [heq, List.set_cons_succ]⟩
      · have hx : x = some a :=
          ((List.mem_cons.mp (mem_entries.mp hmem)).resolve_right htail).symm
        rw [if_neg htail, if_pos hx]
        exact ⟨0, by simp [hx], rfl⟩
  obtain ⟨i, hi, heq⟩ := hset
  rw [heq]
  exact entries_set_none hi hnd

end HoledList
