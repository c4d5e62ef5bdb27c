import Mathlib.Data.List.Basic
import Mathlib.Data.Nat.ModEq
import Mathlib.Algebra.Order.Group.Nat
import Mathlib.Tactic.Ring

/-!
# The ring of the microtask queue

The block of slots of `torajs-microtask`, its two free-running counts and its capacity, and the
three steps on them: pushing a task, with the doubling of a full ring, popping one, and restarting
the counts.  A ring holds a list of tasks when the counts from the head to the tail, under the mask
of the capacity, are the slots of the list; each step does to the list what it should.
-/

namespace Torajs.MicrotaskQueue

/-- `Microtask`: a function and its argument. -/
structure Microtask (F : Type) where
  fn : F
  arg : BitVec 64
deriving DecidableEq

/-- What a step comes to: a result, the end of the program because a block is not to be had, or a
slot read or written that is not there. -/
inductive Outcome (α : Type) where
  | ok (a : α)
  | outOfMemory
  | undefined

/-! ### Words -/

/-- The number of values of a `usize`. -/
def wordBound : ℕ := 2 ^ 64

/-- A sum of words. -/
def addWord (a b : ℕ) : ℕ := (a + b) % wordBound

/-- A difference of words. -/
def subWord (a b : ℕ) : ℕ := (a + wordBound - b) % wordBound

/-- The size of a task in bytes. -/
def elem : ℕ := 16

/-- A block of that many bytes can be had. -/
def allocates (bytes : ℕ) : Bool := bytes < 2 ^ 63

/-! ### The ring -/

/-- The ring: its slots, of which some have never been written, and `MT_HEAD`, `MT_TAIL` and
`MT_CAP`. -/
structure Ring (F : Type) where
  queue : List (Option (Microtask F))
  head : ℕ
  tail : ℕ
  cap : ℕ

variable {F : Type}

/-- The ring before the first push. -/
def Ring.initial : Ring F := ⟨[], 0, 0, 0⟩

/-- The slot of a count. -/
def Ring.slot (r : Ring F) (count : ℕ) : ℕ := count &&& subWord r.cap 1

/-- `copy_nonoverlapping(buf, buf.add(off), n)`. -/
def copyUp (buf : List (Option (Microtask F))) (off n : ℕ) : List (Option (Microtask F)) :=
  buf.take off ++ (buf.take n ++ buf.drop (off + n))

/-- `grow_and_push`. -/
def Ring.growAndPush (r : Ring F) (t : Microtask F) : Outcome (Ring F) :=
  let newCap := if r.cap = 0 then 32 else r.cap * 2
  if allocates (newCap * elem) = false then .outOfMemory
  else
    let buf := r.queue ++ List.replicate (newCap - r.queue.length) none
    let head := r.slot r.head
    let tail := addWord head r.cap
    if r.cap < head ∨ newCap < r.cap + head ∨ newCap ≤ tail then .undefined
    else
      .ok { queue := (copyUp buf r.cap head).set tail (some t)
            head := head
            tail := addWord tail 1
            cap := newCap }

/-- `__torajs_microtask_enqueue`. -/
def Ring.enqueue (r : Ring F) (fn : Option F) (arg : BitVec 64) : Outcome (Ring F) :=
  match fn with
  | none => .ok r
  | some fn =>
    if subWord r.tail r.head = r.cap then r.growAndPush ⟨fn, arg⟩
    else if r.slot r.tail < r.queue.length then
      .ok { r with
        queue := r.queue.set (r.slot r.tail) (some ⟨fn, arg⟩)
        tail := addWord r.tail 1 }
    else .undefined

/-- One pop of `drain`: the task in the slot of the head. -/
def Ring.pop (r : Ring F) : Outcome (Microtask F × Ring F) :=
  match r.queue[r.slot r.head]? with
  | some (some t) => .ok (t, { r with head := addWord r.head 1 })
  | _ => .undefined

/-- The restart of the counts behind a drain. -/
def Ring.restart (r : Ring F) : Ring F := { r with head := 0, tail := 0 }

/-- `__torajs_microtask_pending_count`. -/
def Ring.pendingCount (r : Ring F) : ℕ := subWord r.tail r.head

/-- The slots of the counts from the head to the tail. -/
def Ring.pending (r : Ring F) : List (Option (Microtask F)) :=
  (List.range r.pendingCount).map fun i => (r.queue[r.slot (addWord r.head i)]?).join

/-! ### What a ring holds -/

/-- A ring holds a list of tasks: the capacity is nothing or a power of two from 32 that fits in
memory, the tail is as far from the head as the list is long, and the slots from the head on, around
the ring, are the list. -/
structure Holds (r : Ring F) (l : List (Microtask F)) : Prop where
  block : r.queue.length = r.cap
  cap : r.cap = 0 ∨ ∃ k, 5 ≤ k ∧ k < 60 ∧ r.cap = 2 ^ k
  start : r.cap = 0 → r.head = 0
  head : r.head < wordBound
  room : l.length ≤ r.cap
  tail : r.tail = addWord r.head l.length
  slots : ∀ (i : ℕ) (t : Microtask F), l[i]? = some t →
    r.queue[(r.head + i) % r.cap]? = some (some t)

section Words

lemma addWord_lt (a b : ℕ) : addWord a b < wordBound := Nat.mod_lt _ (by decide)

lemma addWord_of_lt {a b : ℕ} (h : a + b < wordBound) : addWord a b = a + b := Nat.mod_eq_of_lt h

lemma addWord_assoc (a b c : ℕ) : addWord (addWord a b) c = addWord a (b + c) := by
  rw [addWord, addWord, addWord, Nat.mod_add_mod, Nat.add_assoc]

/-- The distance from a word to one further on. -/
lemma subWord_addWord {a n : ℕ} (ha : a < wordBound) (hn : n < wordBound) :
    subWord (addWord a n) a = n := by
  unfold subWord addWord
  unfold wordBound at *
  omega

end Words

section Slots

variable {r : Ring F} {l : List (Microtask F)} {t : Microtask F}

lemma Holds.cap_lt (h : Holds r l) : r.cap < 2 ^ 60 := by
  rcases h.cap with hzero | ⟨k, -, hk, hcap⟩
  · rw [hzero]
    exact Nat.two_pow_pos 60
  · rw [hcap]
    exact Nat.pow_lt_pow_right (by omega) hk

/-- The mask of a capacity is the remainder by it. -/
lemma Holds.slot_eq (h : Holds r l) (hpos : r.cap ≠ 0) (count : ℕ) :
    r.slot count = count % r.cap := by
  have hlt := h.cap_lt
  have hmask : subWord r.cap 1 = r.cap - 1 := by
    unfold subWord wordBound
    omega
  rcases h.cap with hzero | ⟨k, -, -, hcap⟩
  · exact absurd hzero hpos
  · rw [Ring.slot, hmask, hcap, Nat.and_two_pow_sub_one_eq_mod]

/-- Counting past the word does not change the slot. -/
lemma Holds.wrap_mod (h : Holds r l) (hpos : r.cap ≠ 0) (a b : ℕ) :
    addWord a b % r.cap = (a + b) % r.cap := by
  rcases h.cap with hzero | ⟨k, -, hk, hcap⟩
  · exact absurd hzero hpos
  · have hdvd : r.cap ∣ wordBound := by
      rw [hcap]
      exact Nat.pow_dvd_pow 2 (by omega)
    exact Nat.mod_mod_of_dvd _ hdvd

/-- The counts are as far apart as the list is long. -/
lemma Holds.pendingCount_eq (h : Holds r l) : r.pendingCount = l.length := by
  have hlt := h.cap_lt
  have hroom := h.room
  rw [Ring.pendingCount, h.tail]
  exact subWord_addWord h.head (by unfold wordBound; omega)

/-- The two counts are equal exactly when nothing is held. -/
lemma Holds.head_eq_tail_iff (h : Holds r l) : r.head = r.tail ↔ l = [] := by
  have hcount := h.pendingCount_eq
  have htail := h.tail
  constructor
  · intro heq
    rw [Ring.pendingCount, ← heq] at hcount
    have hzero : subWord r.head r.head = 0 := by
      unfold subWord
      rw [Nat.add_sub_cancel_left, Nat.mod_self]
    exact List.length_eq_zero_iff.mp (hcount.symm.trans hzero)
  · rintro rfl
    rw [htail]
    exact (Nat.mod_eq_of_lt h.head).symm

/-- A ring with a task has slots. -/
lemma Holds.cap_ne_zero (h : Holds r l) (hl : l ≠ []) : r.cap ≠ 0 := by
  have hroom := h.room
  have hpos := List.length_pos_iff.mpr hl
  omega

/-- **The pending tasks** are the slots of the counts from the head to the tail. -/
lemma Holds.pending_eq (h : Holds r l) : r.pending = l.map some := by
  rw [Ring.pending, h.pendingCount_eq]
  refine List.ext_getElem? fun i => ?_
  rw [List.getElem?_map, List.getElem?_map]
  cases hget : l[i]? with
  | none =>
    have hlen : (List.range l.length).length ≤ i := by
      rw [List.length_range]
      exact List.getElem?_eq_none_iff.mp hget
    rw [List.getElem?_eq_none_iff.mpr hlen]
    rfl
  | some t =>
    have hpos : r.cap ≠ 0 := h.cap_ne_zero fun hnil => by rw [hnil] at hget; cases hget
    rw [List.getElem?_range (List.getElem?_eq_some_iff.mp hget).1, Option.map_some, Option.map_some,
      h.slot_eq hpos, h.wrap_mod hpos, h.slots i t hget]
    rfl

lemma holds_initial : Holds (Ring.initial : Ring F) [] where
  block := rfl
  cap := Or.inl rfl
  start := fun _ => rfl
  head := Nat.two_pow_pos 64
  room := le_rfl
  tail := rfl
  slots := fun i t hget => by cases hget

/-! ### The steps -/

/-- **A pop** takes the first task off. -/
lemma Holds.pop (h : Holds r (t :: l)) : ∃ r', r.pop = .ok (t, r') ∧ Holds r' l := by
  have hpos := h.cap_ne_zero (List.cons_ne_nil t l)
  have hfirst := h.slots 0 t rfl
  rw [Nat.add_zero] at hfirst
  have hroom := h.room
  rw [List.length_cons] at hroom
  refine ⟨{ r with head := addWord r.head 1 }, ?_, h.block, h.cap, fun hzero => absurd hzero hpos,
    addWord_lt _ _, Nat.le_of_succ_le hroom, ?_, fun i u hget => ?_⟩
  · rw [Ring.pop, h.slot_eq hpos, hfirst]
  · rw [h.tail, List.length_cons, Nat.add_comm, addWord_assoc]
  · have hslot := h.slots (i + 1) u hget
    have hnext : (addWord r.head 1 + i) % r.cap = (r.head + (i + 1)) % r.cap := by
      rw [Nat.add_mod, h.wrap_mod hpos, ← Nat.add_mod, Nat.add_assoc, Nat.add_comm 1 i]
    rw [← hnext] at hslot
    exact hslot

/-- **A restart** of the counts leaves an empty ring empty. -/
lemma Holds.restart (h : Holds r []) : Holds r.restart [] where
  block := h.block
  cap := h.cap
  start := fun _ => rfl
  head := Nat.two_pow_pos 64
  room := h.room
  tail := rfl
  slots := fun i t hget => by cases hget

/-- Two counts less than a turn apart have slots of their own. -/
lemma slot_ne {cap head i n : ℕ} (hi : i < n) (hn : n < cap) :
    (head + i) % cap ≠ (head + n) % cap := by
  intro heq
  have hmod : i % cap = n % cap := Nat.ModEq.add_left_cancel' head heq
  rw [Nat.mod_eq_of_lt (hi.trans hn), Nat.mod_eq_of_lt hn] at hmod
  omega

/-- A slot of the list with one task more. -/
lemma getElem?_concat {i : ℕ} {u : Microtask F} (hget : (l ++ [t])[i]? = some u) :
    (i < l.length ∧ l[i]? = some u) ∨ (i = l.length ∧ u = t) := by
  rcases Nat.lt_trichotomy i l.length with hlt | rfl | hlt
  · rw [List.getElem?_append_left hlt] at hget
    exact Or.inl ⟨hlt, hget⟩
  · rw [List.getElem?_concat_length] at hget
    exact Or.inr ⟨rfl, (Option.some.inj hget).symm⟩
  · rw [List.getElem?_eq_none_iff.mpr (by rw [List.length_append, List.length_singleton]; omega)]
      at hget
    cases hget

/-- A push into a ring with room. -/
lemma Holds.push (h : Holds r l) (hroom : l.length < r.cap) :
    r.slot r.tail < r.queue.length ∧
      Holds { r with
        queue := r.queue.set (r.slot r.tail) (some t)
        tail := addWord r.tail 1 } (l ++ [t]) := by
  have hpos : r.cap ≠ 0 := by omega
  have hslot : r.slot r.tail = (r.head + l.length) % r.cap := by
    rw [h.slot_eq hpos, h.tail, h.wrap_mod hpos]
  have hinside : r.slot r.tail < r.queue.length := by
    rw [hslot, h.block]
    exact Nat.mod_lt _ (by omega)
  refine ⟨hinside, ?_, h.cap, h.start, h.head, ?_, ?_, fun i u hget => ?_⟩
  · exact (List.length_set).trans h.block
  · rw [List.length_append, List.length_singleton]
    exact hroom
  · rw [h.tail, List.length_append, List.length_singleton, addWord_assoc]
  · change (r.queue.set (r.slot r.tail) (some t))[(r.head + i) % r.cap]? = some (some u)
    rcases getElem?_concat hget with ⟨hlt, hold⟩ | ⟨rfl, rfl⟩
    · rw [List.getElem?_set_ne (hslot ▸ (slot_ne hlt hroom).symm)]
      exact h.slots i u hold
    · rw [hslot, List.getElem?_set_self (hslot ▸ hinside)]

section Copy

variable {buf : List (Option (Microtask F))} {off n j : ℕ}

lemma length_copyUp (hlen : off + n ≤ buf.length) :
    (copyUp buf off n).length = buf.length := by
  rw [copyUp, List.length_append, List.length_append, List.length_take, List.length_take,
    List.length_drop]
  omega

/-- What stands below the copy stays. -/
lemma copyUp_below (hj : j < off) (hlen : off ≤ buf.length) :
    (copyUp buf off n)[j]? = buf[j]? := by
  rw [copyUp, List.getElem?_append_left (by rw [List.length_take]; omega),
    List.getElem?_take_of_lt hj]

/-- The copy is of the front. -/
lemma copyUp_copied (hj : j < n) (hn : n ≤ off) (hlen : off ≤ buf.length) :
    (copyUp buf off n)[off + j]? = buf[j]? := by
  have htake : (buf.take off).length = off := by
    rw [List.length_take]
    omega
  have hfront : j < (buf.take n).length := by
    rw [List.length_take]
    omega
  rw [copyUp, List.getElem?_append_right (by omega), htake, Nat.add_sub_cancel_left,
    List.getElem?_append_left hfront, List.getElem?_take_of_lt hj]

end Copy

/-- **A push into a full ring** doubles it: the tasks that had come around to the front move up
behind the others.  Only a ring of `2 ^ 58` slots cannot be doubled. -/
lemma Holds.grow (h : Holds r l) (hfull : l.length = r.cap) :
    (r.growAndPush t = .outOfMemory ∧ 2 ^ 58 ≤ l.length) ∨
      ∃ r', r.growAndPush t = .ok r' ∧ Holds r' (l ++ [t]) := by
  obtain ⟨newCap, hnew⟩ : ∃ c, (if r.cap = 0 then 32 else r.cap * 2) = c := ⟨_, rfl⟩
  by_cases hmemory : allocates (newCap * elem) = false
  · refine Or.inl ⟨by simp only [Ring.growAndPush, hnew, if_pos hmemory], ?_⟩
    have hbytes : ¬ newCap * 16 < 2 ^ 63 := of_decide_eq_false hmemory
    split_ifs at hnew <;> omega
  right
  have hbytes : newCap * 16 < 2 ^ 63 := by
    rw [Bool.not_eq_false] at hmemory
    exact of_decide_eq_true hmemory
  -- the head moves to its slot, and the tasks from there on fill the old block
  obtain ⟨head, hhead⟩ : ∃ x, r.slot r.head = x := ⟨_, rfl⟩
  have hgrown : head ≤ r.cap ∧ r.cap + head < newCap ∧
      (∀ (i : ℕ) (u : Microtask F), l[i]? = some u → i < r.cap ∧ head < r.cap ∧
        r.queue[(head + i) % r.cap]? = some (some u)) ∧
      (newCap = 0 ∨ ∃ k, 5 ≤ k ∧ k < 60 ∧ newCap = 2 ^ k) := by
    by_cases hzero : r.cap = 0
    · rw [if_pos hzero] at hnew
      have hstart : head = 0 := by
        rw [← hhead, Ring.slot, h.start hzero, Nat.zero_and]
      rw [hzero] at hfull
      refine ⟨by omega, by omega, fun i u hget => ?_, Or.inr ⟨5, le_rfl, by omega, hnew.symm⟩⟩
      rw [List.length_eq_zero_iff.mp hfull] at hget
      cases hget
    · rw [if_neg hzero] at hnew
      have hslot : head = r.head % r.cap := by rw [← hhead, h.slot_eq hzero]
      have hlt : head < r.cap := hslot ▸ Nat.mod_lt _ (by omega)
      refine ⟨hlt.le, by omega, fun i u hget => ⟨?_, hlt, ?_⟩, ?_⟩
      · rw [← hfull]
        exact (List.getElem?_eq_some_iff.mp hget).1
      · rw [hslot, Nat.mod_add_mod]
        exact h.slots i u hget
      · rcases h.cap with hcap | ⟨k, hk, -, hcap⟩
        · exact absurd hcap hzero
        · refine Or.inr ⟨k + 1, by omega, ?_, by rw [← hnew, hcap, Nat.pow_succ]⟩
          have hpow : 2 ^ (k + 1) < 2 ^ 60 := by
            rw [Nat.pow_succ, ← hcap]
            omega
          exact (Nat.pow_lt_pow_iff_right (by omega)).mp hpow
  obtain ⟨hle, hroom, hslots, hcap⟩ := hgrown
  have htail : addWord head r.cap = head + r.cap :=
    addWord_of_lt (by unfold wordBound; omega)
  have hnext : addWord (head + r.cap) 1 = head + r.cap + 1 :=
    addWord_of_lt (by unfold wordBound; omega)
  obtain ⟨buf, hbuf⟩ : ∃ b, r.queue ++ List.replicate (newCap - r.queue.length) none = b := ⟨_, rfl⟩
  have hlength : buf.length = newCap := by
    rw [← hbuf, List.length_append, List.length_replicate, h.block]
    omega
  have hold {j : ℕ} (hj : j < r.cap) : buf[j]? = r.queue[j]? := by
    rw [← hbuf, List.getElem?_append_left (by rw [h.block]; exact hj)]
  refine ⟨{ queue := (copyUp buf r.cap head).set (head + r.cap) (some t)
            head := head
            tail := head + r.cap + 1
            cap := newCap }, ?_, ?_, hcap, fun hz => ?_, ?_, ?_, ?_, fun i u hget => ?_⟩
  · simp only [Ring.growAndPush, hnew, if_neg hmemory, hhead, htail, hnext, hbuf]
    rw [if_neg (by omega)]
  · exact (List.length_set).trans ((length_copyUp (by omega)).trans hlength)
  · change newCap = 0 at hz
    omega
  · change head < wordBound
    unfold wordBound
    omega
  · change (l ++ [t]).length ≤ newCap
    rw [List.length_append, List.length_singleton, hfull]
    omega
  · change head + r.cap + 1 = addWord head (l ++ [t]).length
    rw [List.length_append, List.length_singleton, hfull]
    exact (addWord_of_lt (by unfold wordBound; omega)).symm
  · change ((copyUp buf r.cap head).set (head + r.cap) (some t))[(head + i) % newCap]? =
      some (some u)
    have hcopied : (copyUp buf r.cap head).length = newCap :=
      (length_copyUp (by omega)).trans hlength
    rcases getElem?_concat hget with ⟨-, hget⟩ | ⟨rfl, rfl⟩
    · obtain ⟨hi, hlt, hslot⟩ := hslots i u hget
      rw [Nat.mod_eq_of_lt (by omega), List.getElem?_set_ne (by omega)]
      by_cases hbelow : head + i < r.cap
      · rw [copyUp_below hbelow (by omega), hold hbelow, ← hslot, Nat.mod_eq_of_lt hbelow]
      · -- the task had come around to the front
        have haround : (head + i) % r.cap = head + i - r.cap := by
          rw [Nat.mod_eq_sub_mod (by omega), Nat.mod_eq_of_lt (by omega)]
        have hsum : r.cap + (head + i - r.cap) = head + i := by omega
        rw [haround] at hslot
        rw [← hsum, copyUp_copied (by omega) hle (by omega), hold (by omega)]
        exact hslot
    · rw [hfull, Nat.mod_eq_of_lt (by omega),
        List.getElem?_set_self (by omega)]

/-- **An enqueue** adds a task at the end, or the program ends for want of memory; without a
function it does nothing. -/
lemma Holds.enqueue (h : Holds r l) (fn : Option F) (arg : BitVec 64) :
    (r.enqueue fn arg = .outOfMemory ∧ 2 ^ 58 ≤ l.length) ∨
      ∃ r', r.enqueue fn arg = .ok r' ∧ Holds r' (l ++ (fn.map fun f => ⟨f, arg⟩).toList) := by
  cases fn with
  | none => exact Or.inr ⟨r, rfl, by rw [Option.map_none, Option.toList_none, List.append_nil]; exact h⟩
  | some f =>
    have hcount : subWord r.tail r.head = l.length := h.pendingCount_eq
    by_cases hfull : l.length = r.cap
    · have hgrow : r.enqueue (some f) arg = r.growAndPush ⟨f, arg⟩ := by
        rw [Ring.enqueue]
        exact if_pos (hcount.trans hfull)
      rw [hgrow]
      exact h.grow hfull
    · have hroom := h.room
      obtain ⟨hinside, hpush⟩ := h.push (t := ⟨f, arg⟩) (by omega)
      refine Or.inr ⟨_, ?_, hpush⟩
      rw [Ring.enqueue, if_neg (by rw [hcount]; exact hfull), if_pos hinside]

end Slots

end Torajs.MicrotaskQueue
