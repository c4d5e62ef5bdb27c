import ToraJs.Microtask.Ring

/-!
# Draining the microtask queue

`__torajs_microtask_run_until_idle` and `drain`, run by a program whose jobs may queue further jobs
and drain the queue themselves.  What a job does next is not known: it is an event, and so is its
end.  A drain that finds a task runs it before it looks again; a drain inside a job runs what the
outer one would have run, and restarts the counts under it.

`clear_kept_objects` releases objects, which runs no user code: it neither queues nor pops, so it is
no step here.
-/

namespace Torajs.MicrotaskQueue

variable {F : Type}

/-- The program: the ring, the jobs that are running, the innermost first, each under a drain of its
own, and what has been queued and started so far. -/
structure Machine (F : Type) where
  ring : Ring F
  running : List (Microtask F)
  queued : List (Microtask F)
  started : List (Microtask F)

/-- What the running job, or the main program, does next. -/
inductive Event (F : Type) where
  /-- `__torajs_microtask_enqueue` is called. -/
  | enqueue (fn : Option F) (arg : BitVec 64)
  /-- `__torajs_microtask_run_until_idle` is called. -/
  | runUntilIdle
  /-- The innermost job returns to its drain. -/
  | jobReturns

/-- The program at its start. -/
def Machine.initial : Machine F := ⟨Ring.initial, [], [], []⟩

/-- A drain takes the task at the head and runs it. -/
def Machine.next (m : Machine F) : Outcome (Machine F) :=
  match m.ring.pop with
  | .ok (t, ring) => .ok { m with
      ring := ring
      running := t :: m.running
      started := m.started ++ [t] }
  | .outOfMemory => .outOfMemory
  | .undefined => .undefined

/-- One step of the program.  A job that returns though none runs is no step of it. -/
def Machine.step (m : Machine F) : Event F → Outcome (Machine F)
  | .enqueue fn arg =>
    match m.ring.enqueue fn arg with
    | .ok ring => .ok { m with
        ring := ring
        queued := m.queued ++ (fn.map fun f => (⟨f, arg⟩ : Microtask F)).toList }
    | .outOfMemory => .outOfMemory
    | .undefined => .undefined
  | .runUntilIdle => if m.ring.head = m.ring.tail then .ok m else m.next
  | .jobReturns =>
    match m.running with
    | [] => .ok m
    | _ :: outer =>
      if m.ring.head = m.ring.tail then .ok { m with ring := m.ring.restart, running := outer }
      else { m with running := outer }.next

/-- A run of the program. -/
def Machine.run (m : Machine F) : List (Event F) → Outcome (Machine F)
  | [] => .ok m
  | e :: events =>
    match m.step e with
    | .ok m' => m'.run events
    | .outOfMemory => .outOfMemory
    | .undefined => .undefined

/-- The queue is right: what was queued is what was started and then what the ring holds. -/
def Queued (m : Machine F) : Prop :=
  ∃ l, Holds m.ring l ∧ m.queued = m.started ++ l

section Steps

variable {m : Machine F}

/-- A drain that finds a task starts the one that was queued first. -/
lemma next_spec (h : Queued m) (hne : m.ring.head ≠ m.ring.tail) :
    ∃ m', m.next = .ok m' ∧ Queued m' := by
  obtain ⟨l, hholds, hqueued⟩ := h
  cases l with
  | nil => exact absurd (hholds.head_eq_tail_iff.mpr rfl) hne
  | cons t l =>
    obtain ⟨ring, hpop, hrest⟩ := hholds.pop
    refine ⟨_, by rw [Machine.next, hpop], l, hrest, ?_⟩
    rw [hqueued, List.append_assoc, List.singleton_append]

/-- **A step** keeps the queue right; a program ends for want of memory only with `2 ^ 58` tasks
pending. -/
lemma step_spec (h : Queued m) (e : Event F) :
    (m.step e = .outOfMemory ∧ 2 ^ 58 ≤ m.ring.pending.length) ∨
      ∃ m', m.step e = .ok m' ∧ Queued m' := by
  obtain ⟨l, hholds, hqueued⟩ := h
  cases e with
  | enqueue fn arg =>
    rcases hholds.enqueue fn arg with ⟨hmemory, hlarge⟩ | ⟨ring, hring, hnew⟩
    · refine Or.inl ⟨by rw [Machine.step, hmemory], ?_⟩
      rw [hholds.pending_eq, List.length_map]
      exact hlarge
    · refine Or.inr ⟨_, by rw [Machine.step, hring], _, hnew, ?_⟩
      rw [hqueued, List.append_assoc]
  | runUntilIdle =>
    right
    rw [Machine.step]
    by_cases hidle : m.ring.head = m.ring.tail
    · exact ⟨m, if_pos hidle, l, hholds, hqueued⟩
    · rw [if_neg hidle]
      exact next_spec ⟨l, hholds, hqueued⟩ hidle
  | jobReturns =>
    right
    cases hrunning : m.running with
    | nil => exact ⟨m, by rw [Machine.step, hrunning], l, hholds, hqueued⟩
    | cons t outer =>
      rw [Machine.step, hrunning]
      dsimp only
      by_cases hidle : m.ring.head = m.ring.tail
      · obtain rfl := hholds.head_eq_tail_iff.mp hidle
        exact ⟨_, if_pos hidle, [], hholds.restart, hqueued⟩
      · rw [if_neg hidle]
        exact next_spec (m := { m with running := outer }) ⟨l, hholds, hqueued⟩ hidle

/-- The drain that a step was about has returned: its caller runs again. -/
def Returned (m : Machine F) (e : Event F) (m' : Machine F) : Prop :=
  match e with
  | .enqueue _ _ => False
  | .runUntilIdle => m'.running = m.running
  | .jobReturns => m.running ≠ [] ∧ m'.running = m.running.tail

/-- A drain that goes on has one job more running. -/
lemma next_running {m' : Machine F} (h : m.next = .ok m') :
    m'.running.length = m.running.length + 1 := by
  rw [Machine.next] at h
  split at h
  · cases h
    rfl
  · cases h
  · cases h

/-- A drain returns with nothing pending. -/
lemma head_eq_tail_of_returned {e : Event F} {m' : Machine F} (hstep : m.step e = .ok m')
    (h : Returned m e m') : m'.ring.head = m'.ring.tail := by
  cases e with
  | enqueue fn arg => exact h.elim
  | runUntilIdle =>
    have hsame : m'.running = m.running := h
    rw [Machine.step] at hstep
    by_cases hidle : m.ring.head = m.ring.tail
    · rw [if_pos hidle] at hstep
      cases hstep
      exact hidle
    · rw [if_neg hidle] at hstep
      have hmore := next_running hstep
      rw [hsame] at hmore
      omega
  | jobReturns =>
    obtain ⟨hrunning, hsame⟩ : m.running ≠ [] ∧ m'.running = m.running.tail := h
    cases hjobs : m.running with
    | nil => exact absurd hjobs hrunning
    | cons t outer =>
      rw [hjobs, List.tail_cons] at hsame
      rw [Machine.step, hjobs] at hstep
      dsimp only at hstep
      by_cases hidle : m.ring.head = m.ring.tail
      · rw [if_pos hidle] at hstep
        cases hstep
        rfl
      · rw [if_neg hidle] at hstep
        have hmore := next_running hstep
        rw [hsame] at hmore
        change outer.length = outer.length + 1 at hmore
        omega

end Steps

/-! ### The queue over a run -/

/-- A property of the result of a run, if it has one; no slot is read or written that is not
there. -/
def Outcome.Satisfies {α : Type} (p : α → Prop) : Outcome α → Prop
  | .ok a => p a
  | .outOfMemory => True
  | .undefined => False

/-- The queue is first in, first out: what was queued has been started once and in order, except
for the tasks in the slots of the counts from the head to the tail, which are pending.  The ring
has room for them, its counts are equal when there is none, and only then, and a drain returns with
none. -/
structure Fifo (m : Machine F) : Prop where
  order : m.queued.map some = m.started.map some ++ m.ring.pending
  room : m.ring.pending.length ≤ m.ring.cap
  idle : m.ring.head = m.ring.tail ↔ m.queued = m.started
  returns : ∀ e m', m.step e = .ok m' → Returned m e m' → m'.queued = m'.started
  memory : ∀ e, m.step e = .outOfMemory → 2 ^ 58 ≤ m.ring.pending.length

/-- With the counts equal everything that was queued has been started. -/
lemma Queued.idle_iff {m : Machine F} (h : Queued m) :
    m.ring.head = m.ring.tail ↔ m.queued = m.started := by
  obtain ⟨l, hholds, hqueued⟩ := h
  rw [hholds.head_eq_tail_iff, hqueued]
  exact List.append_right_eq_self.symm

lemma Queued.fifo {m : Machine F} (h : Queued m) : Fifo m := by
  obtain ⟨l, hholds, hqueued⟩ := h
  refine ⟨?_, ?_, Queued.idle_iff ⟨l, hholds, hqueued⟩, fun e m' hstep hreturned => ?_,
    fun e hmemory => ?_⟩
  · rw [hholds.pending_eq, hqueued, List.map_append]
  · rw [hholds.pending_eq, List.length_map]
    exact hholds.room
  · rcases step_spec ⟨l, hholds, hqueued⟩ e with ⟨hmemory, -⟩ | ⟨m₁, hok, hnew⟩
    · rw [hstep] at hmemory
      cases hmemory
    · rw [hstep] at hok
      cases hok
      exact hnew.idle_iff.mp (head_eq_tail_of_returned hstep hreturned)
  · rcases step_spec ⟨l, hholds, hqueued⟩ e with ⟨-, hlarge⟩ | ⟨m₁, hok, -⟩
    · exact hlarge
    · rw [hmemory] at hok
      cases hok

/-- A run keeps the queue right. -/
lemma run_spec (events : List (Event F)) {m : Machine F} (h : Queued m) :
    (m.run events).Satisfies Queued := by
  induction events generalizing m with
  | nil => exact h
  | cons e events ih =>
    rw [Machine.run]
    rcases step_spec h e with ⟨hmemory, -⟩ | ⟨m', hok, hnew⟩
    · rw [hmemory]
      trivial
    · rw [hok]
      exact ih hnew

end Torajs.MicrotaskQueue
