import Mathlib.Data.Nat.Notation
import Mathlib.Data.Option.Basic

/-!
# Simulation of deterministic machines

A machine is a partial step function with an observation of each state.  Its behaviour
from a state is what it visits, on runs that end and on runs that do not, and what it halts
with.

Two machines that move in segments from related states to related states, each segment
silent before its last state, have the same behaviour.
-/

namespace Torajs.Simulation

variable {σ τ ω : Type*}

/-- The state after some number of steps. -/
def iter (next : σ → Option σ) : ℕ → σ → Option σ
  | 0, s => some s
  | n + 1, s => (next s).bind (iter next n)

/-- Some state of the run has the observation. -/
def Visits (next : σ → Option σ) (obs : σ → ω) (s : σ) (o : ω) : Prop :=
  ∃ n s', iter next n s = some s' ∧ obs s' = o

/-- The run ends in a state with the observation. -/
def Halts (next : σ → Option σ) (obs : σ → ω) (s : σ) (o : ω) : Prop :=
  ∃ n s', iter next n s = some s' ∧ next s' = none ∧ obs s' = o

/-- At least one step, with nothing new to see before the last state. -/
def Segment (next : σ → Option σ) (obs : σ → ω) (s s' : σ) : Prop :=
  ∃ n, iter next (n + 1) s = some s' ∧ ∀ k ≤ n, ∀ u, iter next k s = some u → obs u = obs s

section Iter

variable {next : σ → Option σ} {obs : σ → ω}

@[simp]
lemma iter_zero (s : σ) : iter next 0 s = some s := rfl

lemma iter_succ (n : ℕ) (s : σ) : iter next (n + 1) s = (next s).bind (iter next n) := rfl

lemma iter_one (s : σ) : iter next 1 s = next s := by
  rw [iter_succ]
  cases next s <;> rfl

/-- A run continues where a shorter one got to. -/
lemma iter_add (m n : ℕ) (s : σ) : iter next (m + n) s = (iter next m s).bind (iter next n) := by
  induction m generalizing s with
  | zero => rw [Nat.zero_add, iter_zero, Option.bind_some]
  | succ m ih =>
    rw [Nat.succ_add, iter_succ, iter_succ, Option.bind_assoc]
    exact congrArg _ (funext ih)

/-- Behind a run of `m` steps the remaining steps of a longer run. -/
lemma iter_of_le {m n : ℕ} {s s' u : σ} (hm : iter next m s = some s') (hle : m ≤ n)
    (hn : iter next n s = some u) : iter next (n - m) s' = some u := by
  obtain ⟨k, rfl⟩ := Nat.exists_eq_add_of_le hle
  rwa [iter_add, hm, Option.bind_some, Nat.add_sub_cancel_left] at *

/-- A state that the run leaves is not its end. -/
lemma ne_none_of_iter {k n : ℕ} {s u s' : σ} (hk : iter next k s = some u) (hlt : k < n)
    (hn : iter next n s = some s') : next u ≠ none := by
  intro hnone
  have hrest := iter_of_le hk (Nat.le_of_lt hlt) hn
  obtain ⟨j, hj⟩ : ∃ j, n - k = j + 1 := ⟨n - k - 1, by omega⟩
  rw [hj, iter_succ, hnone, Option.bind_none] at hrest
  cases hrest

/-- Silent steps, none or more: every state looks like the first one. -/
def Silent (next : σ → Option σ) (obs : σ → ω) (s s' : σ) : Prop :=
  ∃ n, iter next n s = some s' ∧ ∀ k ≤ n, ∀ u, iter next k s = some u → obs u = obs s

lemma Silent.refl (s : σ) : Silent next obs s s := by
  refine ⟨0, rfl, fun k hk u hu => ?_⟩
  obtain rfl : k = 0 := by omega
  rw [iter_zero] at hu
  rw [Option.some.inj hu]

/-- A silent step ahead of silent steps. -/
lemma Silent.cons {s t s' : σ} (h : next s = some t) (hobs : obs t = obs s)
    (hrest : Silent next obs t s') : Silent next obs s s' := by
  obtain ⟨n, hn, hsilent⟩ := hrest
  refine ⟨n + 1, by rw [iter_succ, h, Option.bind_some, hn], fun k hk u hu => ?_⟩
  cases k with
  | zero =>
    rw [iter_zero] at hu
    rw [Option.some.inj hu]
  | succ k =>
    rw [iter_succ, h, Option.bind_some] at hu
    rw [hsilent k (by omega) u hu, hobs]

lemma Silent.obs_eq {s s' : σ} (h : Silent next obs s s') : obs s' = obs s := by
  obtain ⟨n, hn, hsilent⟩ := h
  exact hsilent n (Nat.le_refl n) s' hn

lemma Silent.trans {s t s' : σ} (h : Silent next obs s t) (hrest : Silent next obs t s') :
    Silent next obs s s' := by
  have hobs := h.obs_eq
  obtain ⟨m, hm, hsilent⟩ := h
  obtain ⟨n, hn, hsilent'⟩ := hrest
  refine ⟨m + n, by rw [iter_add, hm, Option.bind_some, hn], fun k hk u hu => ?_⟩
  rcases Nat.lt_or_ge m k with hlt | hle
  · rw [hsilent' (k - m) (by omega) u (iter_of_le hm (Nat.le_of_lt hlt) hu), hobs]
  · exact hsilent k hle u hu

/-- Silent steps and one more step are a segment. -/
lemma Silent.segment {s t s' : σ} (h : Silent next obs s t) (hstep : next t = some s') :
    Segment next obs s s' := by
  obtain ⟨n, hn, hsilent⟩ := h
  exact ⟨n, by rw [iter_add, hn, Option.bind_some, iter_one, hstep], hsilent⟩

/-- One step is a segment. -/
lemma Segment.single {s s' : σ} (h : next s = some s') : Segment next obs s s' :=
  (Silent.refl s).segment h

/-- Silent steps ahead of a segment. -/
lemma Silent.trans_segment {s t s' : σ} (h : Silent next obs s t) (hrest : Segment next obs t s') :
    Segment next obs s s' := by
  obtain ⟨m, hm, hsilent⟩ := h
  obtain ⟨n, hn, hsilent'⟩ := hrest
  have hsome : ∃ u, iter next n t = some u := by
    rw [iter_add, Option.bind_eq_some_iff] at hn
    exact ⟨_, hn.choose_spec.1⟩
  obtain ⟨u, hu⟩ := hsome
  have hlast : next u = some s' := by
    rw [iter_add, hu, Option.bind_some, iter_one] at hn
    exact hn
  exact (Silent.trans ⟨m, hm, hsilent⟩ ⟨n, hu, hsilent'⟩).segment hlast

/-- A segment for what is seen is one for less. -/
lemma Segment.map {ω' : Type*} (g : ω → ω') {s s' : σ} (h : Segment next obs s s') :
    Segment next (fun u => g (obs u)) s s' := by
  obtain ⟨n, hn, hsilent⟩ := h
  exact ⟨n, hn, fun k hk u hu => congrArg g (hsilent k hk u hu)⟩

end Iter

/-- A run ends in one way. -/
lemma Halts.unique {next : σ → Option σ} {obs : σ → ω} {s : σ} {o o' : ω} (h : Halts next obs s o)
    (h' : Halts next obs s o') : o = o' := by
  obtain ⟨n, u, hn, hend, rfl⟩ := h
  obtain ⟨n', u', hn', hend', rfl⟩ := h'
  rcases Nat.lt_trichotomy n n' with hlt | rfl | hlt
  · exact absurd hend (ne_none_of_iter hn hlt hn')
  · rw [Option.some.inj (hn.symm.trans hn')]
  · exact absurd hend' (ne_none_of_iter hn' hlt hn)

/-! ### Simulations -/

variable {next : σ → Option σ} {obs : σ → ω} {next' : τ → Option τ} {obs' : τ → ω}

/-- Related states look the same, and either both are at an end or both run a segment to
related states. -/
structure Simulates (next : σ → Option σ) (obs : σ → ω) (next' : τ → Option τ) (obs' : τ → ω)
    (R : σ → τ → Prop) : Prop where
  obs_eq : ∀ {s t}, R s t → obs s = obs' t
  step : ∀ {s t}, R s t → (next s = none ∧ next' t = none) ∨
    ∃ s' t', Segment next obs s s' ∧ Segment next' obs' t t' ∧ R s' t'

variable {R : σ → τ → Prop}

/-- The relation read from the other side. -/
lemma Simulates.flip (h : Simulates next obs next' obs' R) :
    Simulates next' obs' next obs fun t s => R s t where
  obs_eq hR := (h.obs_eq hR).symm
  step hR := by
    rcases h.step hR with ⟨hs, ht⟩ | ⟨s', t', hs, ht, hR'⟩
    · exact Or.inl ⟨ht, hs⟩
    · exact Or.inr ⟨t', s', ht, hs, hR'⟩

/-- What a run visits, and what it halts with, so does a related run: by induction on its
length, one segment at a time. -/
private lemma Simulates.forward (h : Simulates next obs next' obs' R) (n : ℕ) :
    ∀ {s : σ} {t : τ}, R s t → ∀ {u : σ}, iter next n s = some u →
      ∃ m v, iter next' m t = some v ∧ obs' v = obs u ∧ (next u = none → next' v = none) := by
  induction n using Nat.strongRecOn with
  | ind n ih =>
    intro s t hR u hu
    rcases h.step hR with ⟨hs, ht⟩ | ⟨s', t', ⟨m, hm, hsilent⟩, ⟨m', hm', _⟩, hR'⟩
    · cases n with
      | zero =>
        obtain rfl := Option.some.inj hu
        exact ⟨0, t, rfl, (h.obs_eq hR).symm, fun _ => ht⟩
      | succ n =>
        rw [iter_succ, hs, Option.bind_none] at hu
        cases hu
    · rcases Nat.lt_or_ge n (m + 1) with hlt | hge
      · -- inside the segment nothing new is seen, and no state is an end
        refine ⟨0, t, rfl, ?_, fun hend => absurd hend (ne_none_of_iter hu hlt hm)⟩
        rw [hsilent n (by omega) u hu, h.obs_eq hR]
      · obtain ⟨k, v, hv, hobs, hend⟩ := ih (n - (m + 1)) (by omega) hR' (iter_of_le hm hge hu)
        refine ⟨m' + 1 + k, v, ?_, hobs, hend⟩
        rw [iter_add, hm', Option.bind_some, hv]

/-- **Related states visit the same.** -/
theorem Simulates.visits_iff (h : Simulates next obs next' obs' R) {s : σ} {t : τ} (hR : R s t)
    (o : ω) : Visits next obs s o ↔ Visits next' obs' t o := by
  constructor
  · rintro ⟨n, u, hu, rfl⟩
    obtain ⟨m, v, hv, hobs, _⟩ := h.forward n hR hu
    exact ⟨m, v, hv, hobs⟩
  · rintro ⟨n, u, hu, rfl⟩
    obtain ⟨m, v, hv, hobs, _⟩ := h.flip.forward n hR hu
    exact ⟨m, v, hv, hobs⟩

/-- **Related states halt with the same.** -/
theorem Simulates.halts_iff (h : Simulates next obs next' obs' R) {s : σ} {t : τ} (hR : R s t)
    (o : ω) : Halts next obs s o ↔ Halts next' obs' t o := by
  constructor
  · rintro ⟨n, u, hu, hend, rfl⟩
    obtain ⟨m, v, hv, hobs, hend'⟩ := h.forward n hR hu
    exact ⟨m, v, hv, hend' hend, hobs⟩
  · rintro ⟨n, u, hu, hend, rfl⟩
    obtain ⟨m, v, hv, hobs, hend'⟩ := h.flip.forward n hR hu
    exact ⟨m, v, hv, hend' hend, hobs⟩

/-! ### Steps that one run takes alone -/

/-- A simulation in which the first run may take silent steps alone, while the second waits with
a step of its own to take: the count of a pair falls with each of them. -/
structure Stutters (next : σ → Option σ) (obs : σ → ω) (next' : τ → Option τ) (obs' : τ → ω)
    (Q : ℕ → σ → τ → Prop) : Prop where
  obs_eq : ∀ {n s t}, Q n s t → obs s = obs' t
  step : ∀ {n s t}, Q n s t → (next s = none ∧ next' t = none) ∨
    (next' t ≠ none ∧ ∃ s' m, m < n ∧ next s = some s' ∧ obs s' = obs s ∧ Q m s' t) ∨
    ∃ s' t' m, Segment next obs s s' ∧ Segment next' obs' t t' ∧ Q m s' t'

/-- **The steps taken alone end**, and what is left is a simulation. -/
theorem Stutters.simulates {Q : ℕ → σ → τ → Prop} (h : Stutters next obs next' obs' Q) :
    Simulates next obs next' obs' fun s t => ∃ n, Q n s t where
  obs_eq := fun ⟨_, hQ⟩ => h.obs_eq hQ
  step := by
    rintro s t ⟨n, hQ⟩
    induction n using Nat.strongRecOn generalizing s with
    | ind n ih =>
      rcases h.step hQ with hend | ⟨hwait, s', m, hlt, hs, hobs, hQ'⟩ | ⟨s', t', m, hs, ht, hQ'⟩
      · exact Or.inl hend
      · rcases ih m hlt hQ' with ⟨_, hnone⟩ | ⟨s'', t', hs', ht, hQ''⟩
        · exact absurd hnone hwait
        · have hsilent : Silent next obs s s' := (Silent.refl s').cons hs hobs
          exact Or.inr ⟨s'', t', hsilent.trans_segment hs', ht, hQ''⟩
      · exact Or.inr ⟨s', t', hs, ht, m, hQ'⟩

end Torajs.Simulation
