import ToraJs.Lib.FirstArrival
import ToraJs.Regex.Pike

/-!
# Exploring a program over a window

The search that both matchers carry out, without their data structures.  A configuration
is a place in the program with the row it carries and the iterations begun on its path at
its position.  At each position the first configuration to arrive at a program counter is
explored and the later ones are dropped, so the search over a window is one first-arrival
search for each position, and the configurations that consume a byte are the arrivals of
the next position.

`batch` explores position by position, as the Pike VM does; `exploreAt_cons` and the lemmas
around it say that exploring each configuration to its end before the next one, as the
backtracker does, comes to the same.
-/

namespace Torajs.Regex

/-- A place in the program with the data of its path. -/
structure Config where
  pc : ℕ
  row : Row
  iters : List ℕ
  deriving DecidableEq, Repr

/-! ### Steps -/

/-- The successors at the same position, in priority order. -/
def epsNext (prog : Program) (s : List UInt8) (pos : ℕ) (c : Config) : List Config :=
  match prog.insts[c.pc]? with
  | some (.jmp target) => [{ c with pc := target }]
  | some (.split a b) => [{ c with pc := a }, { c with pc := b }]
  | some (.save slot) => [⟨c.pc + 1, c.row.set slot (some pos), c.iters⟩]
  | some (.saveReset first stop) => [⟨c.pc + 1, resetSlots c.row first stop, c.iters⟩]
  | some .iterStart => [⟨c.pc + 1, c.row, c.iters ++ [c.pc]⟩]
  | some (.iterCheck start) => if start ∈ c.iters then [] else [{ c with pc := c.pc + 1 }]
  | some (.anchorB pad) => if atLineStart pad s pos then [{ c with pc := c.pc + 1 }] else []
  | some (.anchorE pad) => if atLineEnd pad s pos then [{ c with pc := c.pc + 1 }] else []
  | some .wBound =>
    if wordBefore s pos != wordAfter s pos then [{ c with pc := c.pc + 1 }] else []
  | some .nwBound =>
    if wordBefore s pos == wordAfter s pos then [{ c with pc := c.pc + 1 }] else []
  | _ => []

/-- The bytes an instruction consumes at a position. -/
def stepAdv (prog : Program) (s : List UInt8) (flags : UInt8) (pos : ℕ) : Option Inst → Option ℕ
  | some (.char lit pad) =>
    if pos < s.length ∧ charEq (Inst.byte lit) (byteAt s pos) pad then some 1 else none
  | some (.anyChar pad) => anyCharAdv s pos pad
  | some (.cls idx pad) => classAdv prog s pos flags idx pad
  | _ => none

/-- The instructions that wait for input. -/
def Inst.parks : Inst → Bool
  | .char _ _ | .anyChar _ | .cls _ _ | .accept => true
  | .anchorB _ | .anchorE _ | .wBound | .nwBound | .jmp _ | .split _ _ | .save _ | .look _ _
  | .backref _ _ | .saveReset _ _ | .iterStart | .iterCheck _ => false

/-- A configuration waits for input. -/
def Config.parks (prog : Program) (c : Config) : Bool := (prog.insts[c.pc]?).any Inst.parks

/-- A configuration stands on `Match`. -/
def Config.accepts (prog : Program) (c : Config) : Bool := prog.insts[c.pc]? == some .accept

/-- The search graph of one position. -/
def levelGraph (prog : Program) (s : List UInt8) (pos : ℕ) : FirstArrival.Graph Config ℕ where
  key := Config.pc
  next := epsNext prog s pos
  keys := Finset.range prog.len

/-! ### Exploring position by position -/

/-- What exploring comes to: a match with its row, a step over a character of several
bytes, or neither, with the program counters visited at the first position and at each
later one. -/
inductive Explored where
  | found (row : Row)
  | wide
  | none (v : Finset ℕ) (vs : List (Finset ℕ))

namespace Explored

/-- Continue where nothing was found. -/
def andThen : Explored → (Finset ℕ → List (Finset ℕ) → Explored) → Explored
  | found row, _ => found row
  | wide, _ => wide
  | none v vs, f => f v vs

@[simp] lemma andThen_none (e : Explored) : e.andThen none = e := by
  cases e <;> rfl

@[simp] lemma none_andThen (v : Finset ℕ) (vs : List (Finset ℕ))
    (f : Finset ℕ → List (Finset ℕ) → Explored) : (none v vs).andThen f = f v vs := rfl

lemma andThen_assoc (e : Explored) (f g : Finset ℕ → List (Finset ℕ) → Explored) :
    (e.andThen f).andThen g = e.andThen fun v vs => (f v vs).andThen g := by
  cases e <;> rfl

end Explored

section Batch

variable (prog : Program) (s : List UInt8) (flags : UInt8)

/-- The arrivals at the next position, from configurations in order, up to the first one
that steps over a character of several bytes; and whether there is one. -/
def arrivals (pos : ℕ) : List Config → List Config × Bool
  | [] => ([], false)
  | c :: cs =>
    match stepAdv prog s flags pos prog.insts[c.pc]? with
    | none => arrivals pos cs
    | some adv =>
      if adv = 1 then (⟨c.pc + 1, c.row, []⟩ :: (arrivals pos cs).1, (arrivals pos cs).2)
      else ([], true)

/-- Explore from the configurations `cs` at `pos`, with the program counters `v` visited
there and `vs` at the later positions of the window. -/
def batch : ℕ → Finset ℕ → List (Finset ℕ) → List Config → Explored
  | pos, v, [], cs =>
    match ((levelGraph prog s pos).visit v cs).find? (Config.accepts prog) with
    | some c => .found c.row
    | none => .none ((levelGraph prog s pos).after v cs) []
  | pos, v, w :: vs, cs =>
    let (next, wide) := arrivals prog s flags pos ((levelGraph prog s pos).visit v cs)
    (batch (pos + 1) w vs next).andThen fun w vs =>
      if wide then .wide else .none ((levelGraph prog s pos).after v cs) (w :: vs)

/-- Explore from configurations `lvl` positions into the window that starts at `pos`. -/
def exploreAt : ℕ → Finset ℕ → List (Finset ℕ) → ℕ → List Config → Explored
  | pos, v, vs, 0, cs => batch prog s flags pos v vs cs
  | _, v, [], _ + 1, _ => .none v []
  | pos, v, w :: vs, lvl + 1, cs =>
    (exploreAt (pos + 1) w vs lvl cs).andThen fun w vs => .none v (w :: vs)

/-! ### Sequential exploration -/

/-- The arrivals of a list in two parts. -/
lemma arrivals_append (pos : ℕ) (xs ys : List Config) :
    arrivals prog s flags pos (xs ++ ys) =
      if (arrivals prog s flags pos xs).2 then ((arrivals prog s flags pos xs).1, true)
      else ((arrivals prog s flags pos xs).1 ++ (arrivals prog s flags pos ys).1,
        (arrivals prog s flags pos ys).2) := by
  induction xs with
  | nil => simp [arrivals]
  | cons c xs ih =>
    rcases Option.eq_none_or_eq_some (stepAdv prog s flags pos prog.insts[c.pc]?) with
      h | ⟨adv, h⟩
    · simp only [List.cons_append, arrivals, h]
      exact ih
    · by_cases hadv : adv = 1
      · simp only [List.cons_append, arrivals, h, if_pos hadv, ih]
        split <;> rfl
      · simp [arrivals, h, hadv]

/-- Exploring two lists is exploring the first, and then the second with what the first
visited. -/
theorem batch_append (pos : ℕ) (v : Finset ℕ) (vs : List (Finset ℕ)) (xs ys : List Config) :
    batch prog s flags pos v vs (xs ++ ys) =
      (batch prog s flags pos v vs xs).andThen fun v vs => batch prog s flags pos v vs ys := by
  induction vs generalizing pos v xs ys with
  | nil =>
    simp only [batch, FirstArrival.Graph.visit_append, FirstArrival.Graph.after_append,
      List.find?_append]
    cases ((levelGraph prog s pos).visit v xs).find? (Config.accepts prog) with
    | some c => rfl
    | none => rfl
  | cons w vs ih =>
    simp only [batch, FirstArrival.Graph.visit_append, FirstArrival.Graph.after_append,
      arrivals_append]
    set g := levelGraph prog s pos
    cases hw : (arrivals prog s flags pos (g.visit v xs)).2 with
    | true =>
      simp only [if_true]
      cases batch prog s flags (pos + 1) w vs (arrivals prog s flags pos (g.visit v xs)).1 <;> rfl
    | false =>
      simp only [Bool.false_eq_true, if_false]
      rw [ih, Explored.andThen_assoc, Explored.andThen_assoc]
      rfl

/-- The same at a later position of the window. -/
theorem exploreAt_append (pos : ℕ) (v : Finset ℕ) (vs : List (Finset ℕ)) (lvl : ℕ)
    (xs ys : List Config) :
    exploreAt prog s flags pos v vs lvl (xs ++ ys) =
      (exploreAt prog s flags pos v vs lvl xs).andThen fun v vs =>
        exploreAt prog s flags pos v vs lvl ys := by
  induction lvl generalizing pos v vs with
  | zero => exact batch_append prog s flags pos v vs xs ys
  | succ lvl ih =>
    cases vs with
    | nil => rfl
    | cons w vs =>
      simp only [exploreAt]
      rw [ih, Explored.andThen_assoc, Explored.andThen_assoc]
      rfl

/-! ### One configuration -/

/-- The program counter `pc` is visited `lvl` positions into the window. -/
def SeenAt : Finset ℕ → List (Finset ℕ) → ℕ → ℕ → Prop
  | v, _, 0, pc => pc ∈ v
  | _, [], _ + 1, _ => False
  | _, w :: vs, lvl + 1, pc => SeenAt w vs lvl pc

@[simp] lemma seenAt_zero (v : Finset ℕ) (vs : List (Finset ℕ)) (pc : ℕ) :
    SeenAt v vs 0 pc ↔ pc ∈ v := by
  cases vs <;> exact Iff.rfl

/-- The first component of the visited counters after a visit `lvl` positions in. -/
def markHead (v : Finset ℕ) : ℕ → ℕ → Finset ℕ
  | 0, pc => insert pc v
  | _ + 1, _ => v

/-- The later components of the visited counters after a visit `lvl` positions in. -/
def markTail : List (Finset ℕ) → ℕ → ℕ → List (Finset ℕ)
  | vs, 0, _ => vs
  | [], _ + 1, _ => []
  | w :: vs, lvl + 1, pc => markHead w lvl pc :: markTail vs lvl pc

@[simp] lemma markTail_length (vs : List (Finset ℕ)) (lvl pc : ℕ) :
    (markTail vs lvl pc).length = vs.length := by
  induction vs generalizing lvl with
  | nil => cases lvl <;> rfl
  | cons w vs ih =>
    cases lvl with
    | zero => rfl
    | succ lvl => simp [markTail, ih]

/-- Exploring from nothing visits nothing. -/
@[simp] lemma batch_nil (pos : ℕ) (v : Finset ℕ) (vs : List (Finset ℕ)) :
    batch prog s flags pos v vs [] = .none v vs := by
  induction vs generalizing pos v with
  | nil => simp [batch]
  | cons w vs ih => simp [batch, arrivals, ih]

@[simp] lemma exploreAt_nil (pos : ℕ) (v : Finset ℕ) (vs : List (Finset ℕ)) (lvl : ℕ) :
    exploreAt prog s flags pos v vs lvl [] = .none v vs := by
  induction lvl generalizing pos v vs with
  | zero => exact batch_nil prog s flags pos v vs
  | succ lvl ih =>
    cases vs with
    | nil => rfl
    | cons w vs => simp [exploreAt, ih]

variable {prog s flags}

/-- A configuration at a visited program counter is dropped. -/
lemma exploreAt_of_seen {pos lvl : ℕ} {v : Finset ℕ} {vs : List (Finset ℕ)} {c : Config}
    (h : SeenAt v vs lvl c.pc) : exploreAt prog s flags pos v vs lvl [c] = .none v vs := by
  induction lvl generalizing pos v vs with
  | zero =>
    rw [seenAt_zero] at h
    have hvisit : (levelGraph prog s pos).visit v [c] = [] := by
      rw [FirstArrival.Graph.visit_cons_of_mem _ _ h, FirstArrival.Graph.visit_nil]
    have hafter : (levelGraph prog s pos).after v [c] = v := by
      rw [FirstArrival.Graph.after_cons_of_mem _ _ h, FirstArrival.Graph.after_nil]
    cases vs <;> simp [exploreAt, batch, hvisit, hafter, arrivals]
  | succ lvl ih =>
    cases vs with
    | nil => exact h.elim
    | cons w vs =>
      rw [exploreAt, ih h]
      rfl

section Fresh

variable {pos lvl : ℕ} {v : Finset ℕ} {vs : List (Finset ℕ)} {c : Config}

/-- The visits from a fresh configuration begin with it. -/
lemma visit_fresh (hpc : c.pc < prog.len) (hv : c.pc ∉ v) :
    (levelGraph prog s pos).visit v [c] =
      c :: (levelGraph prog s pos).visit (insert c.pc v) (epsNext prog s pos c) := by
  have := FirstArrival.Graph.visit_cons_of_fresh (levelGraph prog s pos) (V := v) (c := c) []
    (Finset.mem_range.mpr hpc) hv
  rwa [List.append_nil] at this

/-- What a fresh configuration leaves visited. -/
lemma after_fresh (hpc : c.pc < prog.len) (hv : c.pc ∉ v) :
    (levelGraph prog s pos).after v [c] =
      (levelGraph prog s pos).after (insert c.pc v) (epsNext prog s pos c) := by
  have := FirstArrival.Graph.after_cons_of_fresh (levelGraph prog s pos) (V := v) (c := c) []
    (Finset.mem_range.mpr hpc) hv
  rwa [List.append_nil] at this

/-- A fresh configuration that neither consumes nor stands on `Match` goes on to its
successors. -/
lemma exploreAt_eps (hpc : c.pc < prog.len) (hv : ¬ SeenAt v vs lvl c.pc)
    (hadv : stepAdv prog s flags (pos + lvl) prog.insts[c.pc]? = none)
    (hacc : c.accepts prog = false) :
    exploreAt prog s flags pos v vs lvl [c] =
      exploreAt prog s flags pos (markHead v lvl c.pc) (markTail vs lvl c.pc) lvl
        (epsNext prog s (pos + lvl) c) := by
  induction lvl generalizing pos v vs with
  | zero =>
    rw [Nat.add_zero] at hadv ⊢
    cases vs with
    | nil => simp [exploreAt, batch, visit_fresh hpc hv, after_fresh hpc hv, hacc, markHead, markTail]
    | cons w vs =>
      simp [exploreAt, batch, visit_fresh hpc hv, after_fresh hpc hv, arrivals, hadv, markHead,
        markTail]
  | succ lvl ih =>
    cases vs with
    | nil => rfl
    | cons w vs =>
      have hpos : pos + 1 + lvl = pos + (lvl + 1) := by omega
      rw [exploreAt, ih hv (by rwa [hpos]), hpos]
      rfl

/-- A fresh configuration that consumes one byte goes on at the next position. -/
lemma exploreAt_step (hpc : c.pc < prog.len) (hv : ¬ SeenAt v vs lvl c.pc)
    (hadv : stepAdv prog s flags (pos + lvl) prog.insts[c.pc]? = some 1)
    (hnext : epsNext prog s (pos + lvl) c = []) (hlvl : lvl < vs.length) :
    exploreAt prog s flags pos v vs lvl [c] =
      exploreAt prog s flags pos (markHead v lvl c.pc) (markTail vs lvl c.pc) (lvl + 1)
        [⟨c.pc + 1, c.row, []⟩] := by
  induction lvl generalizing pos v vs with
  | zero =>
    rw [Nat.add_zero] at hadv hnext
    cases vs with
    | nil => exact absurd hlvl (by simp)
    | cons w vs =>
      simp [exploreAt, batch, visit_fresh hpc hv, after_fresh hpc hv, hnext, arrivals, hadv,
        markHead, markTail]
  | succ lvl ih =>
    cases vs with
    | nil => exact absurd hlvl (by simp)
    | cons w vs =>
      have hpos : pos + 1 + lvl = pos + (lvl + 1) := by omega
      rw [exploreAt, ih hv (by rwa [hpos]) (by rwa [hpos]) (by simpa using hlvl)]
      rfl

/-- A fresh configuration that steps over several bytes ends the exploration. -/
lemma exploreAt_wide {adv : ℕ} (hpc : c.pc < prog.len) (hv : ¬ SeenAt v vs lvl c.pc)
    (hadv : stepAdv prog s flags (pos + lvl) prog.insts[c.pc]? = some adv) (hne : adv ≠ 1)
    (hlvl : lvl < vs.length) : exploreAt prog s flags pos v vs lvl [c] = .wide := by
  induction lvl generalizing pos v vs with
  | zero =>
    rw [Nat.add_zero] at hadv
    cases vs with
    | nil => exact absurd hlvl (by simp)
    | cons w vs => simp [exploreAt, batch, visit_fresh hpc hv, arrivals, hadv, hne]
  | succ lvl ih =>
    cases vs with
    | nil => exact absurd hlvl (by simp)
    | cons w vs =>
      have hpos : pos + 1 + lvl = pos + (lvl + 1) := by omega
      rw [exploreAt, ih hv (by rwa [hpos]) (by simpa using hlvl)]
      rfl

/-- A fresh configuration on `Match` at the end of the window is a match. -/
lemma exploreAt_found (hpc : c.pc < prog.len) (hv : ¬ SeenAt v vs lvl c.pc)
    (hacc : c.accepts prog = true) (hlvl : lvl = vs.length) :
    exploreAt prog s flags pos v vs lvl [c] = .found c.row := by
  induction lvl generalizing pos v vs with
  | zero =>
    cases vs with
    | nil => simp [exploreAt, batch, visit_fresh hpc hv, hacc]
    | cons w vs => simp at hlvl
  | succ lvl ih =>
    cases vs with
    | nil => simp at hlvl
    | cons w vs =>
      rw [exploreAt, ih hv (by simpa using hlvl)]
      rfl

/-- A fresh configuration without successors that cannot go on in the window: it waits for
input at the end of the window, or stands on `Match` before it. -/
lemma exploreAt_stuck (hpc : c.pc < prog.len) (hv : ¬ SeenAt v vs lvl c.pc)
    (hnext : epsNext prog s (pos + lvl) c = [])
    (hlast : lvl = vs.length → c.accepts prog = false)
    (hbefore : lvl < vs.length → stepAdv prog s flags (pos + lvl) prog.insts[c.pc]? = none)
    (hle : lvl ≤ vs.length) :
    exploreAt prog s flags pos v vs lvl [c] =
      .none (markHead v lvl c.pc) (markTail vs lvl c.pc) := by
  induction lvl generalizing pos v vs with
  | zero =>
    rw [Nat.add_zero] at hnext hbefore
    cases vs with
    | nil =>
      simp [exploreAt, batch, visit_fresh hpc hv, after_fresh hpc hv, hnext, hlast rfl, markHead,
        markTail]
    | cons w vs =>
      have hadv := hbefore (by simp)
      simp [exploreAt, batch, visit_fresh hpc hv, after_fresh hpc hv, hnext, arrivals, hadv,
        markHead, markTail]
  | succ lvl ih =>
    cases vs with
    | nil => simp at hle
    | cons w vs =>
      have hpos : pos + 1 + lvl = pos + (lvl + 1) := by omega
      rw [List.length_cons] at hlast hbefore hle
      rw [exploreAt, ih hv (by rwa [hpos]) (fun h => hlast (by omega))
        (fun h => by rw [hpos]; exact hbefore (by omega)) (by omega)]
      rfl

end Fresh

end Batch

end Torajs.Regex
