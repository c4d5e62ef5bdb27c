import ToraJs.Regalloc.Exec
import ToraJs.Regalloc.LiveRanges

/-!
# Copy coalescing

`coalesce::build_copy_classes` and what feeds it: the copies of a function, the widenings of
`zext_load`, the live segments of the candidates, the merge test and the greedy loop.

A class keeps the union of its members' ranges and the write half-slots of their
definitions.  Two classes merge when their segments are disjoint, so that no two members
meet, or when one is a value whose only definition copies a member of the other and no
member of the other is written while it is live, so that the two agree.  Either way the
members of a class hold the same wherever two of them are live.
-/

namespace Torajs.Regalloc

open RangeList

/-! ### Candidates -/

/-- All instructions in layout order. -/
def Func.insts (f : Func) : List Inst := f.blocks.flatMap Block.insts

/-- The kind whose result is a 32-bit load. -/
def InstKind.isLoad32 : InstKind → Bool
  | .load .i32 _ _ => true
  | _ => false

/-- What `widened_loads` knows of a value's definitions: none yet, one that is a 32-bit load,
or anything else. -/
inductive DefKind where
  | noDef | load | other
  deriving DecidableEq, Repr

/-- One instruction of the count. -/
def countDef (defs : ValueId → DefKind) (inst : Inst) : ValueId → DefKind :=
  match inst.result with
  | some r =>
    Function.update defs r (if defs r = .noDef ∧ inst.kind.isLoad32 then .load else .other)
  | none => defs

/-- The definitions of every value. -/
def defKinds (f : Func) : ValueId → DefKind := f.insts.foldl countDef fun _ => .noDef

/-- A widening and the value it widens. -/
def wideningOf (inst : Inst) : Option (ValueId × ValueId) :=
  match inst.kind, inst.result with
  | .zExtI32ToI64 (.value v), some r => some (r, v)
  | _, _ => none

/-- `zext_load::widened_loads`. -/
def widenedLoads (f : Func) : List ValueId :=
  ((f.insts.filterMap wideningOf).filter fun x => defKinds f x.2 = .load).map Prod.fst

/-- `coalesce::Copy`: a candidate `w = copy v`. -/
structure Copy where
  w : ValueId
  v : ValueId
  exact : Bool

/-- The source of a copy, and whether its bits are moved unchanged. -/
def copySource (widened : List ValueId) (inst : Inst) : Option (Bool × ValueId) :=
  match inst.kind with
  | .zExtI32ToI64 (.value v) => if inst.result.any (· ∈ widened) then some (true, v) else none
  | .copy _ (.value v) | .ptrToInt (.value v) | .intToPtr (.value v) => some (true, v)
  | .vec (.pair .f64x2 (.value v) _) => some (false, v)
  | _ => none

/-- The candidate an instruction is. -/
def copyOf (widened : List ValueId) (inst : Inst) : Option Copy := do
  let (exact, v) ← copySource widened inst
  let w ← inst.result
  some ⟨w, v, exact⟩

/-- `Type::is_fpr_class`. -/
def isFprClass : SsaType → Bool
  | .f64 | .vec _ => true
  | _ => false

/-- What both values of a candidate must be. -/
def retained (f : Func) (ivs : Intervals) (excluded : List ValueId) (c : Copy) : Bool :=
  c.w ≠ c.v &&
    ([c.w, c.v].all fun x => (ivs x).isSome && x ∉ excluded && x ∉ f.params &&
      x ∉ allocaResults f) &&
    (f.values[c.w]?).any isFprClass == (f.values[c.v]?).any isFprClass

/-- `collect_copies`. -/
def collectCopies (f : Func) (ivs : Intervals) (excluded widened : List ValueId) : List Copy :=
  (f.insts.filterMap (copyOf widened)).filter (retained f ivs excluded)

/-! ### Segments -/

/-- `segments::Live`: the live ranges and the write half-slots of the definitions. -/
structure Live where
  segs : ValueId → Ranges
  defs : ValueId → List ℕ

/-- A range handed out by the walk: it starts at a definition when its start is odd. -/
def Live.push (live : Live) (x : ValueId × ℕ × ℕ) : Live where
  segs := Function.update live.segs x.1 (live.segs x.1 ++ [x.2])
  defs :=
    if x.2.1 % 2 = 1 then Function.update live.defs x.1 (live.defs x.1 ++ [x.2.1]) else live.defs

/-- `segments::live_segments`. -/
def liveSegments (f : Func) (bl : BlockLiveness) (cand : ValueId → Bool) : Live :=
  (walkHalfSlots f bl cand).foldl (fun live block => block.reverse.foldl Live.push live)
    ⟨fun _ => [], fun _ => []⟩

/-! ### Classes -/

/-- `coalesce::Class`. -/
structure Class where
  members : List ValueId
  segs : Ranges
  hull : Interval
  defs : List ℕ

/-- `joint_hull`. -/
def jointHull (a b : Class) : Interval :=
  ⟨min a.hull.start b.hull.start, max a.hull.stop b.hull.stop⟩

/-- `crosses_call`, for call sites in order. -/
def crossesCall (it : Interval) (callSites : List ℕ) : Bool :=
  match callSites.dropWhile (· ≤ it.start) with
  | p :: _ => p < it.stop
  | [] => false

/-- `mergeable`. -/
def mergeable (a b : Class) (exact : Bool) (callSites : List ℕ) : Bool :=
  let newlyCrossing :=
    crossesCall (jointHull a b) callSites && !crossesCall a.hull callSites &&
      !crossesCall b.hull callSites
  if newlyCrossing then false
  else
    !overlaps a.segs b.segs ||
      (exact && a.members.length == 1 && a.defs.length == 1 && !anyInside b.defs a.segs)

/-- `merge`. -/
def merge (a b : Class) : Class where
  members := a.members ++ b.members
  segs := union a.segs b.segs
  hull := jointHull a b
  defs := (a.defs ++ b.defs).mergeSort

/-- `coalesce::Classes`. -/
structure Classes where
  leaderOf : ValueId → Option ValueId
  classes : ValueId → Option Class

/-- `Classes::leader`. -/
def Classes.leader (cs : Classes) (v : ValueId) : ValueId := (cs.leaderOf v).getD v

/-- `Classes::default`. -/
def Classes.empty : Classes := ⟨fun _ => none, fun _ => none⟩

/-- The state of the merging loop: the segments not yet taken, and the classes. -/
structure Build where
  live : Live
  cs : Classes

/-- The class of a root: the one it leads, or a new one of its own.  A candidate has an
interval. -/
def Build.take (ivs : Intervals) (st : Build) (r : ValueId) : Class × Build :=
  match st.cs.classes r with
  | some c => (c, { st with cs := { st.cs with classes := Function.update st.cs.classes r none } })
  | none =>
    (⟨[r], st.live.segs r, (ivs r).getD ⟨0, 0⟩, st.live.defs r⟩,
      { st with
        live := ⟨Function.update st.live.segs r [], Function.update st.live.defs r []⟩ })

/-- One candidate of the merging loop. -/
def Build.copy (ivs : Intervals) (liveOk : Bool) (callSites : List ℕ) (st : Build) (c : Copy) :
    Build :=
  let rw := st.cs.leader c.w
  let rv := st.cs.leader c.v
  if rw = rv then st
  else
    let a := st.take ivs rw
    let b := a.2.take ivs rv
    let cs := b.2.cs
    if mergeable a.1 b.1 (c.exact && liveOk) callSites then
      let merged := merge a.1 b.1
      { b.2 with
        cs :=
          { leaderOf := (merged.members.drop a.1.members.length).foldl
              (fun leaderOf m => Function.update leaderOf m (some rw))
              (Function.update cs.leaderOf rw (some rw))
            classes := Function.update cs.classes rw (some merged) } }
    else
      { b.2 with
        cs :=
          { cs with
            classes := Function.update (Function.update cs.classes rw (some a.1)) rv (some b.1) } }

/-- The classes of two members or more. -/
def Classes.retain (cs : Classes) : Classes :=
  let classes : ValueId → Option Class := fun l =>
    (cs.classes l).filter fun c => c.members.length > 1
  ⟨fun v => (cs.leaderOf v).filter fun l => (classes l).isSome, classes⟩

/-- The bisect gates. -/
structure Switches where
  coalesceOff : Bool
  coalesceLiveOff : Bool

/-- `build_copy_classes`. -/
def buildCopyClasses (f : Func) (ivs : Intervals) (bl : BlockLiveness) (excluded : List ValueId)
    (callSites : List ℕ) (widened : List ValueId) (switches : Switches) : Classes :=
  if switches.coalesceOff then Classes.empty
  else
    let copies := collectCopies f ivs excluded widened
    if copies.isEmpty then Classes.empty
    else
      let live := liveSegments f bl fun v => copies.any fun c => c.w = v || c.v = v
      let st := copies.foldl (Build.copy ivs (!switches.coalesceLiveOff) callSites)
        ⟨live, Classes.empty⟩
      st.cs.retain

/-! ### What the candidates are -/

section Candidates

variable {f : Func}

/-- What the count knows after some instructions. -/
def Counted (done : List Inst) (defs : ValueId → DefKind) : Prop :=
  ∀ v, (defs v = .noDef → ∀ inst ∈ done, inst.result ≠ some v) ∧
    (defs v = .load → ∀ inst ∈ done, inst.result = some v → inst.kind.isLoad32 = true)

lemma Counted.step {done : List Inst} {defs : ValueId → DefKind} (h : Counted done defs)
    (inst : Inst) : Counted (done ++ [inst]) (countDef defs inst) := by
  intro v
  obtain ⟨hnone, hload⟩ := h v
  rw [countDef]
  cases hres : inst.result with
  | none =>
    refine ⟨fun hv i hi => ?_, fun hv i hi hiv => ?_⟩
    · rcases List.mem_append.mp hi with hi | hi
      · exact hnone hv i hi
      · rw [List.mem_singleton.mp hi, hres]
        exact nofun
    · rcases List.mem_append.mp hi with hi | hi
      · exact hload hv i hi hiv
      · rw [List.mem_singleton.mp hi, hres] at hiv
        cases hiv
  | some r =>
    dsimp only
    by_cases hvr : v = r
    · subst hvr
      rw [Function.update_self]
      by_cases hfirst : defs v = .noDef ∧ inst.kind.isLoad32
      · rw [if_pos hfirst]
        refine ⟨nofun, fun _ i hi hiv => ?_⟩
        rcases List.mem_append.mp hi with hi | hi
        · exact absurd hiv (hnone hfirst.1 i hi)
        · rw [List.mem_singleton.mp hi]
          exact hfirst.2
      · rw [if_neg hfirst]
        exact ⟨nofun, nofun⟩
    · rw [Function.update_of_ne hvr]
      have hne : inst.result ≠ some v := by
        rw [hres]
        exact fun he => hvr (Option.some.inj he).symm
      refine ⟨fun hv i hi => ?_, fun hv i hi hiv => ?_⟩
      · rcases List.mem_append.mp hi with hi | hi
        · exact hnone hv i hi
        · rwa [List.mem_singleton.mp hi]
      · rcases List.mem_append.mp hi with hi | hi
        · exact hload hv i hi hiv
        · rw [List.mem_singleton.mp hi] at hiv
          exact absurd hiv hne

/-- A value counted as a load has no definition but 32-bit loads. -/
lemma isLoad32_of_defKinds {v : ValueId} (h : defKinds f v = .load) :
    ∀ inst ∈ f.insts, inst.result = some v → inst.kind.isLoad32 = true := by
  have hrun : ∀ (l done : List Inst) (defs : ValueId → DefKind), Counted done defs →
      Counted (done ++ l) (l.foldl countDef defs) := by
    intro l
    induction l with
    | nil =>
      intro done defs hdone
      rwa [List.append_nil]
    | cons inst l ih =>
      intro done defs hdone
      have := ih (done ++ [inst]) _ (hdone.step inst)
      rwa [List.append_assoc] at this
  have hall := hrun f.insts [] (fun _ => .noDef) fun v =>
    ⟨fun _ i hi => absurd hi List.not_mem_nil, nofun⟩
  exact (hall v).2 h

lemma mem_insts_of_instAt {x : Point} {inst : Inst} (h : f.instAt x = some inst) :
    inst ∈ f.insts := by
  obtain ⟨b, hb, hk⟩ := Option.bind_eq_some_iff.mp h
  exact List.mem_flatMap.mpr ⟨b, List.mem_of_getElem? hb, List.mem_of_getElem? hk⟩

/-- Every instruction is at the write half of some slot. -/
lemma exists_instAt_of_mem {inst : Inst} (h : inst ∈ f.insts) :
    ∃ x : Point, x.write = true ∧ f.instAt x = some inst := by
  obtain ⟨b, hb, hi⟩ := List.mem_flatMap.mp h
  obtain ⟨i, hi'⟩ := List.mem_iff_getElem?.mp hb
  obtain ⟨k, hk⟩ := List.mem_iff_getElem?.mp hi
  exact ⟨⟨i, k, true⟩, rfl, by rw [Func.instAt, hi', Option.bind_some, hk]⟩

/-- What a candidate moves: its instruction is a move of the source's bits on every run, when
no other instruction defines its result. -/
lemma moves_of_copyOf {c : Copy} {inst : Inst} (hv : c.v ∉ f.params)
    (hc : copyOf (widenedLoads f) inst = some c) (hexact : c.exact = true)
    (hsingle : ∀ i ∈ f.insts, i.result = some c.w → i = inst) :
    inst.result = some c.w ∧ f.Moves inst c.v := by
  obtain ⟨⟨exact, v⟩, hsrc, hc⟩ := Option.bind_eq_some_iff.mp hc
  obtain ⟨w, hres, hc⟩ := Option.bind_eq_some_iff.mp hc
  obtain rfl : (⟨w, v, exact⟩ : Copy) = c := Option.some.inj hc
  refine ⟨hres, ?_⟩
  cases hexact
  have hmove : ∀ {kind : InstKind}, inst.kind = kind → visitInstOperands kind = [v] →
      (∀ (env : Env) n, Produces env n kind → env v = some n) → f.Moves inst v := by
    rintro kind rfl hread hprod
    exact ⟨by rw [hread]; exact List.mem_singleton_self v, fun c _ n hn => hprod c.env n hn⟩
  rw [copySource] at hsrc
  split at hsrc
  next u hkind =>
    -- a widening: its source is only ever loaded, so its top half is clear already
    split_ifs at hsrc with hw
    obtain rfl : u = v := (Prod.mk.inj (Option.some.inj hsrc)).2
    refine ⟨by rw [hkind]; exact List.mem_singleton_self u, fun c hreach n hn => ?_⟩
    rw [hkind] at hn
    obtain ⟨m, hm, rfl⟩ := hn
    have hload : defKinds f u = .load := by
      rw [hres, Option.any_some, decide_eq_true_eq] at hw
      obtain ⟨⟨w', u'⟩, hmem, rfl⟩ := List.mem_map.mp hw
      obtain ⟨hmem, hload⟩ := List.mem_filter.mp hmem
      obtain ⟨inst', hinst', hwid⟩ := List.mem_filterMap.mp hmem
      rw [wideningOf] at hwid
      split at hwid
      next u'' w'' hkind' hres' =>
        cases hwid
        cases hsingle inst' hinst' hres'
        cases hkind.symm.trans hkind'
        exact of_decide_eq_true hload
      next => cases hwid
    have hlt := Func.lt_of_loads hv (fun x i hi hiv => ?_) hreach m hm
    · rw [hm, Nat.mod_eq_of_lt hlt]
    · have hi32 := isLoad32_of_defKinds hload i (mem_insts_of_instAt hi) hiv
      obtain ⟨_, kind⟩ := i
      dsimp only at hi32
      unfold InstKind.isLoad32 at hi32
      split at hi32
      next ptr off => exact ⟨ptr, off, rfl⟩
      next => cases hi32
  next ty u hkind =>
    obtain rfl : u = v := (Prod.mk.inj (Option.some.inj hsrc)).2
    exact hmove hkind rfl fun _ _ hn => hn
  next u hkind =>
    obtain rfl : u = v := (Prod.mk.inj (Option.some.inj hsrc)).2
    exact hmove hkind rfl fun _ _ hn => hn
  next u hkind =>
    obtain rfl : u = v := (Prod.mk.inj (Option.some.inj hsrc)).2
    exact hmove hkind rfl fun _ _ hn => hn
  next => cases (Prod.mk.inj (Option.some.inj hsrc)).1
  next => cases hsrc

end Candidates

/-! ### What the segments are -/

/-- The write half-slots of a value's definitions, in order. -/
def defSlots (f : Func) (bl : BlockLiveness) (v : ValueId) : List ℕ :=
  ((valueRanges f bl v).map Prod.fst).filter (· % 2 = 1)

lemma foldl_push_live (v : ValueId) (out : Emitted) : ∀ live : Live,
    (out.foldl Live.push live).segs v = live.segs v ++ emittedOf out v ∧
      (out.foldl Live.push live).defs v =
        live.defs v ++ ((emittedOf out v).map Prod.fst).filter (· % 2 = 1) := by
  induction out with
  | nil => simp [emittedOf]
  | cons x out ih =>
    intro live
    obtain ⟨w, r⟩ := x
    have hcons : emittedOf ((w, r) :: out) v = emittedOf [(w, r)] v ++ emittedOf out v :=
      emittedOf_append [(w, r)] out v
    rw [List.foldl_cons, (ih _).1, (ih _).2, hcons, emittedOf_singleton]
    by_cases hwv : w = v
    · subst hwv
      rw [if_pos rfl]
      by_cases hodd : r.1 % 2 = 1 <;> simp [Live.push, hodd]
    · rw [if_neg hwv]
      by_cases hodd : r.1 % 2 = 1 <;> simp [Live.push, hodd, Ne.symm hwv]

/-- **The segments of a candidate are its ranges, its definitions their odd starts.** -/
lemma liveSegments_spec (f : Func) (bl : BlockLiveness) {cand : ValueId → Bool} {v : ValueId}
    (hv : cand v = true) :
    (liveSegments f bl cand).segs v = valueRanges f bl v ∧
      (liveSegments f bl cand).defs v = defSlots f bl v := by
  have hrun : ∀ (l : List (Block × ℕ)) (live : Live),
      let st := (l.map (walkBlock cand bl)).foldl
        (fun live block => block.reverse.foldl Live.push live) live
      st.segs v = live.segs v ++ l.flatMap (blockRanges bl v) ∧
        st.defs v = live.defs v ++
          ((l.flatMap (blockRanges bl v)).map Prod.fst).filter (· % 2 = 1) := by
    intro l
    induction l with
    | nil => simp
    | cons bi l ih =>
      intro live
      have hblock : emittedOf (walkBlock cand bl bi).reverse v = blockRanges bl v bi := by
        have := emittedOf_walkBlock hv bl bi
        rw [emittedOf] at this ⊢
        rw [List.filter_reverse, List.map_reverse, this, List.reverse_reverse]
      obtain ⟨hsegs, hdefs⟩ := foldl_push_live v (walkBlock cand bl bi).reverse live
      obtain ⟨ihsegs, ihdefs⟩ := ih ((walkBlock cand bl bi).reverse.foldl Live.push live)
      dsimp only at ihsegs ihdefs ⊢
      rw [List.map_cons, List.foldl_cons, ihsegs, ihdefs, hsegs, hdefs, hblock, List.flatMap_cons,
        List.map_append, List.filter_append, List.append_assoc, List.append_assoc]
      exact ⟨rfl, rfl⟩
  obtain ⟨hsegs, hdefs⟩ := hrun f.blocks.zipIdx ⟨fun _ => [], fun _ => []⟩
  exact ⟨hsegs, hdefs⟩

section Segments

variable {f : Func} {bl : BlockLiveness} (h : LiveSets f bl) (v : ValueId)

include h

lemma defSlots_ascend : (defSlots f bl v).Pairwise (· ≤ ·) := by
  refine List.Pairwise.filter _ (List.pairwise_map.mpr ?_)
  exact (ascending_valueRanges h v).startsAscend (proper_valueRanges h v)

lemma mem_defSlots {x : Point} (hx : f.DefsAt v x) : f.halfSlot x ∈ defSlots f bl v := by
  obtain ⟨r, hr, hlo⟩ := exists_range_of_defsAt h v hx
  refine List.mem_filter.mpr ⟨List.mem_map.mpr ⟨r, hr, hlo⟩, ?_⟩
  rw [Func.halfSlot, hx.1, if_pos rfl, decide_eq_true_eq]
  omega

omit h in
/-- A slot's place in the layout determines its block and its place there. -/
lemma Func.slot_inj {i j k l : ℕ} {b c : Block} (hb : f.blocks[i]? = some b)
    (hc : f.blocks[j]? = some c) (hk : k < b.slots.length) (hl : l < c.slots.length)
    (heq : f.start i + k = f.start j + l) : i = j ∧ k = l := by
  rw [Block.length_slots] at hk hl
  have hbi := Func.start_succ hb
  have hcj := Func.start_succ hc
  rw [Func.stop_eq hb] at hbi
  rw [Func.stop_eq hc] at hcj
  rcases lt_trichotomy i j with hij | rfl | hij
  · have hle : f.start (i + 1) ≤ f.start j := f.start_le hij
    omega
  · exact ⟨rfl, by omega⟩
  · have hle : f.start (j + 1) ≤ f.start i := f.start_le hij
    omega

/-- With a single definition slot, a single instruction defines the value. -/
lemma eq_of_single_def (hsingle : (defSlots f bl v).length = 1) {i j : Inst} (hi : i ∈ f.insts)
    (hj : j ∈ f.insts) (hiv : i.result = some v) (hjv : j.result = some v) : i = j := by
  obtain ⟨x, hxw, hx⟩ := exists_instAt_of_mem hi
  obtain ⟨y, hyw, hy⟩ := exists_instAt_of_mem hj
  obtain ⟨d, hd⟩ := List.length_eq_one_iff.mp hsingle
  have hslot : ∀ {z : Point} {inst : Inst}, z.write = true → f.instAt z = some inst →
      inst.result = some v → f.halfSlot z = d := by
    intro z inst hz hinst hres
    have := mem_defSlots h v (Func.defsAt_iff.mpr ⟨hz, inst, hinst, hres⟩)
    rw [hd] at this
    exact List.mem_singleton.mp this
  have heq : f.halfSlot x = f.halfSlot y := (hslot hxw hx hiv).trans (hslot hyw hy hjv).symm
  rw [Func.halfSlot, Func.halfSlot, hxw, hyw] at heq
  obtain ⟨b, hb, hk⟩ := Option.bind_eq_some_iff.mp hx
  obtain ⟨c, hc, hl⟩ := Option.bind_eq_some_iff.mp hy
  have hklt := (List.getElem?_eq_some_iff.mp hk).1
  have hllt := (List.getElem?_eq_some_iff.mp hl).1
  have hkb : x.slot < b.slots.length := by
    rw [Block.length_slots]
    omega
  have hlc : y.slot < c.slots.length := by
    rw [Block.length_slots]
    omega
  obtain ⟨hij, hkl⟩ := Func.slot_inj hb hc hkb hlc (by omega)
  rw [hij] at hb
  obtain rfl := Option.some.inj (hb.symm.trans hc)
  rw [hkl] at hk
  exact Option.some.inj (hk.symm.trans hl)

end Segments

/-! ### What a class satisfies -/

/-- A value of the function, neither a parameter nor a stack slot's address. -/
def Func.Plain (f : Func) (v : ValueId) : Prop :=
  v ∉ f.params ∧ v ∉ allocaResults f ∧ v < f.values.length

/-- The invariant of a class: its segments cover its members' ranges, its definitions are
theirs, its hull holds their intervals, and they agree. -/
structure ClassOk (f : Func) (bl : BlockLiveness) (ivs : Intervals) (c : Class) : Prop where
  proper : Proper c.segs
  ascending : Ascending c.segs
  covers : ∀ m ∈ c.members, ∀ x, Covers (valueRanges f bl m) x → Covers c.segs x
  defsAscend : c.defs.Pairwise (· ≤ ·)
  defs : c.defs.Perm (c.members.flatMap (defSlots f bl))
  hull : ∀ m ∈ c.members, ∃ it, ivs m = some it ∧ c.hull.start ≤ it.start ∧ it.stop ≤ c.hull.stop
  plain : ∀ m ∈ c.members, f.Plain m
  agree : ∀ m ∈ c.members, ∀ n ∈ c.members, f.Agree m n

section Classes

variable {f : Func} {bl : BlockLiveness} {ivs : Intervals} (h : LiveSets f bl)

include h

lemma ClassOk.singleton {v : ValueId} {it : Interval} (hit : ivs v = some it) (hv : f.Plain v) :
    ClassOk f bl ivs ⟨[v], valueRanges f bl v, it, defSlots f bl v⟩ where
  proper := proper_valueRanges h v
  ascending := ascending_valueRanges h v
  covers := by
    intro m hm x hx
    rwa [List.mem_singleton.mp hm] at hx
  defsAscend := defSlots_ascend h v
  defs := by simp
  hull := by
    intro m hm
    rw [List.mem_singleton.mp hm]
    exact ⟨it, hit, le_rfl, le_rfl⟩
  plain := by
    intro m hm
    rwa [List.mem_singleton.mp hm]
  agree := by
    intro m hm n hn
    rw [List.mem_singleton.mp hm, List.mem_singleton.mp hn]
    exact Func.Agree.refl f v

/-- A live member is covered by its class's segments. -/
lemma ClassOk.covers_live {c : Class} (hc : ClassOk f bl ivs c) {m : ValueId}
    (hm : m ∈ c.members) {x : Point} (hx : f.LiveAt m x) : Covers c.segs (f.halfSlot x) :=
  hc.covers m hm _ (covers_valueRanges h m hx)

/-- Values of classes that may merge agree: either their ranges do not meet, or the first
class is a single copy of a member of the second. -/
lemma agree_of_mergeable {a b : Class} (ha : ClassOk f bl ivs a) (hb : ClassOk f bl ivs b)
    {c : Copy} {liveOk : Bool} {callSites : List ℕ}
    (hmerge : mergeable a b (c.exact && liveOk) callSites = true) (hw : c.w ∈ a.members)
    (hv : c.v ∈ b.members) (hwp : c.w ∉ f.params) (hvp : c.v ∉ f.params) {inst : Inst}
    (hinst : inst ∈ f.insts) (hcopy : copyOf (widenedLoads f) inst = some c) :
    ∀ m ∈ a.members, ∀ n ∈ b.members, f.Agree m n := by
  intro m hm n hn
  rw [mergeable] at hmerge
  split_ifs at hmerge
  rcases Bool.or_eq_true_iff.mp hmerge with hdisj | hcopyOk
  · -- no point is in both classes' segments
    intro s _ hms hns
    have hover := overlaps_of_covers ha.proper ha.ascending hb.proper hb.ascending
      (ha.covers_live h hm hms) (hb.covers_live h hn hns)
    rw [hover] at hdisj
    cases hdisj
  · simp only [Bool.and_eq_true, beq_iff_eq, Bool.not_eq_true'] at hcopyOk
    obtain ⟨⟨⟨⟨hexact, _⟩, hmembers⟩, hdefs⟩, hinside⟩ := hcopyOk
    obtain ⟨w, hamem⟩ := List.length_eq_one_iff.mp hmembers
    rw [hamem] at hm hw
    obtain rfl := List.mem_singleton.mp hm
    obtain hcw : c.w = m := List.mem_singleton.mp hw
    have hsingle : (defSlots f bl m).length = 1 := by
      rw [← hdefs, ha.defs.length_eq, hamem]
      simp
    have hres : inst.result = some c.w := by
      obtain ⟨_, _, hc⟩ := Option.bind_eq_some_iff.mp hcopy
      obtain ⟨w', hres, hc⟩ := Option.bind_eq_some_iff.mp hc
      rw [hres, ← Option.some.inj hc]
    have honly : ∀ i ∈ f.insts, i.result = some c.w → i = inst := fun i hi hiw => by
      rw [hcw] at hiw hres
      exact eq_of_single_def h m hsingle hi hinst hiw hres
    have hmoves := (moves_of_copyOf hvp hcopy hexact honly).2
    refine Func.agree_of_moves (v := c.v) (by rwa [← hcw]) ?_ (hb.agree _ hv _ hn) ?_
    · intro x i hi hiw
      rw [honly i (mem_insts_of_instAt hi) (by rw [hcw]; exact hiw)]
      exact hmoves
    · -- a write of a member of `b` while the copy is live is inside its segments
      intro x hdef hlive
      have hmem : f.halfSlot x ∈ b.defs :=
        hb.defs.mem_iff.mpr (List.mem_flatMap.mpr ⟨n, hn, mem_defSlots h n hdef⟩)
      have hmm : m ∈ a.members := by
        rw [hamem]
        exact List.mem_singleton_self m
      rw [anyInside_of_covers hb.defsAscend ha.proper ha.ascending hmem
        (ha.covers_live h hmm hlive)] at hinside
      cases hinside

omit h in
/-- **Merging two classes whose members agree.** -/
lemma ClassOk.merge {a b : Class} (ha : ClassOk f bl ivs a) (hb : ClassOk f bl ivs b)
    (hagree : ∀ m ∈ a.members, ∀ n ∈ b.members, f.Agree m n) :
    ClassOk f bl ivs (merge a b) := by
  obtain ⟨hproper, hsep, hcovers⟩ := union_spec ha.proper ha.ascending hb.proper hb.ascending
  refine ⟨hproper, hsep.ascending, fun m hm x hx => ?_, ?_, ?_, fun m hm => ?_, fun m hm => ?_,
    fun m hm n hn => ?_⟩
  · refine (hcovers x).mpr ?_
    rcases List.mem_append.mp hm with hm | hm
    · exact Or.inl (ha.covers m hm x hx)
    · exact Or.inr (hb.covers m hm x hx)
  · have hsorted : ((a.defs ++ b.defs).mergeSort).Pairwise fun p q => decide (p ≤ q) :=
      List.pairwise_mergeSort
        (fun p q r hpq hqr => by
          simp only [decide_eq_true_eq] at hpq hqr ⊢
          omega)
        (fun p q => by simpa using le_total p q) (a.defs ++ b.defs)
    exact hsorted.imp of_decide_eq_true
  · refine (List.mergeSort_perm _ _).trans ?_
    change (a.defs ++ b.defs).Perm ((a.members ++ b.members).flatMap (defSlots f bl))
    rw [List.flatMap_append]
    exact ha.defs.append hb.defs
  · rcases List.mem_append.mp hm with hm | hm
    · obtain ⟨it, hit, hle, hge⟩ := ha.hull m hm
      exact ⟨it, hit, (min_le_left _ _).trans hle, hge.trans (le_max_left _ _)⟩
    · obtain ⟨it, hit, hle, hge⟩ := hb.hull m hm
      exact ⟨it, hit, (min_le_right _ _).trans hle, hge.trans (le_max_right _ _)⟩
  · rcases List.mem_append.mp hm with hm | hm
    · exact ha.plain m hm
    · exact hb.plain m hm
  · rcases List.mem_append.mp hm with hm | hm <;> rcases List.mem_append.mp hn with hn | hn
    · exact ha.agree m hm n hn
    · exact hagree m hm n hn
    · exact (hagree n hn m hm).symm
    · exact hb.agree m hm n hn

end Classes

/-! ### The merging loop -/

/-- The invariant of the loop: classes are sound and led by a member, a leader's class holds
those it leads, and a candidate in no class still has its segments. -/
structure BuildInv (f : Func) (bl : BlockLiveness) (ivs : Intervals) (cand : ValueId → Bool)
    (st : Build) : Prop where
  ok : ∀ l c, st.cs.classes l = some c → ClassOk f bl ivs c
  self : ∀ l c, st.cs.classes l = some c → l ∈ c.members
  root : ∀ l c m, st.cs.classes l = some c → m ∈ c.members → st.cs.leader m = l
  led : ∀ v l, st.cs.leaderOf v = some l → ∃ c, st.cs.classes l = some c ∧ v ∈ c.members
  fresh : ∀ v, cand v = true → st.cs.classes v = none → st.cs.leaderOf v = none →
    st.live.segs v = valueRanges f bl v ∧ st.live.defs v = defSlots f bl v

section Loop

variable {f : Func} {bl : BlockLiveness} {ivs : Intervals} {cand : ValueId → Bool}
  {st : Build}

@[simp] lemma take_leaderOf (r : ValueId) : (st.take ivs r).2.cs.leaderOf = st.cs.leaderOf := by
  rw [Build.take]
  cases st.cs.classes r <;> rfl

@[simp] lemma take_classes (r : ValueId) :
    (st.take ivs r).2.cs.classes = Function.update st.cs.classes r none := by
  rw [Build.take]
  cases hr : st.cs.classes r with
  | none => exact (Function.update_eq_self_iff.mpr hr.symm).symm
  | some c => rfl

lemma take_segs {r v : ValueId} (hv : v ≠ r) :
    (st.take ivs r).2.live.segs v = st.live.segs v := by
  rw [Build.take]
  cases st.cs.classes r with
  | none => exact Function.update_of_ne hv _ _
  | some c => rfl

lemma take_defs {r v : ValueId} (hv : v ≠ r) :
    (st.take ivs r).2.live.defs v = st.live.defs v := by
  rw [Build.take]
  cases st.cs.classes r with
  | none => exact Function.update_of_ne hv _ _
  | some c => rfl

lemma take_of_some {r : ValueId} {c : Class} (hc : st.cs.classes r = some c) :
    (st.take ivs r).1 = c := by
  rw [Build.take, hc]

/-- What taking a root's class gives. -/
structure Taken (f : Func) (bl : BlockLiveness) (ivs : Intervals) (cs : Classes) (w : ValueId)
    (c : Class) : Prop where
  ok : ClassOk f bl ivs c
  mem : w ∈ c.members
  root : cs.leader w ∈ c.members
  led : ∀ m ∈ c.members, cs.leader m = cs.leader w

/-- Taking the class of a candidate's root, from a state with that class untouched. -/
lemma BuildInv.taken (hinv : BuildInv f bl ivs cand st) (h : LiveSets f bl) {w : ValueId}
    (hw : cand w = true) {it : Interval} (hit : ivs w = some it) (hp : f.Plain w) (st' : Build)
    (hclasses : st'.cs.classes (st.cs.leader w) = st.cs.classes (st.cs.leader w))
    (hsegs : st'.live.segs (st.cs.leader w) = st.live.segs (st.cs.leader w))
    (hdefs : st'.live.defs (st.cs.leader w) = st.live.defs (st.cs.leader w)) :
    Taken f bl ivs st.cs w (st'.take ivs (st.cs.leader w)).1 := by
  cases hlead : st.cs.leaderOf w with
  | some l =>
    have hl : st.cs.leader w = l := by rw [Classes.leader, hlead, Option.getD_some]
    rw [hl] at hclasses ⊢
    obtain ⟨c, hc, hmem⟩ := hinv.led w l hlead
    rw [take_of_some (hclasses.trans hc)]
    refine ⟨hinv.ok l c hc, hmem, ?_, fun m hm => ?_⟩
    · rw [hl]
      exact hinv.self l c hc
    · rw [hl]
      exact hinv.root l c m hc hm
  | none =>
    have hl : st.cs.leader w = w := by rw [Classes.leader, hlead, Option.getD_none]
    rw [hl] at hclasses hsegs hdefs ⊢
    cases hc : st.cs.classes w with
    | some c =>
      rw [take_of_some (hclasses.trans hc)]
      have hmem := hinv.self w c hc
      refine ⟨hinv.ok w c hc, hmem, by rwa [hl], fun m hm => ?_⟩
      rw [hl]
      exact hinv.root w c m hc hm
    | none =>
      obtain ⟨hs, hd⟩ := hinv.fresh w hw hc hlead
      have htake : (st'.take ivs w).1 =
          ⟨[w], valueRanges f bl w, it, defSlots f bl w⟩ := by
        rw [Build.take, hclasses, hc]
        simp only [hsegs, hdefs, hs, hd, hit, Option.getD_some]
      rw [htake]
      refine ⟨ClassOk.singleton h hit hp, List.mem_singleton_self w, ?_, fun m hm => ?_⟩
      · rw [hl]
        exact List.mem_singleton_self w
      · rw [List.mem_singleton.mp hm]

lemma foldl_lead (r : ValueId) (l : List ValueId) : ∀ (g : ValueId → Option ValueId) (v : ValueId),
    l.foldl (fun g m => Function.update g m (some r)) g v = if v ∈ l then some r else g v := by
  induction l with
  | nil => simp
  | cons m l ih =>
    intro g v
    rw [List.foldl_cons, ih]
    by_cases hv : v ∈ l
    · simp [hv]
    · by_cases hvm : v = m
      · simp [hvm]
      · simp [hv, hvm]

/-- The taken classes put back. -/
lemma BuildInv.kept (hinv : BuildInv f bl ivs cand st) {w v : ValueId} {a b : Class} {live : Live}
    (ha : Taken f bl ivs st.cs w a) (hb : Taken f bl ivs st.cs v b)
    (hsomea : ∀ c, st.cs.classes (st.cs.leader w) = some c → a = c)
    (hsomeb : ∀ c, st.cs.classes (st.cs.leader v) = some c → b = c)
    (hlive : ∀ u, u ≠ st.cs.leader w → u ≠ st.cs.leader v →
      live.segs u = st.live.segs u ∧ live.defs u = st.live.defs u)
    {classes : ValueId → Option Class}
    (hv : classes (st.cs.leader v) = some b)
    (hw : st.cs.leader w ≠ st.cs.leader v → classes (st.cs.leader w) = some a)
    (hother : ∀ u, u ≠ st.cs.leader w → u ≠ st.cs.leader v → classes u = st.cs.classes u) :
    BuildInv f bl ivs cand ⟨live, { st.cs with classes := classes }⟩ := by
  -- a class of the new map is one of the two taken or an old one
  have hcases : ∀ {l c}, classes l = some c →
      (l = st.cs.leader v ∧ c = b) ∨ (l = st.cs.leader w ∧ c = a) ∨ st.cs.classes l = some c := by
    intro l c hc
    by_cases hlv : l = st.cs.leader v
    · subst hlv
      exact Or.inl ⟨rfl, Option.some.inj (hc.symm.trans hv)⟩
    · by_cases hlw : l = st.cs.leader w
      · subst hlw
        exact Or.inr (Or.inl ⟨rfl, Option.some.inj (hc.symm.trans (hw hlv))⟩)
      · rw [hother l hlw hlv] at hc
        exact Or.inr (Or.inr hc)
  refine ⟨fun l c hc => ?_, fun l c hc => ?_, fun l c m hc hm => ?_, fun u l hl => ?_,
    fun u hu hc hl => ?_⟩
  · rcases hcases hc with ⟨_, rfl⟩ | ⟨_, rfl⟩ | hc
    · exact hb.ok
    · exact ha.ok
    · exact hinv.ok l c hc
  · rcases hcases hc with ⟨rfl, rfl⟩ | ⟨rfl, rfl⟩ | hc
    · exact hb.root
    · exact ha.root
    · exact hinv.self l c hc
  · rcases hcases hc with ⟨rfl, rfl⟩ | ⟨rfl, rfl⟩ | hc
    · exact hb.led m hm
    · exact ha.led m hm
    · exact hinv.root l c m hc hm
  · obtain ⟨c, hc, hu⟩ := hinv.led u l hl
    by_cases hlv : l = st.cs.leader v
    · subst hlv
      exact ⟨b, hv, by rwa [hsomeb c hc]⟩
    · by_cases hlw : l = st.cs.leader w
      · subst hlw
        exact ⟨a, hw hlv, by rwa [hsomea c hc]⟩
      · exact ⟨c, by rw [← hc]; exact hother l hlw hlv, hu⟩
  · have huv : u ≠ st.cs.leader v := by
      rintro rfl
      exact absurd (hv.symm.trans hc) nofun
    have huw : u ≠ st.cs.leader w := by
      rintro rfl
      exact absurd ((hw huv).symm.trans hc) nofun
    obtain ⟨hs, hd⟩ := hlive u huw huv
    change live.segs u = _ ∧ live.defs u = _
    rw [hs, hd]
    exact hinv.fresh u hu (by rw [← hother u huw huv]; exact hc) hl

/-- The taken classes merged: the second one's members are led by the first one's leader. -/
lemma BuildInv.merged (hinv : BuildInv f bl ivs cand st) {w v : ValueId} {a b : Class}
    {live : Live} (ha : Taken f bl ivs st.cs w a) (hb : Taken f bl ivs st.cs v b)
    (hsomea : ∀ c, st.cs.classes (st.cs.leader w) = some c → a = c)
    (hsomeb : ∀ c, st.cs.classes (st.cs.leader v) = some c → b = c)
    (hlive : ∀ u, u ≠ st.cs.leader w → u ≠ st.cs.leader v →
      live.segs u = st.live.segs u ∧ live.defs u = st.live.defs u)
    (hok : ClassOk f bl ivs (merge a b)) {cs : Classes}
    (hlead : ∀ u, cs.leaderOf u = if u ∈ b.members then some (st.cs.leader w) else
      if u = st.cs.leader w then some (st.cs.leader w) else st.cs.leaderOf u)
    (hclasses : ∀ u, cs.classes u = if u = st.cs.leader w then some (merge a b) else
      if u = st.cs.leader v then none else st.cs.classes u) :
    BuildInv f bl ivs cand ⟨live, cs⟩ := by
  have hmema : ∀ {u}, u ∈ a.members → u ∈ (merge a b).members := fun hu =>
    List.mem_append_left _ hu
  have hmemb : ∀ {u}, u ∈ b.members → u ∈ (merge a b).members := fun hu =>
    List.mem_append_right _ hu
  have hroot : st.cs.leader (st.cs.leader w) = st.cs.leader w := ha.led _ ha.root
  have hcases : ∀ {l c}, cs.classes l = some c → (l = st.cs.leader w ∧ c = merge a b) ∨
      l ≠ st.cs.leader w ∧ l ≠ st.cs.leader v ∧ st.cs.classes l = some c := by
    intro l c hc
    rw [hclasses] at hc
    by_cases hlw : l = st.cs.leader w
    · rw [if_pos hlw] at hc
      exact Or.inl ⟨hlw, (Option.some.inj hc).symm⟩
    · rw [if_neg hlw] at hc
      by_cases hlv : l = st.cs.leader v
      · rw [if_pos hlv] at hc
        cases hc
      · rw [if_neg hlv] at hc
        exact Or.inr ⟨hlw, hlv, hc⟩
  -- the new leader of a value that is not moved over
  have hsame : ∀ {u}, u ∉ b.members → cs.leader u = st.cs.leader u := by
    intro u hu
    rw [Classes.leader, hlead, if_neg hu]
    by_cases huw : u = st.cs.leader w
    · rw [if_pos huw, Option.getD_some, huw, hroot]
    · rw [if_neg huw]
      rfl
  refine ⟨fun l c hc => ?_, fun l c hc => ?_, fun l c m hc hm => ?_, fun u l hl => ?_,
    fun u hu hc hl => ?_⟩
  · rcases hcases hc with ⟨_, rfl⟩ | ⟨_, _, hc⟩
    · exact hok
    · exact hinv.ok l c hc
  · rcases hcases hc with ⟨rfl, rfl⟩ | ⟨_, _, hc⟩
    · exact hmema ha.root
    · exact hinv.self l c hc
  · rcases hcases hc with ⟨rfl, rfl⟩ | ⟨_, hlv, hc⟩
    · by_cases hmb : m ∈ b.members
      · change cs.leader m = st.cs.leader w
        rw [Classes.leader, hlead, if_pos hmb, Option.getD_some]
      · rcases List.mem_append.mp hm with hma | hmb'
        · exact (hsame hmb).trans (ha.led m hma)
        · exact absurd hmb' hmb
    · have hml := hinv.root l c m hc hm
      have hmb : m ∉ b.members := fun hmb => hlv (hml.symm.trans (hb.led m hmb))
      exact (hsame hmb).trans hml
  · have hl : cs.leaderOf u = some l := hl
    rw [hlead] at hl
    have hnew : cs.classes (st.cs.leader w) = some (merge a b) := by rw [hclasses, if_pos rfl]
    by_cases hub : u ∈ b.members
    · rw [if_pos hub] at hl
      obtain rfl := Option.some.inj hl
      exact ⟨_, hnew, hmemb hub⟩
    · rw [if_neg hub] at hl
      by_cases huw : u = st.cs.leader w
      · rw [if_pos huw] at hl
        obtain rfl := Option.some.inj hl
        exact ⟨_, hnew, by rw [huw]; exact hmema ha.root⟩
      · rw [if_neg huw] at hl
        obtain ⟨c, hc, hu⟩ := hinv.led u l hl
        by_cases hlw : l = st.cs.leader w
        · subst hlw
          exact ⟨_, hnew, hmema (by rwa [hsomea c hc])⟩
        · by_cases hlv : l = st.cs.leader v
          · subst hlv
            exact absurd (by rwa [hsomeb c hc]) hub
          · refine ⟨c, ?_, hu⟩
            change cs.classes l = some c
            rw [hclasses, if_neg hlw, if_neg hlv, hc]
  · have hl : cs.leaderOf u = none := hl
    have hc : cs.classes u = none := hc
    rw [hlead] at hl
    have hub : u ∉ b.members := by
      intro hub
      rw [if_pos hub] at hl
      cases hl
    have huw : u ≠ st.cs.leader w := by
      rintro rfl
      rw [if_neg hub, if_pos rfl] at hl
      cases hl
    have huv : u ≠ st.cs.leader v := by
      rintro rfl
      exact hub hb.root
    rw [if_neg hub, if_neg huw] at hl
    rw [hclasses, if_neg huw, if_neg huv] at hc
    obtain ⟨hs, hd⟩ := hlive u huw huv
    change live.segs u = _ ∧ live.defs u = _
    rw [hs, hd]
    exact hinv.fresh u hu hc hl

/-- **One candidate keeps the invariant.** -/
theorem BuildInv.copy (hinv : BuildInv f bl ivs cand st) (h : LiveSets f bl) {c : Copy}
    {liveOk : Bool} {callSites : List ℕ} (hw : cand c.w = true) (hv : cand c.v = true)
    {itw itv : Interval} (hitw : ivs c.w = some itw) (hitv : ivs c.v = some itv)
    (hwp : f.Plain c.w) (hvp : f.Plain c.v) {inst : Inst} (hinst : inst ∈ f.insts)
    (hcopy : copyOf (widenedLoads f) inst = some c) :
    BuildInv f bl ivs cand (Build.copy ivs liveOk callSites st c) := by
  rw [Build.copy]
  dsimp only
  by_cases hroots : st.cs.leader c.w = st.cs.leader c.v
  · rw [if_pos hroots]
    exact hinv
  rw [if_neg hroots]
  have hroots' : st.cs.leader c.v ≠ st.cs.leader c.w := fun he => hroots he.symm
  have ha := hinv.taken h hw hitw hwp st rfl rfl rfl
  have hb := hinv.taken h hv hitv hvp (st.take ivs (st.cs.leader c.w)).2
    (by rw [take_classes, Function.update_of_ne hroots']) (take_segs hroots') (take_defs hroots')
  have hsomea : ∀ {c'}, st.cs.classes (st.cs.leader c.w) = some c' →
      (st.take ivs (st.cs.leader c.w)).1 = c' := take_of_some
  have hsomeb : ∀ {c'}, st.cs.classes (st.cs.leader c.v) = some c' →
      ((st.take ivs (st.cs.leader c.w)).2.take ivs (st.cs.leader c.v)).1 = c' := fun hc' =>
    take_of_some (by rwa [take_classes, Function.update_of_ne hroots'])
  have hsegs : ∀ v, v ≠ st.cs.leader c.w → v ≠ st.cs.leader c.v →
      ((st.take ivs (st.cs.leader c.w)).2.take ivs (st.cs.leader c.v)).2.live.segs v =
          st.live.segs v ∧
        ((st.take ivs (st.cs.leader c.w)).2.take ivs (st.cs.leader c.v)).2.live.defs v =
          st.live.defs v := fun v hvw hvv =>
    ⟨(take_segs hvv).trans (take_segs hvw), (take_defs hvv).trans (take_defs hvw)⟩
  rw [take_leaderOf, take_leaderOf, take_classes, take_classes]
  set rw' := st.cs.leader c.w
  set rv' := st.cs.leader c.v
  set a := (st.take ivs rw').1
  set b := ((st.take ivs rw').2.take ivs rv').1
  set live' := ((st.take ivs rw').2.take ivs rv').2.live
  by_cases hmerge : mergeable a b (c.exact && liveOk) callSites = true
  · rw [if_pos hmerge]
    have hagree := agree_of_mergeable h ha.ok hb.ok hmerge ha.mem hb.mem hwp.1 hvp.1 hinst
      hcopy
    have hmerged := ha.ok.merge hb.ok hagree
    have hdrop : (merge a b).members.drop a.members.length = b.members := List.drop_left ..
    rw [hdrop]
    refine hinv.merged ha hb (fun _ => hsomea) (fun _ => hsomeb) hsegs hmerged
      (fun u => ?_) fun u => ?_
    · change b.members.foldl (fun leaderOf m => Function.update leaderOf m (some rw'))
        (Function.update st.cs.leaderOf rw' (some rw')) u = _
      rw [foldl_lead, Function.update_apply]
    · change Function.update _ _ _ u = _
      rw [Function.update_apply, Function.update_apply, Function.update_apply]
      by_cases huw : u = rw'
      · rw [if_pos huw, if_pos huw]
      · rw [if_neg huw, if_neg huw, if_neg huw]
  · rw [if_neg hmerge]
    refine hinv.kept ha hb (fun _ => hsomea) (fun _ => hsomeb) hsegs (Function.update_self ..)
      (fun hne => ?_) fun u huw huv => ?_
    · rw [Function.update_of_ne hne, Function.update_self]
    · rw [Function.update_of_ne huv, Function.update_of_ne huw, Function.update_of_ne huv,
        Function.update_of_ne huw]

/-- The values of a candidate are read or written by its instruction. -/
lemma lt_of_copyOf (hvis : f.visitable = true) {widened : List ValueId} {inst : Inst} {c : Copy}
    (hinst : inst ∈ f.insts) (hc : copyOf widened inst = some c) {v : ValueId}
    (hv : v = c.w ∨ v = c.v) : v < f.values.length := by
  obtain ⟨⟨exact, u⟩, hsrc, hc⟩ := Option.bind_eq_some_iff.mp hc
  obtain ⟨w, hres, hc⟩ := Option.bind_eq_some_iff.mp hc
  obtain rfl : (⟨w, u, exact⟩ : Copy) = c := Option.some.inj hc
  obtain ⟨b, hb, hi⟩ := List.mem_flatMap.mp hinst
  have hslot : inst.slot ∈ b.slots := List.mem_append_left _ (List.mem_map_of_mem hi)
  refine Func.lt_values hvis hb hslot ?_
  rcases hv with hv | hv
  · exact Or.inr (by rw [hv]; exact hres)
  · left
    rw [hv]
    change u ∈ visitInstOperands inst.kind
    have hread : ∀ {kind : InstKind} (ops : List Operand), inst.kind = kind →
        visitInstOperands kind = operandValues (.value u :: ops) →
        u ∈ visitInstOperands inst.kind := by
      rintro kind ops rfl hvisit
      rw [hvisit]
      exact List.mem_cons_self
    rw [copySource] at hsrc
    split at hsrc
    next u' hkind =>
      split_ifs at hsrc
      obtain rfl : u' = u := (Prod.mk.inj (Option.some.inj hsrc)).2
      exact hread [] hkind rfl
    next ty u' hkind =>
      obtain rfl : u' = u := (Prod.mk.inj (Option.some.inj hsrc)).2
      exact hread [] hkind rfl
    next u' hkind =>
      obtain rfl : u' = u := (Prod.mk.inj (Option.some.inj hsrc)).2
      exact hread [] hkind rfl
    next u' hkind =>
      obtain rfl : u' = u := (Prod.mk.inj (Option.some.inj hsrc)).2
      exact hread [] hkind rfl
    next u' hi hkind =>
      obtain rfl : u' = u := (Prod.mk.inj (Option.some.inj hsrc)).2
      exact hread [_] hkind rfl
    next => cases hsrc

/-- What a collected candidate is. -/
lemma mem_collectCopies (hvis : f.visitable = true) {excluded widened : List ValueId} {c : Copy}
    (hc : c ∈ collectCopies f ivs excluded widened) :
    (∃ inst ∈ f.insts, copyOf widened inst = some c) ∧
      ∀ v, v = c.w ∨ v = c.v → (∃ it, ivs v = some it) ∧ f.Plain v := by
  obtain ⟨hmem, hret⟩ := List.mem_filter.mp hc
  obtain ⟨inst, hinst, hcopy⟩ := List.mem_filterMap.mp hmem
  refine ⟨⟨inst, hinst, hcopy⟩, fun v hv => ?_⟩
  rw [retained, Bool.and_eq_true, Bool.and_eq_true] at hret
  have hall := List.all_eq_true.mp hret.1.2 v (by simpa using hv)
  simp only [Bool.and_eq_true, decide_eq_true_eq] at hall
  exact ⟨Option.isSome_iff_exists.mp hall.1.1.1, hall.1.2, hall.2, lt_of_copyOf hvis hinst hcopy hv⟩

/-- What the finished classes satisfy. -/
structure ClassesOk (f : Func) (bl : BlockLiveness) (ivs : Intervals) (cs : Classes) : Prop where
  ok : ∀ l c, cs.classes l = some c → ClassOk f bl ivs c
  self : ∀ l c, cs.classes l = some c → l ∈ c.members
  root : ∀ l c m, cs.classes l = some c → m ∈ c.members → cs.leader m = l
  led : ∀ v l, cs.leaderOf v = some l → ∃ c, cs.classes l = some c ∧ v ∈ c.members

/-- Dropping the classes of one member loses nothing: such a member leads itself. -/
lemma BuildInv.retain (hinv : BuildInv f bl ivs cand st) : ClassesOk f bl ivs st.cs.retain := by
  have hclasses : ∀ {l c}, st.cs.retain.classes l = some c ↔
      st.cs.classes l = some c ∧ 1 < c.members.length := by
    intro l c
    change (st.cs.classes l).filter _ = some c ↔ _
    rw [Option.filter_eq_some_iff, decide_eq_true_eq]
  have hleader : ∀ {v l}, st.cs.retain.leaderOf v = some l ↔
      st.cs.leaderOf v = some l ∧ (st.cs.retain.classes l).isSome := by
    intro v l
    change (st.cs.leaderOf v).filter _ = some l ↔ _
    rw [Option.filter_eq_some_iff]
    rfl
  refine ⟨fun l c hc => hinv.ok l c (hclasses.mp hc).1, fun l c hc => hinv.self l c (hclasses.mp hc).1,
    fun l c m hc hm => ?_, fun v l hl => ?_⟩
  · have hml := hinv.root l c m (hclasses.mp hc).1 hm
    cases hlead : st.cs.leaderOf m with
    | some l' =>
      obtain rfl : l' = l := by rwa [Classes.leader, hlead] at hml
      rw [Classes.leader, hleader.mpr ⟨hlead, by rw [hc]; rfl⟩, Option.getD_some]
    | none =>
      have hnone : st.cs.retain.leaderOf m = none := by
        cases hr : st.cs.retain.leaderOf m with
        | none => rfl
        | some l' => exact absurd (hlead.symm.trans (hleader.mp hr).1) nofun
      rw [Classes.leader, hnone, Option.getD_none]
      rwa [Classes.leader, hlead, Option.getD_none] at hml
  · obtain ⟨hlead, hsome⟩ := hleader.mp hl
    obtain ⟨c, hc⟩ := Option.isSome_iff_exists.mp hsome
    obtain ⟨c', hc', hv⟩ := hinv.led v l hlead
    obtain rfl := Option.some.inj (hc'.symm.trans (hclasses.mp hc).1)
    exact ⟨c', hc, hv⟩

/-- **`build_copy_classes` builds sound classes.** -/
theorem buildCopyClasses_ok (hvis : f.visitable = true) (h : LiveSets f bl)
    (excluded : List ValueId) (callSites : List ℕ) (switches : Switches) :
    ClassesOk f bl ivs
      (buildCopyClasses f ivs bl excluded callSites (widenedLoads f) switches) := by
  have hclasses : ∀ {l c}, Classes.empty.classes l ≠ some c := Option.some_ne_none _ |>.symm
  have hleader : ∀ {v l}, Classes.empty.leaderOf v ≠ some l := Option.some_ne_none _ |>.symm
  have hempty : ClassesOk f bl ivs Classes.empty :=
    ⟨fun _ _ hc => absurd hc hclasses, fun _ _ hc => absurd hc hclasses,
      fun _ _ _ hc => absurd hc hclasses, fun _ _ hl => absurd hl hleader⟩
  rw [buildCopyClasses]
  by_cases hoff : switches.coalesceOff = true
  · rw [if_pos hoff]
    exact hempty
  rw [if_neg hoff]
  set copies := collectCopies f ivs excluded (widenedLoads f) with hcopies
  dsimp only
  by_cases hnil : copies.isEmpty = true
  · rw [if_pos hnil]
    exact hempty
  rw [if_neg hnil]
  set cand : ValueId → Bool := fun v => copies.any fun c => c.w = v || c.v = v with hcand
  have hrun : ∀ (l : List Copy) (st : Build), (∀ c ∈ l, c ∈ copies) → BuildInv f bl ivs cand st →
      BuildInv f bl ivs cand
        (l.foldl (Build.copy ivs (!switches.coalesceLiveOff) callSites) st) := by
    intro l
    induction l with
    | nil => exact fun _ _ hst => hst
    | cons c l ih =>
      intro st hl hst
      have hc := hl c List.mem_cons_self
      obtain ⟨⟨inst, hinst, hcopy⟩, hvals⟩ := mem_collectCopies hvis hc
      obtain ⟨⟨itw, hitw⟩, hwp⟩ := hvals c.w (Or.inl rfl)
      obtain ⟨⟨itv, hitv⟩, hvp⟩ := hvals c.v (Or.inr rfl)
      have hw : cand c.w = true := List.any_eq_true.mpr ⟨c, hc, by simp⟩
      have hv : cand c.v = true := List.any_eq_true.mpr ⟨c, hc, by simp⟩
      exact ih _ (fun c' hc' => hl c' (List.mem_cons_of_mem _ hc'))
        (hst.copy h hw hv hitw hitv hwp hvp hinst hcopy)
  refine (hrun copies _ (fun _ hc => hc)
    ⟨hempty.ok, hempty.self, hempty.root, hempty.led, fun v hv _ _ => ?_⟩).retain
  exact liveSegments_spec f bl hv

end Loop

/-- Two values with one leader agree. -/
lemma ClassesOk.agree {f : Func} {bl : BlockLiveness} {ivs : Intervals} {cs : Classes}
    (hcs : ClassesOk f bl ivs cs) {v w : ValueId} (hvw : cs.leader v = cs.leader w) :
    f.Agree v w := by
  cases hv : cs.leaderOf v with
  | none =>
    cases hw : cs.leaderOf w with
    | none =>
      obtain rfl : v = w := by rwa [Classes.leader, Classes.leader, hv, hw] at hvw
      exact Func.Agree.refl f v
    | some l =>
      obtain rfl : v = l := by rwa [Classes.leader, Classes.leader, hv, hw] at hvw
      obtain ⟨c, hc, hmem⟩ := hcs.led w v hw
      exact (hcs.ok v c hc).agree v (hcs.self v c hc) w hmem
  | some l =>
    obtain ⟨c, hc, hmem⟩ := hcs.led v l hv
    have hlv : cs.leader v = l := by rw [Classes.leader, hv, Option.getD_some]
    cases hw : cs.leaderOf w with
    | none =>
      obtain rfl : l = w := by rwa [Classes.leader, Classes.leader, hv, hw] at hvw
      exact (hcs.ok l c hc).agree v hmem l (hcs.self l c hc)
    | some l' =>
      obtain rfl : l = l' := by rwa [Classes.leader, Classes.leader, hv, hw] at hvw
      obtain ⟨c', hc', hmem'⟩ := hcs.led w l hw
      obtain rfl := Option.some.inj (hc.symm.trans hc')
      exact (hcs.ok l c hc).agree v hmem w hmem'

/-- **Coalescing never merges live values**: two values of one class hold the same wherever
both are live, on every run. -/
theorem buildCopyClasses_agree {f : Func} {ivs : Intervals} {bl : BlockLiveness}
    (hlive : computeLiveness f = some (ivs, bl)) {excluded : List ValueId} {callSites : List ℕ}
    {switches : Switches} {v w : ValueId}
    (hvw : (buildCopyClasses f ivs bl excluded callSites (widenedLoads f) switches).leader v =
      (buildCopyClasses f ivs bl excluded callSites (widenedLoads f) switches).leader w)
    {c : Config} (hc : f.Reachable c) (hv : f.LiveAt v c.point) (hw : f.LiveAt w c.point)
    {m n : ℕ} (hm : c.env v = some m) (hn : c.env w = some n) : m = n := by
  have hvis : f.visitable = true := by
    by_contra hvis
    rw [computeLiveness, if_neg hvis] at hlive
    cases hlive
  obtain ⟨_, _, hlive', hsets, _⟩ := computeLiveness_spec hvis
  cases hlive.symm.trans hlive'
  exact (buildCopyClasses_ok hvis hsets excluded callSites switches).agree hvw c hc hv hw m n hm hn

/-! ### A copy and its source, both live -/

/-- `v1 = v0 + v0; v2 = copy v1; v3 = v1 + v2; ret v3`. -/
def copyFn : Func where
  name := "f"
  params := [0]
  blocks := [
    { id := 0
      insts := [
        ⟨some 1, .binOp .add (.value 0) (.value 0)⟩,
        ⟨some 2, .copy .i64 (.value 1)⟩,
        ⟨some 3, .binOp .add (.value 1) (.value 2)⟩]
      term := .ret (some (.value 3)) }]
  values := [.i64, .i64, .i64, .i64]

/-- Its intervals and block live sets. -/
def copyLive : Intervals × BlockLiveness :=
  (computeLiveness copyFn).getD
    (fun _ => none, ⟨fun _ => 0, fun _ => 0, fun _ => [], fun _ => []⟩)

/-- Its classes. -/
def copyClasses : Classes :=
  buildCopyClasses copyFn copyLive.1 copyLive.2 [] [] (widenedLoads copyFn) ⟨false, false⟩

/-- The registers where the sum reads its operands, called with 5. -/
def copyEnv : Env :=
  Function.update (Function.update (fun v => if v = 0 then some 5 else none) 1 (some 10)) 2 (some 10)

lemma copyFn_reachable : copyFn.Reachable ⟨⟨0, 2, false⟩, copyEnv⟩ := by
  have hkeep : ∀ (i k : ℕ) (env : Env), copyFn.Writes ⟨i, k, false⟩ env env := fun i k env =>
    .keep fun v hv => absurd hv.1 Bool.false_ne_true
  have h₀ : copyFn.Reachable ⟨entryPoint, fun v => if v = 0 then some 5 else none⟩ := by
    refine .entry fun v => ?_
    by_cases hv : v = 0 <;> simp [hv, copyFn]
  have hsum : copyFn.instAt ⟨0, 0, true⟩ = some ⟨some 1, .binOp .add (.value 0) (.value 0)⟩ := rfl
  have hcopy : copyFn.instAt ⟨0, 1, true⟩ = some ⟨some 2, .copy .i64 (.value 1)⟩ := rfl
  have h₁ := h₀.step (.write rfl (Nat.zero_le 3)) (.define (n := 10) rfl hsum rfl trivial)
  have h₂ := (h₁.step (.next rfl (by decide)) (hkeep _ _ _)).step (.write rfl (by decide))
    (.define (n := 10) rfl hcopy rfl rfl)
  exact h₂.step (.next rfl (by decide)) (hkeep _ _ _)

/-- The sum reads a copy and its source from one register: both hold 10. -/
theorem buildCopyClasses_agree_copy :
    copyClasses.leader 1 = copyClasses.leader 2 ∧ copyFn.LiveAt 1 ⟨0, 2, false⟩ ∧
      copyFn.LiveAt 2 ⟨0, 2, false⟩ ∧ (10 : ℕ) = 10 := by
  have hlead : copyClasses.leader 1 = copyClasses.leader 2 := by decide +kernel
  have h₁ : copyFn.LiveAt 1 ⟨0, 2, false⟩ := .use ⟨rfl, _, rfl, by decide⟩
  have h₂ : copyFn.LiveAt 2 ⟨0, 2, false⟩ := .use ⟨rfl, _, rfl, by decide⟩
  have hlive : computeLiveness copyFn = some (copyLive.1, copyLive.2) := rfl
  exact ⟨hlead, h₁, h₂, buildCopyClasses_agree hlive hlead copyFn_reachable h₁ h₂ rfl rfl⟩

end Torajs.Regalloc
