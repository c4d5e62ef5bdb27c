import Mathlib.Data.List.Nodup
import Mathlib.Data.Nat.Bitwise
import ToraJs.Lib.DepthFirst

/-!
# The control flow graph and its reverse postorder

The part of `ssa::Function` that dominator analysis reads, the successor and predecessor
tables, and `reverse_postorder`, whose stack marks an entry to finish by the top bit of a
32-bit block id.  For block ids below that bit the loop is the depth-first search of
`Lib/DepthFirst`.

Tables indexed by block id are functions; `vec![MISSING; n]` is the constant one.
-/

namespace Torajs.Dominator

/-- `ssa::BlockId`. -/
abbrev BlockId := ℕ

/-- `ssa::Terminator`, without the operands. -/
inductive Terminator where
  | br (b : BlockId)
  | condBr (thenBlk elseBlk : BlockId)
  | ret
  | unreachable
  deriving DecidableEq, Repr

/-- `ssa::Block`, without the instructions. -/
structure Block where
  id : BlockId
  term : Terminator
  deriving DecidableEq, Repr

/-- `ssa::Function`: its name and its blocks in layout order, the entry first. -/
structure Function where
  name : String
  blocks : List Block

/-- `dominator::targets`. -/
def targets : Terminator → List BlockId
  | .br b => [b]
  | .condBr thenBlk elseBlk => [thenBlk, elseBlk]
  | .ret | .unreachable => []

/-- `dominator::id_span`: one past the largest block id. -/
def idSpan (f : Function) : ℕ := (f.blocks.map fun b => b.id + 1).foldr max 0

/-- The two slots of a block in the successor table. -/
abbrev Slots := Option BlockId × Option BlockId

/-- The inner loop of `successor_table`: a target within the id span takes its slot. -/
def fillSlots (n : ℕ) (slots : Slots) : List BlockId → Slots
  | [] => slots
  | [t] => (if t < n then some t else slots.1, slots.2)
  | t :: e :: _ => (if t < n then some t else slots.1, if e < n then some e else slots.2)

/-- `successor_table`. -/
def successorTable (f : Function) (n : ℕ) : BlockId → Slots :=
  f.blocks.foldl
    (fun succ b => Function.update succ b.id (fillSlots n (succ b.id) (targets b.term)))
    fun _ => (none, none)

/-- The used slots, in order. -/
def slotList (slots : Slots) : List BlockId := slots.1.toList ++ slots.2.toList

/-- `lists::predecessors`: each block's list in layout order, an edge each. -/
def predecessors (f : Function) (n : ℕ) (i : BlockId) : List BlockId :=
  f.blocks.flatMap fun b => ((targets b.term).filter fun t => t < n ∧ t = i).map fun _ => b.id

/-- `FINAL`: the mark of a stack entry to finish. -/
def finalMark : ℕ := 1 <<< 31

/-- The loop of `reverse_postorder`; the finished blocks are kept last one first, so that
the last `reverse` is already done. -/
def rpoLoop (succ : BlockId → Slots) :
    ℕ → List ℕ → (BlockId → Bool) → List BlockId → Option (List BlockId)
  | _, [], _, post => some post
  | 0, _ :: _, _, _ => none
  | fuel + 1, top :: stack, visited, post =>
    if top &&& finalMark ≠ 0 then
      rpoLoop succ fuel stack visited ((top &&& (finalMark - 1)) :: post)
    else if visited top then rpoLoop succ fuel stack visited post
    else
      let visited' := Function.update visited top true
      let pushed := (slotList (succ top)).filter fun t => !visited' t
      rpoLoop succ fuel (pushed.reverse ++ (top ||| finalMark) :: stack) visited' post

/-- `reverse_postorder`.  A block is pushed once to finish and at most twice to visit. -/
def reversePostorder (f : Function) (succ : BlockId → Slots) (entry : BlockId) :
    Option (List BlockId) :=
  rpoLoop succ (3 * f.blocks.length + 1) [entry] (fun _ => false) []

/-! ### Well-formed graphs -/

/-- The graph's edges. -/
def Edge (f : Function) (b c : BlockId) : Prop := ∃ blk ∈ f.blocks, blk.id = b ∧ c ∈ targets blk.term

/-- What the builder and the passes keep: there is an entry, block ids are distinct, and
branches go to blocks. -/
structure WellFormed (f : Function) : Prop where
  nonempty : f.blocks ≠ []
  nodup : (f.blocks.map Block.id).Nodup
  target : ∀ blk ∈ f.blocks, ∀ t ∈ targets blk.term, t ∈ f.blocks.map Block.id

/-- The block ids leave the mark's bit free. -/
def IdsFit (f : Function) : Prop := ∀ blk ∈ f.blocks, blk.id < finalMark

/-- The entry block's id. -/
def entryId (f : Function) : BlockId := ((f.blocks.head?).map Block.id).getD 0

lemma WellFormed.entry_mem {f : Function} (h : WellFormed f) : entryId f ∈ f.blocks.map Block.id := by
  rw [entryId]
  cases hb : f.blocks with
  | nil => exact absurd hb h.nonempty
  | cons b rest => simp

lemma lt_idSpan {f : Function} {b : BlockId} (h : b ∈ f.blocks.map Block.id) : b < idSpan f := by
  rw [idSpan]
  generalize f.blocks = blocks at h
  induction blocks with
  | nil => cases h
  | cons blk rest ih =>
    rw [List.map_cons, List.foldr_cons]
    rw [List.map_cons, List.mem_cons] at h
    rcases h with rfl | h
    · exact Nat.lt_of_lt_of_le (Nat.lt_succ_self _) (le_max_left _ _)
    · exact Nat.lt_of_lt_of_le (ih h) (le_max_right _ _)

lemma length_targets_le (term : Terminator) : (targets term).length ≤ 2 := by
  cases term <;> simp [targets]

lemma slotList_fillSlots {n : ℕ} {ts : List BlockId} (hlen : ts.length ≤ 2) (hts : ∀ t ∈ ts, t < n) :
    slotList (fillSlots n (none, none) ts) = ts := by
  match ts, hlen with
  | [], _ => rfl
  | [t], _ => simp [fillSlots, slotList, hts t (by simp)]
  | [t, e], _ => simp [fillSlots, slotList, hts t (by simp), hts e (by simp)]

/-- Under distinct ids every block's slots are its own targets. -/
lemma foldl_slots {n : ℕ} {blocks : List Block} (hnd : (blocks.map Block.id).Nodup) :
    ∀ (init : BlockId → Slots) (b : BlockId),
      blocks.foldl
        (fun succ b => Function.update succ b.id (fillSlots n (succ b.id) (targets b.term))) init b =
      match blocks.find? fun blk => blk.id = b with
      | some blk => fillSlots n (init b) (targets blk.term)
      | none => init b := by
  induction blocks with
  | nil => exact fun _ _ => rfl
  | cons blk rest ih =>
    intro init b
    obtain ⟨hnotin, hnd'⟩ := List.nodup_cons.mp hnd
    rw [List.foldl_cons, ih hnd', List.find?_cons]
    by_cases hb : blk.id = b
    · have hnone : (rest.find? fun blk => blk.id = b) = none := by
        rw [List.find?_eq_none]
        rintro blk' hblk' heq
        have heq : blk'.id = b := by simpa using heq
        exact hnotin (List.mem_map.mpr ⟨blk', hblk', heq.trans hb.symm⟩)
      simp [hb, hnone]
    · have hne : b ≠ blk.id := Ne.symm hb
      simp only [hb, decide_false, Function.update_of_ne hne]

lemma slotList_successorTable {f : Function} (h : WellFormed f) {blk : Block}
    (hblk : blk ∈ f.blocks) :
    slotList (successorTable f (idSpan f) blk.id) = targets blk.term := by
  have hfind : f.blocks.find? (fun b => b.id = blk.id) = some blk := by
    cases hf : f.blocks.find? fun b => b.id = blk.id with
    | none => exact absurd (by simp) (List.find?_eq_none.mp hf blk hblk)
    | some b =>
      have hid : b.id = blk.id := by simpa using List.find?_some hf
      rw [List.inj_on_of_nodup_map h.nodup (List.mem_of_find?_eq_some hf) hblk hid]
  rw [successorTable, foldl_slots h.nodup, hfind]
  exact slotList_fillSlots (length_targets_le _) fun t ht => lt_idSpan (h.target blk hblk t ht)

lemma slotList_of_notMem {f : Function} (h : WellFormed f) {b : BlockId}
    (hb : b ∉ f.blocks.map Block.id) : slotList (successorTable f (idSpan f) b) = [] := by
  have hfind : f.blocks.find? (fun blk => blk.id = b) = none := by
    rw [List.find?_eq_none]
    intro blk hblk heq
    exact hb (List.mem_map.mpr ⟨blk, hblk, by simpa using heq⟩)
  rw [successorTable, foldl_slots h.nodup, hfind]
  rfl

/-- The successor table holds the edges. -/
lemma mem_successors_iff {f : Function} (h : WellFormed f) {b c : BlockId} :
    c ∈ slotList (successorTable f (idSpan f) b) ↔ Edge f b c := by
  constructor
  · intro hc
    by_cases hb : b ∈ f.blocks.map Block.id
    · obtain ⟨blk, hblk, rfl⟩ := List.mem_map.mp hb
      rw [slotList_successorTable h hblk] at hc
      exact ⟨blk, hblk, rfl, hc⟩
    · rw [slotList_of_notMem h hb] at hc
      cases hc
  · rintro ⟨blk, hblk, rfl, hc⟩
    rwa [slotList_successorTable h hblk]

/-- The predecessor lists hold the edges. -/
lemma mem_predecessors_iff {f : Function} (h : WellFormed f) {b c : BlockId} :
    b ∈ predecessors f (idSpan f) c ↔ Edge f b c := by
  rw [predecessors, List.mem_flatMap]
  constructor
  · rintro ⟨blk, hblk, hb⟩
    obtain ⟨t, ht, rfl⟩ := List.mem_map.mp hb
    obtain ⟨ht, hcond⟩ := List.mem_filter.mp ht
    have hcond : t < idSpan f ∧ t = c := by simpa using hcond
    exact ⟨blk, hblk, rfl, hcond.2 ▸ ht⟩
  · rintro ⟨blk, hblk, rfl, hc⟩
    refine ⟨blk, hblk, List.mem_map.mpr ⟨c, List.mem_filter.mpr ⟨hc, ?_⟩, rfl⟩⟩
    simpa using lt_idSpan (h.target blk hblk c hc)

/-! ### The loop is a depth-first search -/

open DepthFirst (Item)

/-- A stack entry as the source keeps it. -/
def encode : Item BlockId → ℕ
  | .visit v => v
  | .final v => v ||| finalMark

lemma and_finalMark {v : ℕ} (h : v < finalMark) : v &&& finalMark = 0 := by
  have hpow : finalMark = 2 ^ 31 := rfl
  rw [hpow] at h ⊢
  rw [Nat.and_two_pow, Nat.testBit_lt_two_pow h]
  rfl

lemma or_finalMark_and {v : ℕ} (h : v < finalMark) :
    (v ||| finalMark) &&& finalMark ≠ 0 ∧ (v ||| finalMark) &&& (finalMark - 1) = v := by
  have hpow : finalMark = 2 ^ 31 := rfl
  rw [hpow] at h ⊢
  constructor
  · rw [Nat.and_two_pow, Nat.testBit_or, Nat.testBit_two_pow_self, Bool.or_true]
    decide
  · rw [Nat.and_two_pow_sub_one_eq_mod, Nat.or_mod_two_pow, Nat.mod_self, Nat.or_zero,
      Nat.mod_eq_of_lt h]

/-- For ids below the mark the loop is the depth-first search on decoded entries. -/
lemma rpoLoop_eq_search {succ : BlockId → Slots}
    (hsucc : ∀ b, ∀ t ∈ slotList (succ b), t < finalMark) (fuel : ℕ) :
    ∀ (stack : List (Item BlockId)) (visited : BlockId → Bool) (post : List BlockId),
      (∀ x ∈ stack, x.node < finalMark) →
      rpoLoop succ fuel (stack.map encode) visited post =
        DepthFirst.search (fun b => slotList (succ b)) fuel stack visited post := by
  induction fuel with
  | zero =>
    intro stack visited post _
    cases stack <;> rfl
  | succ fuel ih =>
    intro stack visited post hstack
    cases stack with
    | nil => rfl
    | cons x stack =>
      have hx : x.node < finalMark := hstack x List.mem_cons_self
      have hrest : ∀ y ∈ stack, y.node < finalMark := fun y hy =>
        hstack y (List.mem_cons_of_mem _ hy)
      cases x with
      | final v =>
        have hv : v < finalMark := hx
        obtain ⟨hmark, hid⟩ := or_finalMark_and hv
        rw [List.map_cons, encode, rpoLoop, if_pos hmark, hid, DepthFirst.search]
        exact ih stack visited _ hrest
      | visit v =>
        have hmark : ¬ v &&& finalMark ≠ 0 := not_not.mpr (and_finalMark hx)
        rw [List.map_cons, encode, rpoLoop, if_neg hmark, DepthFirst.search]
        split_ifs
        · exact ih stack visited post hrest
        · rw [← ih _ _ _ ?_]
          · simp [encode, Function.comp_def, List.map_reverse]
          · intro y hy
            rcases List.mem_append.mp hy with hy | hy
            · obtain ⟨t, ht, rfl⟩ := List.mem_map.mp hy
              exact hsucc v t (List.mem_filter.mp (List.mem_reverse.mp ht)).1
            · rcases List.mem_cons.mp hy with rfl | hy
              · exact hx
              · exact hrest y hy

open Dominance (Reachable)

/-- The reachable blocks, the entry first, every other block after a predecessor. -/
structure IsRpo (f : Function) (rpo : List BlockId) : Prop where
  nodup : rpo.Nodup
  head : rpo.head? = some (entryId f)
  mem_iff : ∀ b, b ∈ rpo ↔ Reachable (Edge f) (entryId f) b
  pred : ∀ A b B, rpo = A ++ b :: B → A ≠ [] → ∃ p ∈ A, Edge f p b

/-- **`reverse_postorder` returns a reverse postorder.** -/
theorem reversePostorder_spec {f : Function} (h : WellFormed f) (hfit : IdsFit f) :
    ∃ rpo, reversePostorder f (successorTable f (idSpan f)) (entryId f) = some rpo ∧
      IsRpo f rpo := by
  set succ := fun b => slotList (successorTable f (idSpan f) b) with hsuccdef
  have hmem : ∀ {b c}, c ∈ succ b ↔ Edge f b c := mem_successors_iff h
  have htarget : ∀ b, ∀ t ∈ succ b, t ∈ f.blocks.map Block.id := by
    intro b t ht
    obtain ⟨blk, hblk, _, ht⟩ := hmem.mp ht
    exact h.target blk hblk t ht
  have hlt : ∀ {b}, b ∈ f.blocks.map Block.id → b < finalMark := by
    intro b hb
    obtain ⟨blk, hblk, rfl⟩ := List.mem_map.mp hb
    exact hfit blk hblk
  have hwork : DepthFirst.work succ (f.blocks.map Block.id) (fun _ => false) + 1 ≤
      3 * f.blocks.length + 1 := by
    have hsum : ∀ blocks : List Block, (∀ blk ∈ blocks, blk ∈ f.blocks) →
        DepthFirst.work succ (blocks.map Block.id) (fun _ => false) ≤ 3 * blocks.length := by
      intro blocks
      induction blocks with
      | nil => exact fun _ => le_rfl
      | cons blk rest ih =>
        intro hsub
        have hlen : (succ blk.id).length ≤ 2 := by
          rw [hsuccdef]
          dsimp only
          rw [slotList_successorTable h (hsub blk List.mem_cons_self)]
          exact length_targets_le _
        have hrest := ih fun b hb => hsub b (List.mem_cons_of_mem _ hb)
        simp only [DepthFirst.work, List.map_cons, List.sum_cons, Bool.false_eq_true, if_false,
          List.length_cons] at hrest ⊢
        omega
    have := hsum f.blocks fun _ hb => hb
    omega
  obtain ⟨order, hrun, hspec⟩ := DepthFirst.search_root (fun b _ t ht => htarget b t ht)
    h.entry_mem hwork
  refine ⟨order, ?_, hspec.nodup, hspec.head, fun b => ?_, fun A b B heq hA => ?_⟩
  · have hloop := rpoLoop_eq_search (fun b t ht => hlt (htarget b t ht))
      (3 * f.blocks.length + 1) [.visit (entryId f)] (fun _ => false) [] (by
        intro x hx
        obtain rfl : x = .visit (entryId f) := by simpa using hx
        exact hlt h.entry_mem)
    exact hloop.trans hrun
  · have hedge : (fun b c => c ∈ succ b) = Edge f := by
      funext b c
      exact propext hmem
    rw [hspec.mem_iff b, hedge]
  · obtain ⟨p, hp, hb⟩ := hspec.pred A b B heq hA
    exact ⟨p, hp, hmem.mp hb⟩

end Torajs.Dominator
