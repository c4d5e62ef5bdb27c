import Mathlib.Data.BitVec
import ToraJs.Egraph.CtpopMatch
import ToraJs.Lib.BitCount

/-!
# When the population count rewrite is exact

The loop clears the lowest set bit of `n` until none is left, so it leaves `n` zero and adds
the number of bits to `c`; the rewritten header does the same to `c`, and to `n` only where
some other block reads it.  A run of the rewritten function follows a run of the original
from loop to loop, on the values live there.

`n` may be live behind the loop although no other block reads it: where an enclosing loop
leads back to the header.  There the two differ, and only there.
-/

namespace Torajs.Egraph

open Simulation BitCount

variable {World : Type} {X : External World} {f g : Func}

/-! ### The loop's body -/

/-- The registers behind `k` instructions of the body. -/
structure BodyState (p : Places) (n t m c2 c : ValueId) (k : ℕ) (ρ ρ' : ValueId → Word) : Prop where
  t_eq : p.sub < k → ρ' t = ρ n - 1
  m_eq : p.and < k → ρ' m = ρ n &&& (ρ n - 1)
  n_eq : ρ' n = if p.copyN < k then ρ n &&& (ρ n - 1) else ρ n
  c2_eq : p.add < k → ρ' c2 = ρ c + 1
  c_eq : ρ' c = if p.copyC < k then ρ c + 1 else ρ c
  other : ∀ x, x ∉ [n, t, m, c2, c] → ρ' x = ρ x

section Body

variable {header : BlockId} {n t m c2 c : ValueId} {p : Places} {bb : Block} {k : ℕ}
  {ρ ρ' : ValueId → Word}

/-- What the instruction at a place writes. -/
def Writes (p : Places) (n t m c2 c : ValueId) (k : ℕ) (ρ : ValueId → Word) (r : ValueId)
    (x : Word) : Prop :=
  k = p.sub ∧ r = t ∧ x = ρ n - 1 ∨ k = p.and ∧ r = m ∧ x = ρ n &&& (ρ n - 1) ∨
  k = p.copyN ∧ r = n ∧ x = ρ n &&& (ρ n - 1) ∨ k = p.add ∧ r = c2 ∧ x = ρ c + 1 ∨
  k = p.copyC ∧ r = c ∧ x = ρ c + 1

lemma BodyState.write (hord : Ordered n t m c2 c p) (hnd : p.toList.Nodup)
    (h : BodyState p n t m c2 c k ρ ρ') {r : ValueId} {x : Word}
    (hw : Writes p n t m c2 c k ρ r x) :
    BodyState p n t m c2 c (k + 1) ρ (Function.update ρ' r x) := by
  have hvalues := hord.values
  simp only [Places.toList, List.nodup_cons, List.mem_cons, List.not_mem_nil, or_false, not_or,
    not_false_eq_true, List.nodup_nil, and_true] at hnd hvalues
  obtain ⟨ht, hm, hn, hc2, hc, hother⟩ := h
  rcases hw with ⟨rfl, rfl, rfl⟩ | ⟨rfl, rfl, rfl⟩ | ⟨rfl, rfl, rfl⟩ | ⟨rfl, rfl, rfl⟩ | ⟨rfl, rfl, rfl⟩
  all_goals
    constructor <;> grind [Function.update]

/-- The operands of the instruction at each place hold what it writes from. -/
lemma BodyState.computes (hord : Ordered n t m c2 c p) (hk : IsKernighan bb header n t m c2 c p)
    (h : BodyState p n t m c2 c k ρ ρ') (hlt : k < 5) :
    ∃ r kind x, bb.insts[k]? = some ⟨some r, kind⟩ ∧
      kind.pureValue (wordInterp X) ρ' = some x ∧ Writes p n t m c2 c k ρ r x := by
  have hplace := hk.mem_places hlt
  simp only [Places.toList, List.mem_cons, List.not_mem_nil, or_false] at hplace
  obtain ⟨andKind, hand, hisAnd⟩ := hk.and
  obtain ⟨addKind, hadd, hup⟩ := hk.add
  have h₁ := hord.sub_and
  have h₂ := hord.and_copyN
  have h₃ := hord.add_copyC
  have hn : k ≤ p.copyN → ρ' n = ρ n := fun hle => by
    rw [h.n_eq, if_neg (Nat.not_lt.mpr hle)]
  have hc : k ≤ p.copyC → ρ' c = ρ c := fun hle => by
    rw [h.c_eq, if_neg (Nat.not_lt.mpr hle)]
  rcases hplace with rfl | rfl | rfl | rfl | rfl
  · refine ⟨_, _, ρ' n - 1, hk.sub, rfl, Or.inl ⟨rfl, rfl, ?_⟩⟩
    rw [hn (by omega)]
  · refine ⟨_, _, ρ' n &&& ρ' t, hand, ?_, Or.inr (Or.inl ⟨rfl, rfl, ?_⟩)⟩
    · rcases hisAnd with rfl | rfl
      · rfl
      · rw [BitVec.and_comm]
        rfl
    · rw [hn (by omega), h.t_eq h₁]
  · refine ⟨_, _, ρ' m, hk.copyN, rfl, Or.inr (Or.inr (Or.inl ⟨rfl, rfl, ?_⟩))⟩
    rw [h.m_eq h₂]
  · refine ⟨_, _, ρ' c + 1, hadd, ?_, Or.inr (Or.inr (Or.inr (Or.inl ⟨rfl, rfl, ?_⟩)))⟩
    · rcases countUp_eq hup with rfl | rfl
      · rfl
      · rw [BitVec.add_comm]
        rfl
    · rw [hc (by omega)]
  · refine ⟨_, _, ρ' c2, hk.copyC, rfl, Or.inr (Or.inr (Or.inr (Or.inr ⟨rfl, rfl, ?_⟩)))⟩
    rw [h.c2_eq h₃]

end Body

/-! ### Runs of the loop -/

/-- **One pass through the body.** -/
lemma body_run {b e header : BlockId} {n t m c2 c : ValueId} {p : Places} {bb : Block}
    (hord : Ordered n t m c2 c p) (hk : IsKernighan bb header n t m c2 c p) (hblk : f.BlockAt b bb)
    (hb : b ≠ e) (ρ : ValueId → Word) (w : World) (k : ℕ) (hle : k ≤ 5) :
    ∃ ρ', Silent (f.next (wordInterp X)) (obsAt e) ⟨.point b 0, ρ, w⟩ ⟨.point b k, ρ', w⟩ ∧
      BodyState p n t m c2 c k ρ ρ' := by
  induction k with
  | zero =>
    exact ⟨ρ, Silent.refl _, fun h => absurd h (Nat.not_lt_zero _),
      fun h => absurd h (Nat.not_lt_zero _), (if_neg (Nat.not_lt_zero _)).symm,
      fun h => absurd h (Nat.not_lt_zero _), (if_neg (Nat.not_lt_zero _)).symm, fun _ _ => rfl⟩
  | succ k ih =>
    obtain ⟨ρ', hsilent, hstate⟩ := ih (Nat.le_of_succ_le hle)
    obtain ⟨r, kind, x, hinst, hx, hw⟩ := hstate.computes (X := X) hord hk hle
    have hstep := Func.next_point (I := wordInterp X) (k := k) (ρ := ρ') (w := w) hblk
    rw [Block.next_inst hinst (Inst.run_of_pureValue hx)] at hstep
    exact ⟨_, hsilent.trans (Silent.cons hstep (obsAt_point hb hb) (Silent.refl _)),
      hstate.write hord hk.nodup hw⟩

lemma popCount_eq (x : Word) : popCount x = bitCount 64 x.toNat := rfl

/-- Clearing the lowest set bit lowers the count by one. -/
lemma popCount_and_pred {x : Word} (hx : x ≠ 0) : popCount (x &&& (x - 1)) + 1 = popCount x := by
  have hpos : 0 < x.toNat := Nat.pos_of_ne_zero fun h => hx (BitVec.eq_of_toNat_eq (by simpa using h))
  have hsub : (x - 1).toNat = x.toNat - 1 := by
    rw [BitVec.toNat_sub_of_le]
    · rfl
    · exact BitVec.le_def.mpr hpos
  rw [popCount_eq, popCount_eq, BitVec.toNat_and, hsub]
  exact bitCount_and_pred hpos x.isLt

namespace Kernighan

variable {l : MatchedLoop} {cmp t m c2 : ValueId} {hb bb : Block} {p : Places}

/-- The header tests `n`. -/
lemma header_run (hk : Kernighan f l cmp t m c2 hb bb p) (ρ : ValueId → Word) (w : World) :
    ∃ ρ', Silent (f.next (wordInterp X)) (obsAt l.exit) ⟨.point l.header 0, ρ, w⟩
        ⟨.point l.header 1, ρ', w⟩ ∧
      f.next (wordInterp X) ⟨.point l.header 1, ρ', w⟩ =
        some ⟨.point (if ρ l.nCell ≠ 0 then l.body else l.exit) 0, ρ', w⟩ ∧
      ∀ x, x ≠ cmp → ρ' x = ρ x := by
  have hinst : hb.insts[0]? = some ⟨some cmp, .iCmp .ne (.value l.nCell) (.constI64 0)⟩ := by
    rw [hk.header_insts]
    rfl
  have hend : hb.insts[1]? = none := by
    rw [hk.header_insts]
    rfl
  have hx : (InstKind.iCmp .ne (.value l.nCell) (.constI64 0)).pureValue (wordInterp X) ρ =
      some (wordOfBool (ρ l.nCell ≠ 0)) := rfl
  have hstep := Func.next_point (I := wordInterp X) (k := 0) (ρ := ρ) (w := w) hk.headerAt
  rw [Block.next_inst hinst (Inst.run_of_pureValue hx)] at hstep
  refine ⟨_, Silent.cons hstep (obsAt_point hk.exit_ne.1.symm hk.exit_ne.1.symm) (Silent.refl _),
    ?_, fun x hne => Inst.write_ne (fun h => hne (Option.some.inj h).symm) _ _⟩
  rw [Func.next_point hk.headerAt, Block.next_term hend, hk.header_term]
  have hcond : (Inst.write ⟨some cmp, .iCmp .ne (.value l.nCell) (.constI64 0)⟩ ρ
      (wordOfBool (ρ l.nCell ≠ 0))) cmp = wordOfBool (ρ l.nCell ≠ 0) := Inst.write_self rfl _ _
  have htarget : ∀ b : Bool, ((wordOfBool b : Word) ≠ 0) ↔ b = true := by decide
  rw [Terminator.target, Operand.eval, hcond]
  change some (Config.mk (.point (if decide (wordOfBool (ρ l.nCell ≠ 0) ≠ 0) = true then _ else _) 0)
    _ _) = _
  simp only [htarget, decide_eq_true_eq]

/-- **The loop counts the bits of `n`**: by induction on their number. -/
lemma loop_run (hk : Kernighan f l cmp t m c2 hb bb p) (hwf : f.WellFormed) (hent : l.Entered f)
    (w : World) (count : ℕ) : ∀ ρ : ValueId → Word, popCount (ρ l.nCell) = count →
      ∃ ρ', Segment (f.next (wordInterp X)) (obsAt l.exit) ⟨.point l.header 0, ρ, w⟩
          ⟨.point l.exit 0, ρ', w⟩ ∧
        ρ' l.nCell = 0 ∧ ρ' l.cCell = ρ l.cCell + BitVec.ofNat 64 count ∧
        ∀ x, x ∉ [cmp, l.nCell, t, m, c2, l.cCell] → ρ' x = ρ x := by
  have hord := hk.ordered hwf hent
  have hcmp := hk.cmp_notMem hwf
  have hnc : l.nCell ≠ cmp ∧ l.cCell ≠ cmp := by
    constructor <;> rintro rfl <;> exact hcmp (by simp)
  induction count with
  | zero =>
    intro ρ hcount
    have hzero : ρ l.nCell = 0 := by
      by_contra hne
      have := popCount_and_pred hne
      omega
    obtain ⟨ρ', hsilent, hstep, hother⟩ := hk.header_run (X := X) ρ w
    rw [if_neg (not_not.mpr hzero)] at hstep
    refine ⟨ρ', hsilent.segment hstep, by rw [hother _ hnc.1, hzero], ?_, ?_⟩
    · rw [hother _ hnc.2]
      exact (BitVec.add_zero _).symm
    · exact fun x hx => hother x (List.ne_of_not_mem_cons hx)
  | succ count ih =>
    intro ρ hcount
    have hne : ρ l.nCell ≠ 0 := by
      intro hzero
      have hnone : popCount 0 = 0 := by decide
      rw [hzero, hnone] at hcount
      omega
    obtain ⟨ρ₁, hsilent, hstep, hother⟩ := hk.header_run (X := X) ρ w
    rw [if_pos hne] at hstep
    obtain ⟨ρ₂, hbody, hstate⟩ := body_run (X := X) hord hk.body hk.bodyAt hk.exit_ne.2.symm ρ₁ w
      5 le_rfl
    -- all five instructions have run
    have hplaces : p.copyN < 5 ∧ p.copyC < 5 := by
      rw [← hk.body.length]
      exact ⟨(List.getElem?_eq_some_iff.mp hk.body.copyN).1,
        (List.getElem?_eq_some_iff.mp hk.body.copyC).1⟩
    have hn : ρ₂ l.nCell = ρ l.nCell &&& (ρ l.nCell - 1) := by
      rw [hstate.n_eq, if_pos hplaces.1, hother _ hnc.1]
    have hc : ρ₂ l.cCell = ρ l.cCell + 1 := by
      rw [hstate.c_eq, if_pos hplaces.2, hother _ hnc.2]
    have hback := Func.next_point (I := wordInterp X) (k := 5) (ρ := ρ₂) (w := w) hk.bodyAt
    rw [Block.next_term (List.getElem?_eq_none (hk.body.length ▸ le_rfl)), hk.body.term] at hback
    have hcount' : popCount (ρ₂ l.nCell) = count := by
      have := popCount_and_pred hne
      rw [hn]
      omega
    obtain ⟨ρ', hrest, hn', hc', hother'⟩ := ih ρ₂ hcount'
    have hh := hk.exit_ne.1.symm
    have hb' := hk.exit_ne.2.symm
    have hpass : Silent (f.next (wordInterp X)) (obsAt l.exit) ⟨.point l.header 0, ρ, w⟩
        ⟨.point l.header 0, ρ₂, w⟩ :=
      (hsilent.trans (Silent.cons hstep (obsAt_point hb' hh) hbody)).trans
        (Silent.cons hback (obsAt_point hh hb') (Silent.refl _))
    refine ⟨ρ', hpass.trans_segment hrest, hn', ?_, ?_⟩
    · rw [hc', hc, BitVec.add_assoc, BitVec.add_comm 1, BitVec.ofNat_add]
      rfl
    · intro x hx
      have hx' := hx
      rw [List.mem_cons, not_or] at hx'
      have hbodyx : x ∉ [l.nCell, t, m, c2, l.cCell] := hx'.2
      rw [hother' x hx, hstate.other x hbodyx, hother x hx'.1]

end Kernighan

/-! ### The rewritten function -/

/-- What the rewrites of some loops leave of a function. -/
structure Rewritten (f : Func) (ls : List MatchedLoop) (g : Func) : Prop where
  values : f.values <+: g.values
  id_eq : ∀ b blk, g.BlockAt b blk → blk.id = b
  same : ∀ b blk, f.BlockAt b blk → (∀ l ∈ ls, b ≠ l.header ∧ b ≠ l.body) → g.BlockAt b blk
  header : ∀ l ∈ ls, ∃ blk pc sum, g.BlockAt l.header blk ∧ blk.insts = l.countInsts pc sum ∧
    blk.term = .br l.exit ∧ f.values.length ≤ pc ∧ f.values.length ≤ sum ∧ pc ≠ sum

lemma rewriteLoop_blockAt {l : MatchedLoop} {b : BlockId} {blk : Block} (h : g.BlockAt b blk) :
    (rewriteLoop g l).BlockAt b (l.rewriteBlock g.values.length (g.values.length + 1) blk) := by
  rw [Func.BlockAt, rewriteLoop, List.getElem?_map, show g.blocks[b]? = some blk from h]
  rfl

lemma MatchedLoop.rewriteBlock_of_ne {l : MatchedLoop} {pc sum : ValueId} {blk : Block}
    (hh : blk.id ≠ l.header) (hb : blk.id ≠ l.body) : l.rewriteBlock pc sum blk = blk := by
  rw [rewriteBlock, if_neg hh, if_neg hb]

lemma MatchedLoop.rewriteBlock_id {l : MatchedLoop} {pc sum : ValueId} {blk : Block} :
    (l.rewriteBlock pc sum blk).id = blk.id := by
  rw [rewriteBlock]
  split
  · rfl
  · split <;> rfl

/-- One rewrite more. -/
lemma Rewritten.step {ls : List MatchedLoop} (h : Rewritten f ls g) {l : MatchedLoop}
    (hheader : ∃ hb, f.BlockAt l.header hb)
    (hapart : ∀ l' ∈ ls, l'.header ≠ l.header ∧ l'.header ≠ l.body ∧ l.header ≠ l'.body) :
    Rewritten f (ls ++ [l]) (rewriteLoop g l) := by
  refine ⟨h.values.trans (List.prefix_append _ _), ?_, ?_, ?_⟩
  · intro b blk hblk
    rw [Func.BlockAt, rewriteLoop, List.getElem?_map] at hblk
    obtain ⟨blk', hblk', rfl⟩ := Option.map_eq_some_iff.mp hblk
    rw [MatchedLoop.rewriteBlock_id]
    exact h.id_eq b blk' hblk'
  · intro b blk hblk hne
    have hsame := h.same b blk hblk fun l' hl' => hne l' (List.mem_append_left _ hl')
    obtain ⟨hh, hb⟩ := hne l (List.mem_append_right _ (List.mem_singleton_self l))
    have hid := h.id_eq b blk hsame
    have hat := rewriteLoop_blockAt (l := l) hsame
    rwa [MatchedLoop.rewriteBlock_of_ne (hid ▸ hh) (hid ▸ hb)] at hat
  · intro l' hl'
    rcases List.mem_append.mp hl' with hl' | hl'
    · obtain ⟨blk, pc, sum, hblk, hrest⟩ := h.header l' hl'
      obtain ⟨hh, hb, _⟩ := hapart l' hl'
      have hid := h.id_eq _ blk hblk
      have hat := rewriteLoop_blockAt (l := l) hblk
      rw [MatchedLoop.rewriteBlock_of_ne (hid ▸ hh) (hid ▸ hb)] at hat
      exact ⟨blk, pc, sum, hat, hrest⟩
    · obtain rfl := List.mem_singleton.mp hl'
      obtain ⟨hb, hhb⟩ := hheader
      have hsame := h.same _ hb hhb fun l'' hl'' =>
        ⟨(hapart l'' hl'').1.symm, (hapart l'' hl'').2.2⟩
      have hat := rewriteLoop_blockAt (l := l') hsame
      have hlen := h.values.length_le
      rw [MatchedLoop.rewriteBlock, if_pos (h.id_eq _ hb hsame)] at hat
      exact ⟨_, _, _, hat, rfl, rfl, hlen, Nat.le_succ_of_le hlen, Nat.ne_of_lt (Nat.lt_succ_self _)⟩

/-- **What all the rewrites leave**: loops have headers of their own, and no header is a
body. -/
lemma rewritten_foldl {rest : List MatchedLoop} :
    ∀ {done : List MatchedLoop} {g : Func}, Rewritten f done g →
      (∀ l ∈ rest, ∃ hb, f.BlockAt l.header hb) →
      ((done ++ rest).map MatchedLoop.header).Nodup →
      (∀ l ∈ done ++ rest, ∀ l' ∈ done ++ rest, l.header ≠ l'.body) →
      Rewritten f (done ++ rest) (rest.foldl rewriteLoop g) := by
  induction rest with
  | nil =>
    intro done g h _ _ _
    rwa [List.append_nil]
  | cons l rest ih =>
    intro done g h hheaders hnd hapart
    have hstep := h.step (l := l) (hheaders l List.mem_cons_self) fun l' hl' => by
      have hl : l ∈ done ++ l :: rest := List.mem_append_right _ List.mem_cons_self
      have hl'' : l' ∈ done ++ l :: rest := List.mem_append_left _ hl'
      refine ⟨?_, hapart l' hl'' l hl, hapart l hl l' hl''⟩
      rw [List.map_append, List.nodup_append] at hnd
      exact hnd.2.2 _ (List.mem_map_of_mem hl') _ (List.mem_map_of_mem List.mem_cons_self)
    rw [List.append_cons] at hnd hapart ⊢
    exact ih hstep (fun l' hl' => hheaders l' (List.mem_cons_of_mem _ hl')) hnd hapart

/-- **The rewritten header** adds the number of bits of `n` to `c`. -/
lemma count_run {l : MatchedLoop} {blk : Block} {pc sum : ValueId} (hblk : g.BlockAt l.header blk)
    (hinsts : blk.insts = l.countInsts pc sum) (hterm : blk.term = .br l.exit)
    (hexit : l.header ≠ l.exit) (hnd : [pc, sum, l.nCell, l.cCell].Nodup) (ρ : ValueId → Word)
    (w : World) :
    ∃ ρ', Segment (g.next (wordInterp X)) (obsAt l.exit) ⟨.point l.header 0, ρ, w⟩
        ⟨.point l.exit 0, ρ', w⟩ ∧
      ρ' l.nCell = (if l.nUsedAfter then 0 else ρ l.nCell) ∧
      ρ' l.cCell = ρ l.cCell + BitVec.ofNat 64 (popCount (ρ l.nCell)) ∧
      ∀ x, x ∉ [pc, sum, l.nCell, l.cCell] → ρ' x = ρ x := by
  simp only [List.nodup_cons, List.mem_cons, List.not_mem_nil, or_false, not_or,
    not_false_eq_true, List.nodup_nil, and_true] at hnd
  obtain ⟨⟨hps, hpn, hpc⟩, ⟨hsn, hsc⟩, hnc⟩ := hnd
  -- behind the three instructions every header has
  let ρ₁ := Function.update ρ pc (BitVec.ofNat 64 (popCount (ρ l.nCell)))
  let ρ₂ := Function.update ρ₁ sum (ρ₁ l.cCell + ρ₁ pc)
  let ρ₃ := Function.update ρ₂ l.cCell (ρ₂ sum)
  let ρ₄ := if l.nUsedAfter then Function.update ρ₃ l.nCell 0 else ρ₃
  have hrun : runPure (wordInterp X) blk.insts ρ = some ρ₄ := by
    rw [hinsts, MatchedLoop.countInsts]
    simp only [ρ₄]
    cases l.nUsedAfter <;> rfl
  have hsilent := silent_of_runPure hblk hexit hrun w
  have hstep := Func.next_point (I := wordInterp X) (k := blk.insts.length) (ρ := ρ₄) (w := w) hblk
  rw [Block.next_term (List.getElem?_eq_none le_rfl), hterm] at hstep
  refine ⟨ρ₄, hsilent.segment hstep, ?_, ?_, ?_⟩
  · simp only [ρ₄, ρ₃, ρ₂, ρ₁]
    cases l.nUsedAfter <;> simp [Function.update_of_ne, hnc, Ne.symm hsn, Ne.symm hpn]
  · simp only [ρ₄, ρ₃, ρ₂, ρ₁]
    cases l.nUsedAfter <;> simp [Function.update_of_ne, Ne.symm hnc, Ne.symm hpc]
  · intro x hx
    simp only [List.mem_cons, List.not_mem_nil, or_false, not_or] at hx
    simp only [ρ₄, ρ₃, ρ₂, ρ₁]
    cases l.nUsedAfter <;> simp [Function.update_of_ne, hx]

/-! ### The two functions -/

/-- Running the loop and running what replaced it leave the same in every value live at the
exit. -/
def MatchedLoop.Exact (f g : Func) (l : MatchedLoop) : Prop :=
  ∀ (World : Type) (X : External World) (ρ : ValueId → Word) (w : World), ∃ ρ₁ ρ₂,
    FirstReaches f (wordInterp X) l.exit ⟨.point l.header 0, ρ, w⟩ ⟨.point l.exit 0, ρ₁, w⟩ ∧
    FirstReaches g (wordInterp X) l.exit ⟨.point l.header 0, ρ, w⟩ ⟨.point l.exit 0, ρ₂, w⟩ ∧
    ∀ v, f.LiveAt v l.exit 0 → ρ₁ v = ρ₂ v

/-- The rewrites are exact: at each loop, and for whole runs. -/
def RewriteExact (f g : Func) (ls : List MatchedLoop) : Prop :=
  (∀ l ∈ ls, l.Exact f g) ∧
    ∀ (World : Type) (X : External World), Equivalent (wordInterp X) f g

/-- The loops of one function. -/
structure Loops (f : Func) (ls : List MatchedLoop) : Prop where
  matched : ∀ l ∈ ls, (∃ cmp t m c2 hb bb p, Kernighan f l cmp t m c2 hb bb p) ∧ l.Entered f
  nodup : (ls.map MatchedLoop.header).Nodup

/-- A header ends in a test, a body does not. -/
lemma Loops.header_ne_body {ls : List MatchedLoop} (hls : Loops f ls) :
    ∀ l ∈ ls, ∀ l' ∈ ls, l.header ≠ l'.body := by
  intro l hl l' hl' heq
  obtain ⟨⟨cmp, _, _, _, hb, _, _, hk⟩, _⟩ := hls.matched l hl
  obtain ⟨⟨_, _, _, _, _, bb, _, hk'⟩, _⟩ := hls.matched l' hl'
  have hat := hk.headerAt
  rw [heq] at hat
  obtain rfl := hat.unique hk'.bodyAt
  exact absurd (hk.header_term.symm.trans hk'.body.term) (by simp)

lemma Loops.eq_of_header {ls : List MatchedLoop} (hls : Loops f ls) {l l' : MatchedLoop} (hl : l ∈ ls)
    (hl' : l' ∈ ls) (heq : l.header = l'.header) : l = l' :=
  List.inj_on_of_nodup_map hls.nodup hl hl' heq

lemma Loops.rewritten {ls : List MatchedLoop} (hls : Loops f ls) (hwf : f.WellFormed) :
    Rewritten f ls (ls.foldl rewriteLoop f) := by
  have hstart : Rewritten f [] f :=
    ⟨List.prefix_rfl, hwf.id_eq, fun _ _ hblk _ => hblk, fun _ hl => absurd hl List.not_mem_nil⟩
  refine rewritten_foldl hstart (fun l hl => ?_) hls.nodup hls.header_ne_body
  obtain ⟨⟨_, _, _, _, hb, _, _, hk⟩, _⟩ := hls.matched l hl
  exact ⟨hb, hk.headerAt⟩

/-- **A loop and its replacement**, from registers that agree on what is live: they reach the
exit, and agree there if `n` is dead or was written. -/
lemma loop_count_run {ls : List MatchedLoop} (hwf : f.WellFormed) (hls : Loops f ls)
    (hg : Rewritten f ls g) {l : MatchedLoop} (hl : l ∈ ls) {ρ ρ' : ValueId → Word}
    (hagree : ∀ v, f.LiveAt v l.header 0 → ρ v = ρ' v) (w : World) :
    ∃ ρ₁ ρ₂,
      Segment (f.next (wordInterp X)) (obsAt l.exit) ⟨.point l.header 0, ρ, w⟩
        ⟨.point l.exit 0, ρ₁, w⟩ ∧
      Segment (g.next (wordInterp X)) (obsAt l.exit) ⟨.point l.header 0, ρ', w⟩
        ⟨.point l.exit 0, ρ₂, w⟩ ∧
      ρ₁ l.nCell = 0 ∧ ρ₂ l.nCell = (if l.nUsedAfter then 0 else ρ l.nCell) ∧
      ∀ v, v ≠ l.nCell → f.LiveAt v l.exit 0 → ρ₁ v = ρ₂ v := by
  obtain ⟨⟨cmp, t, m, c2, hb, bb, p, hk⟩, hent⟩ := hls.matched l hl
  obtain ⟨blk, pc, sum, hblk, hinsts, hterm, hpc, hsum, hps⟩ := hg.header l hl
  obtain ⟨hlive, hlivec⟩ := hk.liveAt_header hwf hent
  have hn := hlive.lt hwf
  have hc := hlivec.lt hwf
  have hnd : [pc, sum, l.nCell, l.cCell].Nodup := by
    have hcn := hk.body.c_ne
    simp only [List.nodup_cons, List.mem_cons, List.not_mem_nil, or_false, not_or,
      not_false_eq_true, List.nodup_nil, and_true]
    refine ⟨⟨hps, ?_, ?_⟩, ⟨?_, ?_⟩, Ne.symm hcn⟩ <;> rintro rfl
    · exact absurd hn (Nat.not_lt.mpr hpc)
    · exact absurd hc (Nat.not_lt.mpr hpc)
    · exact absurd hn (Nat.not_lt.mpr hsum)
    · exact absurd hc (Nat.not_lt.mpr hsum)
  obtain ⟨ρ₁, hrun, hn₁, hc₁, hother₁⟩ := hk.loop_run (X := X) hwf hent w _ ρ rfl
  obtain ⟨ρ₂, hrun', hn₂, hc₂, hother₂⟩ :=
    count_run (X := X) hblk hinsts hterm hk.exit_ne.1.symm hnd ρ' w
  refine ⟨ρ₁, ρ₂, hrun, hrun', hn₁, by rw [hn₂, hagree _ hlive], fun v hne hv => ?_⟩
  by_cases hvc : v = l.cCell
  · rw [hvc, hc₁, hc₂, hagree _ hlive, hagree _ hlivec]
  · have hdead : v ∉ [cmp, t, m, c2] := fun hmem => hk.not_liveAt_exit hwf hent v hmem hv
    have hlt := hv.lt hwf
    simp only [List.mem_cons, List.not_mem_nil, or_false, not_or] at hdead
    rw [hother₁ v, hother₂ v]
    · exact hagree v (hk.liveAt_header_of_exit hdead.1 hv)
    · simp only [List.mem_cons, List.not_mem_nil, or_false, not_or]
      exact ⟨fun h => absurd hlt (h ▸ Nat.not_lt.mpr hpc), fun h => absurd hlt (h ▸ Nat.not_lt.mpr hsum),
        hne, hvc⟩
    · simp only [List.mem_cons, List.not_mem_nil, or_false, not_or]
      exact ⟨hdead.1, hne, hdead.2.1, hdead.2.2.1, hdead.2.2.2, hvc⟩

/-- The states of the two runs between the loops. -/
inductive Follows (f : Func) (ls : List MatchedLoop) : Config Word World → Config Word World → Prop
  | point {b k : ℕ} {ρ ρ' : ValueId → Word} {w : World} : (∀ l ∈ ls, b ≠ l.body) →
      (∀ l ∈ ls, b = l.header → k = 0) → (∃ blk, f.BlockAt b blk ∧ k ≤ blk.insts.length) →
      (∀ v, f.LiveAt v b k → ρ v = ρ' v) → Follows f ls ⟨.point b k, ρ, w⟩ ⟨.point b k, ρ', w⟩
  | ended {ctl : Control Word} {ρ ρ' : ValueId → Word} {w : World} :
      (∀ b k, ctl ≠ .point b k) → Follows f ls ⟨ctl, ρ, w⟩ ⟨ctl, ρ', w⟩

/-- The condition: where `n` is live behind a loop, some other block reads it. -/
def NReadOutside (f : Func) (ls : List MatchedLoop) : Prop :=
  ∀ l ∈ ls, f.LiveAt l.nCell l.exit 0 → l.nUsedAfter = true

/-- The exit of a loop is no loop's body. -/
lemma Loops.exit_ne_body {ls : List MatchedLoop} (hls : Loops f ls) {l l' : MatchedLoop}
    (hl : l ∈ ls) (hl' : l' ∈ ls) : l.exit ≠ l'.body := by
  obtain ⟨⟨_, _, _, _, hb, _, _, hk⟩, _⟩ := hls.matched l hl
  obtain ⟨_, hent'⟩ := hls.matched l' hl'
  intro heq
  have hsucc : l'.body ∈ successors hb.term := by
    rw [hk.header_term, ← heq]
    exact List.mem_cons_of_mem _ List.mem_cons_self
  rcases hent'.pred l.header hb hk.headerAt hsucc with hh | hh
  · rw [hls.eq_of_header hl hl' hh] at hk heq
    exact hk.exit_ne.2 heq
  · exact hls.header_ne_body l hl l' hl' hh

/-- **The rewritten function follows the original.** -/
lemma simulates_of_nReadOutside {ls : List MatchedLoop} (hwf : f.WellFormed) (hls : Loops f ls)
    (hg : Rewritten f ls g) (hcond : NReadOutside f ls) :
    Simulates (f.next (wordInterp X)) obs (g.next (wordInterp X)) obs (Follows f ls) where
  obs_eq h := by cases h <;> rfl
  step h := by
    cases h with
    | @ended ctl ρ ρ' w hctl =>
      refine Or.inl ?_
      cases ctl with
      | point b k => exact absurd rfl (hctl b k)
      | returned v => exact ⟨rfl, rfl⟩
      | stopped => exact ⟨rfl, rfl⟩
    | @point b k ρ ρ' w hbody hstart hle hagree =>
      obtain ⟨blk, hblk, hle⟩ := hle
      by_cases hheader : ∃ l ∈ ls, b = l.header
      · -- through the loop
        obtain ⟨l, hl, rfl⟩ := hheader
        obtain rfl := hstart l hl rfl
        obtain ⟨ρ₁, ρ₂, hrun, hrun', hn₁, hn₂, hother⟩ :=
          loop_count_run (X := X) hwf hls hg hl hagree w
        obtain ⟨⟨_, _, _, _, hb, _, _, hk⟩, _⟩ := hls.matched l hl
        obtain ⟨eb, heb⟩ : ∃ eb, f.BlockAt l.exit eb := by
          refine Func.exists_blockAt_of_lt (hwf.target _ hb hk.headerAt _ ?_)
          rw [hk.header_term]
          exact List.mem_cons_of_mem _ List.mem_cons_self
        refine Or.inr ⟨_, _, hrun.map Prod.fst, hrun'.map Prod.fst,
          .point (fun l' hl' => hls.exit_ne_body hl hl') (fun _ _ _ => rfl)
            ⟨eb, heb, Nat.zero_le _⟩ fun v hv => ?_⟩
        by_cases hvn : v = l.nCell
        · rw [hvn, hn₁, hn₂, if_pos (hcond l hl (hvn ▸ hv))]
        · exact hother v hvn hv
      · -- a block that both functions have
        have hne : ∀ l ∈ ls, b ≠ l.header ∧ b ≠ l.body := fun l hl =>
          ⟨fun h => hheader ⟨l, hl, h⟩, hbody l hl⟩
        obtain ⟨ctl, ρ₁, ρ₁', w₁, hstep, hstep', hctl, hagree'⟩ :=
          live_step (I := wordInterp X) (w := w) hwf hblk (hg.same b blk hblk hne) hg.values hle
            hagree
        refine Or.inr ⟨_, _, Segment.single hstep, Segment.single hstep', ?_⟩
        rcases hctl with ⟨rfl, hlt⟩ | ⟨t, ht, rfl⟩ | hend
        · exact .point hbody (fun l hl h => absurd h (hne l hl).1) ⟨blk, hblk, hlt⟩ (hagree' _ _ rfl)
        · obtain ⟨tb, htb⟩ := Func.exists_blockAt_of_lt (hwf.target b blk hblk t ht)
          refine .point (fun l hl heq => ?_) (fun _ _ _ => rfl) ⟨tb, htb, Nat.zero_le _⟩
            (hagree' _ _ rfl)
          obtain ⟨_, hent⟩ := hls.matched l hl
          rcases hent.pred b blk hblk (heq ▸ ht) with hb | hb
          · exact (hne l hl).1 hb
          · exact (hne l hl).2 hb
        · exact .ended hend

lemma rewriteExact_of_nReadOutside {ls : List MatchedLoop} (hwf : f.WellFormed) (hls : Loops f ls)
    (hg : Rewritten f ls g) (hcond : NReadOutside f ls) : RewriteExact f g ls := by
  constructor
  · intro l hl World X ρ w
    obtain ⟨ρ₁, ρ₂, hrun, hrun', hn₁, hn₂, hother⟩ :=
      loop_count_run (X := X) hwf hls hg hl (fun v _ => Eq.refl (ρ v)) w
    obtain ⟨⟨_, _, _, _, _, _, _, hk⟩, _⟩ := hls.matched l hl
    have hexit := hk.exit_ne.1.symm
    refine ⟨ρ₁, ρ₂, firstReaches_of_segment hexit hrun, firstReaches_of_segment hexit hrun',
      fun v hv => ?_⟩
    by_cases hvn : v = l.nCell
    · rw [hvn, hn₁, hn₂, if_pos (hcond l hl (hvn ▸ hv))]
    · exact hother v hvn hv
  · intro World X
    refine equivalent_of_simulates (simulates_of_nReadOutside hwf hls hg hcond) fun ρ w => ?_
    obtain ⟨blk, hblk⟩ := Func.exists_blockAt_of_lt (List.length_pos_iff.mpr hwf.nonempty)
    exact .point (fun l hl => ((hls.matched l hl).2.entry_ne).symm) (fun _ _ _ => rfl)
      ⟨blk, hblk, Nat.zero_le _⟩ fun _ _ => rfl

/-- A first arrival is one state. -/
lemma FirstReaches.unique {V World : Type} {I : Interp V World} {e : BlockId}
    {s s₁ s₂ : Config V World} (h₁ : FirstReaches f I e s s₁) (h₂ : FirstReaches f I e s s₂) :
    s₁ = s₂ := by
  obtain ⟨hat₁, n₁, hn₁, hfirst₁⟩ := h₁
  obtain ⟨hat₂, n₂, hn₂, hfirst₂⟩ := h₂
  rcases Nat.lt_trichotomy n₁ n₂ with hlt | rfl | hlt
  · exact absurd hat₁ (hfirst₂ _ hlt s₁ hn₁)
  · exact Option.some.inj (hn₁.symm.trans hn₂)
  · exact absurd hat₂ (hfirst₁ _ hlt s₂ hn₂)

/-- **A live `n` that no other block reads goes wrong**: it keeps its bits. -/
lemma nReadOutside_of_exact {ls : List MatchedLoop} (hwf : f.WellFormed) (hls : Loops f ls)
    (hg : Rewritten f ls g) (h : ∀ l ∈ ls, l.Exact f g) : NReadOutside f ls := by
  intro l hl hlive
  by_contra hused
  let X : External Unit := ⟨fun _ _ _ => 0, fun _ _ _ => false, fun _ _ => 0, fun _ => 0,
    fun _ _ _ => none⟩
  obtain ⟨ρ₁, ρ₂, hrun, hrun', hn₁, hn₂, _⟩ :=
    loop_count_run (X := X) hwf hls hg hl (fun v _ => Eq.refl ((1 : Word))) ()
  obtain ⟨⟨_, _, _, _, _, _, _, hk⟩, _⟩ := hls.matched l hl
  have hexit := hk.exit_ne.1.symm
  obtain ⟨ρ₁', ρ₂', hf, hg', hsame⟩ := h l hl Unit X (fun _ => 1) ()
  have h₁ : ρ₁' = ρ₁ := congrArg Config.regs (hf.unique (firstReaches_of_segment hexit hrun))
  have h₂ : ρ₂' = ρ₂ := congrArg Config.regs (hg'.unique (firstReaches_of_segment hexit hrun'))
  have heq := hsame l.nCell hlive
  rw [h₁, h₂, hn₁, hn₂, if_neg hused] at heq
  exact absurd heq (by decide)

/-- `n = 3; c = 0; for (i = 0; i < 2; i++) while (n !== 0) { n = n & (n - 1); c = c + 1; }`. -/
def recounted : Func where
  name := "recounted"
  params := []
  blocks := [
    ⟨0, [⟨some 0, .copy .i64 (.constI64 3)⟩, ⟨some 1, .copy .i64 (.constI64 0)⟩,
        ⟨some 2, .copy .i64 (.constI64 0)⟩], .br 1⟩,
    ⟨1, [⟨some 3, .iCmp .slt (.value 2) (.constI64 2)⟩], .condBr (.value 3) 2 5⟩,
    ⟨2, [⟨some 4, .iCmp .ne (.value 0) (.constI64 0)⟩], .condBr (.value 4) 3 4⟩,
    ⟨3, [⟨some 5, .binOp .sub (.value 0) (.constI64 1)⟩, ⟨some 6, .binOp .and (.value 0) (.value 5)⟩,
        ⟨some 7, .binOp .add (.value 1) (.constI64 1)⟩, ⟨some 0, .copy .i64 (.value 6)⟩,
        ⟨some 1, .copy .i64 (.value 7)⟩], .br 2⟩,
    ⟨4, [⟨some 8, .binOp .add (.value 2) (.constI64 1)⟩, ⟨some 2, .copy .i64 (.value 8)⟩], .br 1⟩,
    ⟨5, [], .ret (some (.value 1))⟩]
  values := [.i64, .i64, .i64, .bool, .bool, .i64, .i64, .i64, .i64]

lemma recounted_check : recounted.check [[], [0, 1, 2], [0, 1, 2], [0, 1, 2], [0, 1, 2], [0, 1, 2]] := by
  decide

/-- The loop, without a write to `n`. -/
def recountedLoop : MatchedLoop := ⟨2, 3, 4, 0, 1, false⟩

/-- The rewritten function. -/
def recountedRewritten : Func :=
  { recounted with
    blocks := [
      ⟨0, [⟨some 0, .copy .i64 (.constI64 3)⟩, ⟨some 1, .copy .i64 (.constI64 0)⟩,
          ⟨some 2, .copy .i64 (.constI64 0)⟩], .br 1⟩,
      ⟨1, [⟨some 3, .iCmp .slt (.value 2) (.constI64 2)⟩], .condBr (.value 3) 2 5⟩,
      ⟨2, [⟨some 9, .unary .ctpop (.value 0)⟩, ⟨some 10, .binOp .add (.value 1) (.value 9)⟩,
          ⟨some 1, .copy .i64 (.value 10)⟩], .br 4⟩,
      ⟨3, [], .unreachable⟩,
      ⟨4, [⟨some 8, .binOp .add (.value 2) (.constI64 1)⟩, ⟨some 2, .copy .i64 (.value 8)⟩], .br 1⟩,
      ⟨5, [], .ret (some (.value 1))⟩]
    values := recounted.values ++ [.i64, .i64] }

/-- Words alone, with nothing outside the registers. -/
def noExternal : External Unit where
  fBin _ _ _ := 0
  fCmp _ _ _ := false
  convert _ _ := 0
  addr _ := 0
  act _ _ _ := none

end Torajs.Egraph
