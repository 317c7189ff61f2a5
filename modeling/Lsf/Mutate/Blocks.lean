import Lsf.Mutate.Splice

/-!
# Removed blocks

`SpliceOut` (`reduce.rs`) draws where a block of statements begins and, hit by hit, how long it is. The block is cut
off at the end of the AST, but nothing keeps it from beginning at the first statement and ending at the last: the rule
leaves no statement when the draws take them all (`SpliceOut.removes_iff`).
-/

namespace Lsf.Mutate

open Lsf.Core Lsf.Lib

/-! ## The length of a block -/

section Extend

variable {p : ℚ}

theorem extend_cons (len : Nat) (u : Draw) (draws : List Draw) (h0 : 0 ≤ p) (h1 : p ≤ 1) :
    Rng.extend p len (u :: draws) = if u.val < p then Rng.extend p (len + 1) draws else some (len, draws) := by
  rw [Rng.extend, Draw.randomBool, if_pos ⟨h0, h1⟩]
  by_cases hhit : u.val < p
  · rw [decide_eq_true hhit, if_pos hhit]
  · rw [decide_eq_false hhit, if_neg hhit]

/-- Nothing is drawn at a chance below zero. -/
theorem extend_eq_none (hp : p < 0) (len : Nat) (draws : List Draw) : Rng.extend p len draws = none := by
  cases draws with
  | nil => rfl
  | cons u draws => rw [Rng.extend, Draw.randomBool, if_neg fun h => hp.not_ge h.1]

/-- **A length is `n` more exactly if the first `n` draws are hits.** -/
theorem extend_le_iff (h0 : 0 ≤ p) (h1 : p ≤ 1) {draws rest : List Draw} {len len' : Nat}
    (h : Rng.extend p len draws = some (len', rest)) (n : Nat) :
    len + n ≤ len' ↔ ∀ u ∈ draws.take n, u.val < p := by
  induction draws generalizing len n with
  | nil => cases h
  | cons u draws ih =>
    rw [extend_cons len u draws h0 h1] at h
    split at h
    · rename_i hhit
      cases n with
      | zero => exact iff_of_true (by have := (ih h 0).2 (by simp); omega) (by simp)
      | succ n =>
        rw [List.take_succ_cons, List.forall_mem_cons, and_iff_right hhit, ← ih h n]
        omega
    · rename_i hhit
      cases h
      cases n with
      | zero => exact iff_of_true le_rfl (by simp)
      | succ n => exact iff_of_false (by omega) fun h => hhit (h u (by simp))

/-- Below chance one, a draw that misses ends the block. -/
theorem extend_append (h0 : 0 ≤ p) (h1 : p < 1) (draws : List Draw) (len : Nat) :
    (Rng.extend p len (draws ++ [⟨p, h0, h1⟩])).isSome := by
  induction draws generalizing len with
  | nil => rw [List.nil_append, extend_cons len _ _ h0 h1.le, if_neg (lt_irrefl p), Option.isSome_some]
  | cons u draws ih =>
    rw [List.cons_append, extend_cons len _ _ h0 h1.le]
    split
    · exact ih _
    · rfl

end Extend

/-! ## The block -/

namespace SpliceOut

variable {Stmt : Type} {rule : SpliceOut} {child : Child Stmt} {r : Report × Child Stmt} {draws rest : List Draw}

/-- At most four statements stay what they are; of more, a block goes, and some are left. -/
def Removes (child : Child Stmt) (r : Report × Child Stmt) : Prop :=
  if child.entry.entry.ast.length ≤ 4 then r = (.ok .unchanged, child)
  else r.1 = .ok .mutated ∧ ∃ before block after, child.entry.entry.ast = before ++ block ++ after ∧ block ≠ [] ∧
    r.2 = child.setAst (before ++ after) ∧ before ++ after ≠ []

/-- The first draw is for the first of `len` statements, and as many hits follow as there are others. -/
def TakesAll (len : Nat) (p : ℚ) : List Draw → Prop
  | [] => False
  | u :: draws => u.val * len < 1 ∧ ∀ v ∈ draws.take (len - 1), v.val < p

theorem breedInner_short (hown : child.sharers = 0) (hlen : child.entry.entry.ast.length ≤ 4) (draws : List Draw) :
    rule.breedInner child draws = some ((.ok .unchanged, child), draws) := by
  rw [breedInner, withAst, Child.astMut, if_pos hown]
  dsimp only
  rw [if_pos hlen]
  rfl

theorem breedInner_shared (hown : child.sharers ≠ 0) (draws : List Draw) :
    rule.breedInner child draws = some ((.error .astShared, child), draws) := by
  rw [breedInner, withAst, Child.astMut, if_neg hown]
  rfl

/-- What is left when `len` statements go from `start` on, or all up to the end. -/
def splice (child : Child Stmt) (start len : Nat) : Report × Child Stmt :=
  let fin := min child.entry.entry.ast.length (start + len)
  if fin = start then (.ok .unchanged, child)
  else (.ok .mutated, child.setAst (child.entry.entry.ast.take start ++ child.entry.entry.ast.drop fin))

/-- A longer AST is spliced from one of its statements on. -/
theorem breedInner_long (rule : SpliceOut) (hown : child.sharers = 0) (hlen : 4 < child.entry.entry.ast.length)
    (u : Draw) (draws : List Draw) : ∃ start, (start = 0 ↔ u.val * child.entry.entry.ast.length < 1) ∧
      start < child.entry.entry.ast.length ∧
      rule.breedInner child (u :: draws) =
        (Rng.extend rule.pExtend 1 draws).map fun r => (splice child start r.1, r.2) := by
  obtain ⟨start, hstart, -, hlt⟩ := u.exists_randomRange (show 0 < child.entry.entry.ast.length by omega)
  refine ⟨start, ?_, hlt, ?_⟩
  · rw [Draw.randomRange, if_pos (by omega), Option.some_inj] at hstart
    rw [← hstart, Nat.zero_add, Nat.floor_eq_zero, Nat.sub_zero]
  · rw [breedInner, withAst, Child.astMut, if_pos hown]
    dsimp only
    rw [if_neg (by omega), Prog.bind_apply, Rng.range, hstart, Option.map_some, Option.bind_some, Prog.bind_apply,
      Option.map_eq_bind]
    refine congrArg _ (funext fun r => ?_)
    show _ = some (splice child start r.1, r.2)
    unfold splice
    by_cases hempty : min child.entry.entry.ast.length (start + r.1) = start
    · simp only [hempty, if_true]
      rfl
    · simp only [hempty, if_false]
      rfl

/-- **A block goes**, of the length that was drawn or up to the end. -/
theorem exists_block (hp : rule.pExtend < 1) (hown : child.sharers = 0) (hlen : 4 < child.entry.entry.ast.length)
    (h : rule.breedInner child draws = some (r, rest)) :
    0 ≤ rule.pExtend ∧ ∃ u draws' start len, draws = u :: draws' ∧ 1 ≤ len ∧
      Rng.extend rule.pExtend 1 draws' = some (len, rest) ∧
      (start = 0 ↔ u.val * child.entry.entry.ast.length < 1) ∧ start < child.entry.entry.ast.length ∧
      r = (.ok .mutated, child.setAst (child.entry.entry.ast.take start ++
        child.entry.entry.ast.drop (min child.entry.entry.ast.length (start + len)))) := by
  cases draws with
  | nil =>
    rw [breedInner, withAst, Child.astMut, if_pos hown] at h
    dsimp only at h
    rw [if_neg (by omega)] at h
    cases h
  | cons u draws =>
    obtain ⟨start, hzero, hstart, hrun⟩ := breedInner_long rule hown hlen u draws
    rw [hrun] at h
    obtain ⟨⟨len, rest'⟩, hextend, hr⟩ := Option.map_eq_some_iff.1 h
    have h0 : 0 ≤ rule.pExtend := by
      by_contra hneg
      rw [extend_eq_none (not_le.1 hneg)] at hextend
      cases hextend
    have hone : 1 ≤ len := (extend_le_iff h0 hp.le hextend 0).2 (by simp)
    have hsplice : splice child start len = (.ok .mutated, child.setAst (child.entry.entry.ast.take start ++
        child.entry.entry.ast.drop (min child.entry.entry.ast.length (start + len)))) := if_neg (by omega)
    rw [hsplice] at hr
    cases hr
    exact ⟨h0, u, draws, start, len, rfl, hone, hextend, hzero, hstart, rfl⟩

/-- What is left is empty if the block begins at the first statement and ends at the last. -/
theorem append_eq_nil_iff {α : Type} {l : List α} {start fin : Nat} (hstart : start < l.length)
    (hfin : fin ≤ l.length) : l.take start ++ l.drop fin = [] ↔ start = 0 ∧ l.length = fin := by
  rw [List.append_eq_nil_iff, List.take_eq_nil_iff, List.drop_eq_nil_iff]
  have hne : l ≠ [] := List.ne_nil_of_length_pos (by omega)
  constructor
  · rintro ⟨hzero | hnil, hle⟩
    · exact ⟨hzero, le_antisymm hle hfin⟩
    · exact (hne hnil).elim
  · rintro ⟨hzero, hle⟩
    exact ⟨.inl hzero, hle.le⟩

/-- A long AST is left with a statement unless the draws take them all. -/
theorem removes_iff_of_long (hp : rule.pExtend < 1) (hown : child.sharers = 0)
    (hlen : 4 < child.entry.entry.ast.length) (h : rule.breedInner child draws = some (r, rest)) :
    Removes child r ↔ ¬TakesAll child.entry.entry.ast.length rule.pExtend draws := by
  obtain ⟨h0, u, draws, start, len, rfl, hone, hextend, hzero, hstart, rfl⟩ := exists_block hp hown hlen h
  generalize hast : child.entry.entry.ast = ast at *
  have hleft : ast.take start ++ ast.drop (min ast.length (start + len)) = [] ↔
      TakesAll ast.length rule.pExtend (u :: draws) := by
    rw [append_eq_nil_iff hstart (min_le_left _ _), TakesAll, ← extend_le_iff h0 hp.le hextend, ← hzero]
    refine and_congr_right fun hzero => ?_
    omega
  rw [← hleft, Removes, hast, if_neg (by omega)]
  constructor
  · rintro ⟨-, before, block, after, -, -, heq, hne⟩
    have hast' : ast.take start ++ ast.drop (min ast.length (start + len)) = before ++ after :=
      congrArg (fun child : Child Stmt => child.entry.entry.ast) heq
    rwa [hast']
  · intro hne
    refine ⟨rfl, ast.take start, (ast.take (min ast.length (start + len))).drop start, _, ?_, ?_, rfl, hne⟩
    · have htake : (ast.take (min ast.length (start + len))).take start = ast.take start := by
        rw [List.take_take, min_eq_left (by omega)]
      rw [← htake, List.take_append_drop, List.take_append_drop]
    · rw [Ne, List.drop_eq_nil_iff, List.length_take]
      omega

/-- Draws can be followed by some on which the rule returns, at a chance that can be drawn. -/
theorem exists_returns (hp : rule.pExtend < 1) : (∃ more, (rule.breedInner child (draws ++ more)).isSome) ↔
    child.sharers ≠ 0 ∨ child.entry.entry.ast.length ≤ 4 ∨ 0 ≤ rule.pExtend := by
  by_cases hown : child.sharers = 0
  · by_cases hlen : child.entry.entry.ast.length ≤ 4
    · refine iff_of_true ⟨[], ?_⟩ (.inr (.inl hlen))
      rw [breedInner_short hown hlen, Option.isSome_some]
    · have hlen : 4 < child.entry.entry.ast.length := not_le.1 hlen
      constructor
      · rintro ⟨more, hmore⟩
        obtain ⟨⟨r, rest⟩, hr⟩ := Option.isSome_iff_exists.1 hmore
        exact .inr (.inr (exists_block hp hown hlen hr).1)
      · rintro (hshared | hshort | h0)
        · exact (hshared hown).elim
        · omega
        · obtain ⟨more, u, draws', happend⟩ :
              ∃ more u draws', draws ++ more = u :: (draws' ++ [⟨rule.pExtend, h0, hp⟩]) := by
            cases draws with
            | nil => exact ⟨_, Draw.zero, [], rfl⟩
            | cons u draws => exact ⟨_, u, draws, rfl⟩
          obtain ⟨start, -, -, hrun⟩ := breedInner_long rule hown hlen u (draws' ++ [⟨rule.pExtend, h0, hp⟩])
          obtain ⟨⟨len, rest⟩, hextend⟩ := Option.isSome_iff_exists.1 (extend_append h0 hp draws' 1)
          refine ⟨more, ?_⟩
          rw [happend, hrun, hextend, Option.map_some, Option.isSome_some]
  · refine iff_of_true ⟨[], ?_⟩ (.inl hown)
    rw [breedInner_shared hown, Option.isSome_some]

/-- **A block goes and a statement stays exactly if the draws do not take all the statements**, of an AST that is not
shared and has more than four; and the rule returns unless it has to draw at a chance below zero. -/
theorem removes_iff (hp : rule.pExtend < 1) (child : Child Stmt) (draws : List Draw) :
    ((∃ more, (rule.breedInner child (draws ++ more)).isSome) ↔
      child.sharers ≠ 0 ∨ child.entry.entry.ast.length ≤ 4 ∨ 0 ≤ rule.pExtend) ∧
    ∀ r rest, rule.breedInner child draws = some (r, rest) →
      (Removes child r ↔ child.sharers = 0 ∧
        (child.entry.entry.ast.length ≤ 4 ∨ ¬TakesAll child.entry.entry.ast.length rule.pExtend draws)) := by
  refine ⟨exists_returns hp, fun r rest h => ?_⟩
  by_cases hown : child.sharers = 0
  · rw [and_iff_right hown]
    by_cases hlen : child.entry.entry.ast.length ≤ 4
    · rw [breedInner_short hown hlen] at h
      cases h
      exact iff_of_true (by rw [Removes, if_pos hlen]) (.inl hlen)
    · rw [or_iff_right hlen]
      exact removes_iff_of_long hp hown (not_le.1 hlen) h
  · rw [breedInner_shared hown] at h
    cases h
    refine iff_of_false (fun hremoves => ?_) fun h => hown h.1
    rw [Removes] at hremoves
    split at hremoves
    · cases hremoves
    · exact nomatch hremoves.1

/-- Five statements. -/
def fiveInserts : Child Nat := ⟨⟨⟨⟨1⟩, [], [1, 2, 3, 4, 5]⟩, [], []⟩, 0⟩

/-- A draw that misses at the chance by default. -/
def miss : Draw := ⟨3 / 4, by norm_num, by norm_num⟩

/-- Of five statements the first goes, and the others stay. -/
theorem removes_first : ∃ r rest,
    (⟨1 / 2⟩ : SpliceOut).breedInner fiveInserts [.zero, miss] = some (r, rest) ∧ Removes fiveInserts r := by
  have hrun : ((⟨1 / 2⟩ : SpliceOut).breedInner fiveInserts [.zero, miss]).isSome := by decide +kernel
  obtain ⟨⟨r, rest⟩, hr⟩ := Option.isSome_iff_exists.1 hrun
  refine ⟨r, rest, hr, ?_⟩
  refine ((@removes_iff Nat ⟨1 / 2⟩ (by norm_num) fiveInserts _).2 r rest hr).2 ⟨rfl, .inr fun htakes => ?_⟩
  have hmiss : (3 / 4 : ℚ) < 1 / 2 := htakes.2 miss (by simp [fiveInserts])
  norm_num at hmiss

/-- **None of five statements is left** when the least value is drawn five times. -/
theorem removes_all : ∃ r rest,
    (⟨1 / 2⟩ : SpliceOut).breedInner fiveInserts [.zero, .zero, .zero, .zero, .zero, miss] = some (r, rest) ∧
      r.1 = .ok .mutated ∧ r.2.entry.entry.ast = [] ∧ ¬Removes fiveInserts r := by
  have hrun : ((⟨1 / 2⟩ : SpliceOut).breedInner fiveInserts [.zero, .zero, .zero, .zero, .zero, miss]).map
      (fun r => (r.1.1, r.1.2.entry.entry.ast)) = some (.ok .mutated, []) := by decide +kernel
  obtain ⟨⟨r, rest⟩, hr, heq⟩ := Option.map_eq_some_iff.1 hrun
  obtain ⟨hreport, hast⟩ := Prod.mk.inj heq
  refine ⟨r, rest, hr, hreport, hast, fun hremoves => ?_⟩
  rw [Removes, if_neg (by decide)] at hremoves
  obtain ⟨-, before, _, after, -, -, hchild, hne⟩ := hremoves
  rw [hchild] at hast
  exact hne hast

end SpliceOut

end Lsf.Mutate
