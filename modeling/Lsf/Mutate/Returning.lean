import Lsf.Lib.Supply
import Lsf.Mutate.Strategy

/-!
# Rules that return

A rule panics if a chance is none, if it chooses from nothing or if it draws from an empty range, and it may extend a
block for ever. With chances in the unit interval and a block that ends at last (`Leaf.Valid`) none of this happens:
whatever has been drawn so far, every rule can still return (`Leaf.sure`).
-/

namespace Lsf.Mutate

open Lsf.Core Lsf.Lib Lsf.Feedback Lsf.Engine

/-! ## Draws -/

/-- A probability. -/
def IsChance (p : ℚ) : Prop := 0 ≤ p ∧ p ≤ 1

instance (p : ℚ) : Decidable (IsChance p) := inferInstanceAs (Decidable (0 ≤ p ∧ p ≤ 1))

/-- What one draw decides. -/
theorem streams_one {α : Type} {g : Draw → Option α} {x : Rng α} (hnil : x [] = none)
    (hcons : ∀ u draws, x (u :: draws) = (g u).map fun a => (a, draws)) : Prog.Streams x := by
  intro draws a rest h more
  cases draws with
  | nil =>
    rw [hnil] at h
    cases h
  | cons u draws =>
    rw [hcons] at h
    obtain ⟨b, hb, heq⟩ := Option.map_eq_some_iff.1 h
    cases heq
    exact (hcons u (rest ++ more)).trans (by rw [hb]; rfl)

theorem sure_one {α : Type} {g : Draw → Option α} {x : Rng α} (hnil : x [] = none)
    (hcons : ∀ u draws, x (u :: draws) = (g u).map fun a => (a, draws)) (hg : ∀ u, ∃ a, g u = some a) :
    Prog.Sure x := by
  refine ⟨streams_one hnil hcons, fun draws => ?_⟩
  cases draws with
  | nil =>
    obtain ⟨a, ha⟩ := hg .zero
    exact ⟨[.zero], (a, []), (hcons .zero []).trans (by rw [ha]; rfl)⟩
  | cons u draws =>
    obtain ⟨a, ha⟩ := hg u
    refine ⟨[], (a, draws), ?_⟩
    rw [feed_nil, hcons, ha]
    rfl

theorem sure_range {lo hi : Nat} (h : lo < hi) : Prog.Sure (Rng.range lo hi) :=
  sure_one (g := fun u => u.randomRange lo hi) rfl (fun _ _ => rfl) fun _ => ⟨_, if_pos h⟩

theorem sure_bool {p : ℚ} (h : IsChance p) : Prog.Sure (Rng.bool p) :=
  sure_one (g := fun u => u.randomBool p) rfl (fun _ _ => rfl) fun _ => ⟨_, if_pos h⟩

theorem streams_range (lo hi : Nat) : Prog.Streams (Rng.range lo hi) :=
  streams_one (g := fun u => u.randomRange lo hi) rfl fun _ _ => rfl

theorem streams_choose {α : Type} (l : List α) : Prog.Streams (Rng.choose l) :=
  (streams_range 0 l.length).bind fun _ => Prog.streams_expect _

theorem sure_choose {α : Type} {l : List α} (h : l ≠ []) : Prog.Sure (Rng.choose l) := by
  refine ⟨streams_choose l, fun draws => ?_⟩
  have hlen : 1 ≤ (draws ++ [Draw.zero]).length := by simp
  obtain ⟨a, rest, hx, -⟩ := Rng.returns_choose h (draws ++ [.zero]) hlen
  exact ⟨[.zero], (a, rest), hx⟩

theorem streams_extend (p : ℚ) (len : Nat) : Prog.Streams (Rng.extend p len) := by
  intro draws
  induction draws generalizing len with
  | nil => exact fun _ _ h => nomatch h
  | cons u draws ih =>
    intro a rest h more
    show Rng.extend p len (u :: (draws ++ more)) = _
    unfold Rng.extend at h ⊢
    split at h
    · cases h
    · exact ih (len + 1) a rest h more
    · cases h
      rfl

/-- A block that is extended with a chance below one comes to its end. -/
theorem sure_extend {p : ℚ} (h0 : 0 ≤ p) (h1 : p < 1) (len : Nat) : Prog.Sure (Rng.extend p len) := by
  have hchance : 0 ≤ p ∧ p ≤ 1 := ⟨h0, h1.le⟩
  refine ⟨streams_extend p len, fun draws => ?_⟩
  induction draws generalizing len with
  | nil =>
    refine ⟨[⟨p, h0, h1⟩], (len, []), ?_⟩
    show Rng.extend p len [⟨p, h0, h1⟩] = _
    unfold Rng.extend
    rw [Draw.randomBool, if_pos hchance, decide_eq_false (lt_irrefl p)]
  | cons u draws ih =>
    by_cases hhit : u.val < p
    · obtain ⟨more, r, hr⟩ := ih (len + 1)
      refine ⟨more, r, ?_⟩
      show Rng.extend p len (u :: (draws ++ more)) = _
      unfold Rng.extend
      rw [Draw.randomBool, if_pos hchance, decide_eq_true hhit]
      exact hr
    · refine ⟨[], (len, draws ++ []), ?_⟩
      show Rng.extend p len (u :: (draws ++ [])) = _
      unfold Rng.extend
      rw [Draw.randomBool, if_pos hchance, decide_eq_false hhit]

theorem sure_fillBytes (n : Nat) : Prog.Sure (Rng.fillBytes n) := by
  induction n with
  | zero => exact Prog.sure_pure []
  | succ n ih => exact (sure_range (by decide)).bind fun byte => ih.bind fun bytes => Prog.sure_pure _

/-! ## Nodes as JSON -/

mutual

theorem sure_swapRandomFields {chance : ℚ} (h : IsChance chance) :
    (dst src : Json) → Prog.Sure (swapRandomFields chance dst src)
  | .object dst, .object src => by
    rw [swapRandomFields]
    exact (sure_swapFields h dst src).bind fun dst => Prog.sure_pure _
  | .array dst, .array src => by
    rw [swapRandomFields]
    split
    · rename_i hlen
      exact (sure_swapItems h dst src hlen).bind fun dst => Prog.sure_pure _
    · exact Prog.sure_pure _
  | .null, _ | .bool _, _ | .number _, _ | .string _, _ | .array _, .null | .array _, .bool _ | .array _, .number _
  | .array _, .string _ | .array _, .object _ | .object _, .null | .object _, .bool _ | .object _, .number _
  | .object _, .string _ | .object _, .array _ => by
    simp only [swapRandomFields]
    exact Prog.sure_pure _

theorem sure_swapFields {chance : ℚ} (h : IsChance chance) :
    (dst : List (String × Json)) → (src : JsonMap) → Prog.Sure (swapFields chance dst src)
  | [], _ => by
    rw [swapFields]
    exact Prog.sure_pure []
  | (k, v) :: dst, src => by
    rw [swapFields]
    have hrest : ∀ v, Prog.Sure (swapFields chance dst src >>= fun dst => pure ((k, v) :: dst)) :=
      fun v => (sure_swapFields h dst src).bind fun dst => Prog.sure_pure _
    split
    · rename_i new _
      refine (sure_bool h).bind fun swap => ?_
      split
      · exact (Prog.sure_pure new).bind hrest
      · exact (sure_swapRandomFields h v new).bind hrest
    · exact (Prog.sure_pure v).bind hrest

theorem sure_swapItems {chance : ℚ} (h : IsChance chance) :
    (dst src : List Json) → dst.length ≤ src.length → Prog.Sure (swapItems chance dst src)
  | [], _, _ => by
    rw [swapItems]
    exact Prog.sure_pure []
  | slot :: dst, src, hlen => by
    rw [swapItems]
    have hsrc : src ≠ [] := by
      rintro rfl
      exact absurd hlen (by simp)
    have hrest : ∀ slot, Prog.Sure (swapItems chance dst src >>= fun dst => pure (slot :: dst)) :=
      fun slot => (sure_swapItems h dst src (Nat.le_of_succ_le hlen)).bind fun dst => Prog.sure_pure _
    refine (sure_choose hsrc).bind fun donor => (sure_bool h).bind fun swap => ?_
    split
    · exact (Prog.sure_pure donor).bind hrest
    · exact (sure_swapRandomFields h slot donor).bind hrest

end

mutual

theorem sure_nullRandomFields {chance : ℚ} (h : IsChance chance) : (v : Json) → Prog.Sure (nullRandomFields chance v)
  | .object m => by
    rw [nullRandomFields]
    exact (sure_nullFields h m).bind fun m => Prog.sure_pure _
  | .array items => by
    rw [nullRandomFields]
    exact (sure_nullItems h items).bind fun items => Prog.sure_pure _
  | .null | .bool _ | .number _ | .string _ => by
    simp only [nullRandomFields]
    exact Prog.sure_pure _

theorem sure_nullFields {chance : ℚ} (h : IsChance chance) :
    (m : List (String × Json)) → Prog.Sure (nullFields chance m)
  | [] => by
    rw [nullFields]
    exact Prog.sure_pure []
  | (k, v) :: m => by
    rw [nullFields]
    have hrest : ∀ v, Prog.Sure (nullFields chance m >>= fun m => pure ((k, v) :: m)) :=
      fun v => (sure_nullFields h m).bind fun m => Prog.sure_pure _
    refine (sure_bool h).bind fun drop => ?_
    split
    · exact (Prog.sure_pure _).bind hrest
    · exact (sure_nullRandomFields h v).bind hrest

theorem sure_nullItems {chance : ℚ} (h : IsChance chance) : (items : List Json) → Prog.Sure (nullItems chance items)
  | [] => by
    rw [nullItems]
    exact Prog.sure_pure []
  | v :: items => by
    rw [nullItems]
    exact (sure_nullRandomFields h v).bind fun v => (sure_nullItems h items).bind fun items => Prog.sure_pure _

end

theorem sure_expandRecursive {root : Json} {fields : List String} {chancePerLevel : ℚ} (hfields : fields ≠ [])
    (h : IsChance chancePerLevel) (depth : Nat) (node : JsonMap) :
    Prog.Sure (expandRecursive root fields chancePerLevel depth node) := by
  induction depth generalizing node with
  | zero => exact Prog.sure_pure node
  | succ depth ih =>
    refine (sure_bool h).bind fun expand => ?_
    split
    · exact Prog.sure_pure node
    · refine (sure_choose hfields).bind fun key => ?_
      split
      · exact Prog.sure_pure node
      · split
        · rename_i innerMap
          exact (ih innerMap).bind fun innerMap => Prog.sure_pure _
        · exact Prog.sure_pure _

/-! ## Rules -/

section Leaves

variable {Stmt Node : Type} {child : Child Stmt} {parentGen : List (Entry Stmt)}

theorem sure_withAst {rule : AST Stmt → Rng (Report × Child Stmt)} (h : ∀ ast, Prog.Sure (rule ast)) :
    Prog.Sure (withAst child rule) := by
  unfold withAst
  split
  · exact Prog.sure_pure _
  · exact h _

theorem sure_visiting (v : Visitor (AST Stmt) Node) {f : Closure Node} (hf : ∀ n isMutated, Prog.Sure (f n isMutated))
    (child : Child Stmt) : Prog.Sure (visiting v f child) :=
  sure_withAst fun _ => (Prog.sure_visit hf _ _).bind fun _ => Prog.sure_pure _

/-- What most closures do: nothing, or something if the draw is a hit. -/
theorem sure_hit {α : Type} {chance : ℚ} (h : IsChance chance) {hit miss : Rng α} (hhit : Prog.Sure hit)
    (hmiss : Prog.Sure miss) : Prog.Sure (Rng.bool chance >>= fun b => if b then hit else miss) := by
  refine (sure_bool h).bind fun b => ?_
  split
  · exact hhit
  · exact hmiss

theorem SpliceIn.sure {rule : SpliceIn} (h0 : 0 ≤ rule.pExtend) (h1 : rule.pExtend < 1) (hgen : parentGen ≠ []) :
    Prog.Sure (rule.breedInner child parentGen) := by
  refine sure_withAst fun childAst => (sure_choose hgen).bind fun other => ?_
  dsimp only
  split
  · exact Prog.sure_pure _
  · rename_i hdonor
    refine (sure_range (List.length_pos_iff.2 hdonor)).bind fun randomStart => (sure_extend h0 h1 1).bind fun len => ?_
    split
    · exact Prog.sure_pure _
    · exact (sure_range (Nat.succ_pos _)).bind fun randomInsert => Prog.sure_pure _

theorem SpliceOut.sure {rule : SpliceOut} (h0 : 0 ≤ rule.pExtend) (h1 : rule.pExtend < 1) :
    Prog.Sure (rule.breedInner child) := by
  refine sure_withAst fun childAst => ?_
  split
  · exact Prog.sure_pure _
  · refine (sure_range (by omega)).bind fun randomStart => (sure_extend h0 h1 1).bind fun len => ?_
    dsimp only
    split
    · exact Prog.sure_pure _
    · exact Prog.sure_pure _

theorem sure_shuffleAcross (T : AstNode (AST Stmt) Node) (donor : RawEntry Stmt) {chancePerNode chancePerField : ℚ}
    (hnode : IsChance chancePerNode) (hfield : IsChance chancePerField) :
    Prog.Sure (shuffleAcross T child donor chancePerNode chancePerField) := by
  unfold shuffleAcross
  split
  · exact Prog.sure_pure _
  · dsimp only
    split
    · exact Prog.sure_pure _
    · refine (Prog.sure_visit (fun node isMutated => sure_hit hnode ?_ (Prog.sure_pure _)) _ _).bind fun r => ?_
      · dsimp only
        split
        · exact Prog.sure_pure _
        · rename_i hdonors
          rw [List.isEmpty_iff] at hdonors
          refine (sure_choose hdonors).bind fun donor => ?_
          split
          · refine (sure_swapRandomFields hfield _ _).bind fun nodeJson => ?_
            split
            · exact Prog.sure_pure _
            · exact Prog.sure_pure _
          · exact Prog.sure_pure _
      · split
        · exact Prog.sure_pure _
        · exact Prog.sure_pure _

theorem TreeMutator.sure (T : AstNode (AST Stmt) Node) {rule : TreeMutator} (hnode : IsChance rule.chancePerNode)
    (hfield : IsChance rule.chancePerField) (hgen : parentGen ≠ []) :
    Prog.Sure (rule.breedInner T child parentGen) := by
  unfold TreeMutator.breedInner
  split
  · refine (sure_choose hgen).bind fun rdDonor => ?_
    exact (sure_shuffleAcross T _ hnode hfield).bind fun r => Prog.sure_pure _
  · exact (sure_shuffleAcross T _ hnode hfield).bind fun r => Prog.sure_pure _
  · refine sure_visiting _ (fun node isMutated => sure_hit hnode ?_ (Prog.sure_pure _)) child
    split
    · exact Prog.sure_pure _
    · refine (sure_nullRandomFields hfield _).bind fun jsonNode => ?_
      split
      · exact Prog.sure_pure _
      · exact Prog.sure_pure _

theorem ArbitraryGenerator.sure (T : AstNode (AST Stmt) Node) (rule : ArbitraryGenerator) :
    Prog.Sure (rule.breedInner T child) := by
  refine sure_withAst fun childAst => ?_
  dsimp only
  split
  · exact Prog.sure_pure _
  · rename_i hcount
    refine (sure_range (Nat.pos_of_ne_zero hcount)).bind fun targetIndex => ?_
    refine (Prog.sure_visit (fun node r => ?_) _ _).bind fun r => Prog.sure_pure _
    unfold ArbitraryGenerator.closure
    split
    · refine (sure_fillBytes 256).bind fun data => ?_
      split
      · exact Prog.sure_pure _
      · exact Prog.sure_pure _
    · exact Prog.sure_pure _

variable [Sqlparser Stmt]

open Sqlparser

theorem SubQuery.sure {rule : SubQuery} (h : IsChance rule.mutationChance) (hgen : parentGen ≠ []) :
    Prog.Sure (rule.breedInner child parentGen) := by
  refine sure_visiting _ (fun expr isMutated => ?_) child
  unfold SubQuery.closure
  split
  · exact Prog.sure_pure _
  · split
    · exact sure_hit h ((sure_choose hgen).bind fun other => Prog.sure_pure _) (Prog.sure_pure _)
    · exact Prog.sure_pure _

theorem SetOps.sure (rule : SetOps) (hgen : parentGen ≠ []) : Prog.Sure (rule.breedInner child parentGen) := by
  refine sure_withAst fun childAst => (sure_choose hgen).bind fun other => ?_
  dsimp only
  split
  · exact Prog.sure_pure _
  · rename_i hleft
    rw [List.isEmpty_iff] at hleft
    split
    · exact Prog.sure_pure _
    · rename_i hright
      rw [List.isEmpty_iff] at hright
      have hchild : 0 < childAst.length := by
        rw [List.length_pos_iff]
        rintro rfl
        exact hleft rfl
      refine (sure_choose (by simp)).bind fun op => (sure_bool (by decide +kernel)).bind fun all => ?_
      refine (sure_choose hright).bind fun rq => (sure_choose hleft).bind fun lq => ?_
      exact (sure_range hchild).bind fun rd => Prog.sure_pure _

theorem HoistExpr.sure {rule : HoistExpr} (h : IsChance rule.chancePerNode) : Prog.Sure (rule.breedInner child) := by
  refine sure_visiting _ (fun expr isMutated => sure_hit h ?_ (Prog.sure_pure _)) child
  split
  · exact Prog.sure_pure _
  · dsimp only
    split
    · exact Prog.sure_pure _
    · rename_i hcandidates
      rw [List.isEmpty_iff] at hcandidates
      exact (sure_choose hcandidates).bind fun chosenChild => Prog.sure_pure _

theorem ExprShuffle.sure {rule : ExprShuffle} (h : IsChance rule.chancePerNode) (hgen : parentGen ≠ []) :
    Prog.Sure (rule.breedInner child parentGen) := by
  refine sure_withAst fun childAst => (sure_choose hgen).bind fun rdDonor => ?_
  dsimp only
  split
  · exact Prog.sure_pure _
  · refine (Prog.sure_visit (fun expr isMutated => ?_) _ _).bind fun r => ?_
    · unfold ExprShuffle.closure
      dsimp only
      split
      · exact Prog.sure_pure _
      · rename_i htargets
        rw [List.isEmpty_iff] at htargets
        refine sure_hit h ((sure_choose htargets).bind fun randomTarget => ?_) (Prog.sure_pure _)
        split
        · exact Prog.sure_pure _
        · exact Prog.sure_pure _
    · split
      · exact Prog.sure_pure _
      · exact Prog.sure_pure _

theorem RelShuffle.sure {rule : RelShuffle} (h : IsChance rule.chancePerNode) : Prog.Sure (rule.breedInner child) := by
  refine sure_withAst fun childAst => ?_
  dsimp only
  split
  · exact Prog.sure_pure _
  · rename_i hrels
    rw [List.isEmpty_iff] at hrels
    refine (Prog.sure_visit (fun rel isMutated => ?_) _ _).bind fun r => Prog.sure_pure _
    refine sure_hit h ((sure_choose hrels).bind fun randomTarget => ?_) (Prog.sure_pure _)
    split
    · exact Prog.sure_pure _
    · exact Prog.sure_pure _

theorem NumericBounds.sure {rule : NumericBounds} (h : IsChance rule.mutateChance) :
    Prog.Sure (rule.breedInner child) := by
  refine sure_visiting _ (fun expr isMutated => ?_) child
  unfold NumericBounds.closure
  split
  · exact Prog.sure_pure _
  · exact sure_hit h ((sure_choose (by simp [numBounds])).bind fun bound => Prog.sure_pure _) (Prog.sure_pure _)

theorem OperatorFlip.sure {rule : OperatorFlip} (h : IsChance rule.flipChance) : Prog.Sure (rule.breedInner child) := by
  refine sure_visiting _ (fun expr isMutated => ?_) child
  unfold OperatorFlip.closure
  split
  · exact Prog.sure_pure _
  · refine sure_hit h ?_ (Prog.sure_pure _)
    split
    · exact Prog.sure_pure _
    · exact Prog.sure_pure _

theorem sure_replacing {eligible : Node → Bool} {chance : ℚ} {draw : Node → Rng Node} (h : IsChance chance)
    (hdraw : ∀ node, Prog.Sure (draw node)) (node : Node) (isMutated : Bool) :
    Prog.Sure (replacing eligible chance draw node isMutated) := by
  unfold replacing
  split
  · exact sure_hit h ((hdraw node).bind fun node => Prog.sure_pure _) (Prog.sure_pure _)
  · exact Prog.sure_pure _

theorem NullInject.sure {rule : NullInject} (h : IsChance rule.mutationChance) : Prog.Sure (rule.breedInner child) :=
  sure_visiting _ (sure_replacing h fun _ => Prog.sure_pure _) child

theorem TypeCast.sure {rule : TypeCast} (h : IsChance rule.mutationChance) : Prog.Sure (rule.breedInner child) :=
  sure_visiting _ (sure_replacing h fun _ => (sure_choose (by simp [castTypes])).bind fun ty => Prog.sure_pure _) child

theorem ForceIdent.sure (rule : ForceIdent) : Prog.Sure (rule.breedInner child) := by
  refine sure_withAst fun childAst => ?_
  dsimp only
  split
  · exact Prog.sure_pure _
  · rename_i hrelation
    rw [List.isEmpty_iff] at hrelation
    refine (sure_choose hrelation).bind fun rdIdent => ?_
    exact (Prog.sure_visit (fun rel b => Prog.sure_pure _) _ _).bind fun r => Prog.sure_pure _

theorem TableNameScramble.sure (rule : TableNameScramble) : Prog.Sure (rule.breedInner child) := by
  refine sure_withAst fun childAst => ?_
  dsimp only
  split
  · exact Prog.sure_pure _
  · rename_i htables
    rw [List.isEmpty_iff] at htables
    refine (Prog.sure_foldlM (fun r stmt => ?_) _).bind fun r => Prog.sure_pure _
    unfold TableNameScramble.scramble
    split
    · exact Prog.sure_pure _
    · refine (Prog.sure_visit (fun relation isMutated => ?_) _ _).bind fun r => Prog.sure_pure _
      unfold TableNameScramble.closure
      split
      · exact (sure_choose htables).bind fun table => Prog.sure_pure _
      · exact Prog.sure_pure _

theorem TableGuard.sure (rule : TableGuard) : Prog.Sure (rule.breedInner child) := by
  refine sure_visiting _ (fun stmt isMutated => ?_) child
  unfold TableGuard.closure
  split
  · exact Prog.sure_pure _
  · exact Prog.sure_pure _

theorem RecursiveExpandExpr.sure {rule : RecursiveExpandExpr} (hnode : IsChance rule.chancePerNode)
    (hlevel : IsChance rule.chancePerLevel) : Prog.Sure (rule.breedInner child) := by
  refine sure_visiting _ (fun expr isMutated => sure_hit hnode ?_ (Prog.sure_pure _)) child
  split
  · exact Prog.sure_pure _
  · split
    · dsimp only
      split
      · exact Prog.sure_pure _
      · rename_i hfields
        rw [List.isEmpty_iff] at hfields
        refine (sure_expandRecursive hfields hlevel _ _).bind fun jsonObject => ?_
        split
        · exact Prog.sure_pure _
        · exact Prog.sure_pure _
    · exact Prog.sure_pure _

/-- The chances of a rule are chances, and its blocks end. -/
def Leaf.Valid : Leaf → Prop
  | .spliceIn rule => 0 ≤ rule.pExtend ∧ rule.pExtend < 1
  | .spliceOut rule => 0 ≤ rule.pExtend ∧ rule.pExtend < 1
  | .subQuery rule => IsChance rule.mutationChance
  | .hoistExpr rule => IsChance rule.chancePerNode
  | .exprShuffle rule => IsChance rule.chancePerNode
  | .relShuffle rule => IsChance rule.chancePerNode
  | .numericBounds rule => IsChance rule.mutateChance
  | .operatorFlip rule => IsChance rule.flipChance
  | .nullInject rule => IsChance rule.mutationChance
  | .typeCast rule => IsChance rule.mutationChance
  | .recursiveExpandExpr rule => IsChance rule.chancePerNode ∧ IsChance rule.chancePerLevel
  | .treeMutator _ rule => IsChance rule.chancePerNode ∧ IsChance rule.chancePerField
  | .noop | .setOps _ | .forceIdent _ | .tableNameScramble _ | .tableGuard _ | .arbitraryGenerator _ _ => True

/-- **A valid rule never panics**: whatever has been drawn, it can still return. -/
theorem Leaf.sure {leaf : Leaf} (h : leaf.Valid) (child : Child Stmt) (hgen : parentGen ≠ []) :
    Prog.Sure (leaf.breedInner child parentGen) := by
  cases leaf with
  | noop => exact Prog.sure_pure _
  | spliceIn rule => exact SpliceIn.sure h.1 h.2 hgen
  | subQuery rule => exact SubQuery.sure h hgen
  | setOps rule => exact rule.sure hgen
  | spliceOut rule => exact SpliceOut.sure h.1 h.2
  | hoistExpr rule => exact HoistExpr.sure h
  | exprShuffle rule => exact ExprShuffle.sure h hgen
  | relShuffle rule => exact RelShuffle.sure h
  | numericBounds rule => exact NumericBounds.sure h
  | operatorFlip rule => exact OperatorFlip.sure h
  | nullInject rule => exact NullInject.sure h
  | typeCast rule => exact TypeCast.sure h
  | forceIdent rule => exact rule.sure
  | tableNameScramble rule => exact rule.sure
  | tableGuard rule => exact rule.sure
  | recursiveExpandExpr rule => exact RecursiveExpandExpr.sure h.1 h.2
  | treeMutator T rule =>
    cases T with
    | statement => exact TreeMutator.sure statements h.1 h.2 hgen
    | expr => exact TreeMutator.sure expressions h.1 h.2 hgen
  | arbitraryGenerator T rule =>
    cases T with
    | statement => exact rule.sure statements
    | expr => exact rule.sure expressions

end Leaves

end Lsf.Mutate
