import Lsf.Mutate.Parts

/-!
# Bounded expansion

`prune_depth` and `expand_recursive` (`recurse.rs`) on objects. Pruning empties the objects that lie a number of
levels below the root, and leaves a value alone in which they are empty (`pruneDepth_eq_self`). Every step of an
expansion puts the next copy of the root into one field of the last one, so that a copy more is there with every step
and not twice as many (`ensures_expandRecursive`).
-/

namespace Lsf.Mutate

open Lsf.Core Lsf.Lib

namespace Json

/-- `w` is reached from the root `v` through `n` objects. -/
inductive Reached : Nat → Json → Json → Prop
  | refl (v : Json) : Reached 0 v v
  | field {n : Nat} {k : String} {v w : Json} {m : JsonMap} : (k, v) ∈ m → Reached n v w →
      Reached (n + 1) (.object m) w

/-- What is reached through `d` or more objects is no object with fields. -/
def Shallow (d : Nat) (v : Json) : Prop := ∀ n m, d ≤ n → Reached n v (.object m) → m = []

mutual

/-- How deep objects are nested in objects; nothing is counted inside of an array. -/
def nesting : Json → Nat
  | .object m => nestingFields m + 1
  | _ => 0

def nestingFields : List (String × Json) → Nat
  | [] => 0
  | (_, v) :: m => max (nesting v) (nestingFields m)

end

variable {d : Nat} {v w : Json} {m : JsonMap}

theorem nestingFields_le {n : Nat} (h : ∀ k v, (k, v) ∈ m → v.nesting ≤ n) : nestingFields m ≤ n := by
  induction m with
  | nil => exact Nat.zero_le n
  | cons field m ih =>
    rw [nestingFields]
    exact max_le (h field.1 field.2 List.mem_cons_self) (ih fun k v hv => h k v (List.mem_cons_of_mem _ hv))

theorem Shallow.field {k : String} (h : Shallow (d + 1) (.object m)) (hv : (k, v) ∈ m) : Shallow d v :=
  fun n m' hn hreach => h (n + 1) m' (Nat.succ_le_succ hn) (.field hv hreach)

theorem object_or (v : Json) : (∃ m, v = .object m) ∨ ∀ m, v ≠ .object m :=
  (em (∃ m, v = .object m)).imp_right not_exists.1

/-- Only from an object is an object reached. -/
theorem shallow_of_not_object (h : ∀ m, v ≠ .object m) : Shallow d v := by
  intro n m _ hreach
  cases hreach with
  | refl => exact (h m rfl).elim
  | field => exact (h _ rfl).elim

theorem nesting_of_not_object (h : ∀ m, v ≠ .object m) : v.nesting = 0 := by
  cases v with
  | object m => exact (h m rfl).elim
  | null | bool _ | number _ | string _ | array _ => simp only [nesting]

/-- **A shallow value is nested one level deeper** at most: the objects there are empty. -/
theorem Shallow.nesting_le (h : Shallow d v) : v.nesting ≤ d + 1 := by
  induction d generalizing v with
  | zero =>
    obtain ⟨m, rfl⟩ | hobject := object_or v
    · rw [h 0 m le_rfl (.refl _)]
      simp only [nesting, nestingFields, le_refl]
    · rw [nesting_of_not_object hobject]
      exact Nat.zero_le _
  | succ d ih =>
    obtain ⟨m, rfl⟩ | hobject := object_or v
    · rw [nesting]
      exact Nat.succ_le_succ (nestingFields_le fun k v hv => ih (h.field hv))
    · rw [nesting_of_not_object hobject]
      exact Nat.zero_le _

end Json

open Json

/-! ## Pruning -/

section Prune

variable {d : Nat} {v : Json}

theorem pruneDepth_of_not_object (h : ∀ m, v ≠ .object m) : pruneDepth d v = v := by
  cases v with
  | object m => exact (h m rfl).elim
  | null | bool _ | number _ | string _ | array _ => cases d <;> simp only [pruneDepth]

/-- **A pruned value is shallow.** -/
theorem shallow_pruneDepth (d : Nat) (v : Json) : Shallow d (pruneDepth d v) := by
  induction d generalizing v with
  | zero =>
    obtain ⟨m, rfl⟩ | hobject := object_or v
    · intro n m' _ hreach
      rw [pruneDepth] at hreach
      cases hreach with
      | refl => rfl
      | field hv => cases hv
    · rw [pruneDepth_of_not_object hobject]
      exact shallow_of_not_object hobject
  | succ d ih =>
    obtain ⟨m, rfl⟩ | hobject := object_or v
    · intro n m' hn hreach
      rw [pruneDepth] at hreach
      cases hreach with
      | refl => cases hn
      | field hv hreach =>
        obtain ⟨field, _, heq⟩ := List.mem_map.1 hv
        cases heq
        exact ih field.2 _ m' (Nat.le_of_succ_le_succ hn) hreach
    · rw [pruneDepth_of_not_object hobject]
      exact shallow_of_not_object hobject

/-- **What is shallow is not pruned.** -/
theorem pruneDepth_eq_self (h : Shallow d v) : pruneDepth d v = v := by
  induction d generalizing v with
  | zero =>
    obtain ⟨m, rfl⟩ | hobject := object_or v
    · rw [pruneDepth, h 0 m le_rfl (.refl _)]
    · exact pruneDepth_of_not_object hobject
  | succ d ih =>
    obtain ⟨m, rfl⟩ | hobject := object_or v
    · have hfields : m.map (fun field => (field.1, pruneDepth d field.2)) = m.map id :=
        List.map_congr_left fun field hv => congrArg (Prod.mk field.1) (ih (h.field hv))
      rw [pruneDepth, hfields, List.map_id]
    · exact pruneDepth_of_not_object hobject

end Prune

/-! ## Fields -/

namespace JsonMap

variable {m : JsonMap} {key : String} {v w : Json}

theorem mem_keys_of_get (h : get m key = some v) : key ∈ keys m :=
  List.mem_map.2 ⟨(key, v), mem_of_get h, rfl⟩

theorem mem_keys_insert {k : String} : k ∈ keys (insert key w m) ↔ k = key ∨ k ∈ keys m := by
  induction m with
  | nil => simp [insert, keys]
  | cons field m ih =>
    obtain ⟨k', v⟩ := field
    rw [insert]
    split
    · rename_i heq
      simp [keys, heq]
    · split
      · simp [keys]
      · simp only [keys, List.map_cons, List.mem_cons] at ih ⊢
        rw [ih]
        exact or_left_comm

/-- A new value comes in, and no value twice. -/
theorem sizeFields_insert_le (m : JsonMap) (key : String) (w : Json) :
    sizeFields (insert key w m) ≤ sizeFields m + w.size := by
  induction m with
  | nil => simp [insert, sizeFields]
  | cons field m ih =>
    obtain ⟨k', v⟩ := field
    rw [insert]
    split
    · simp only [sizeFields]
      omega
    · split
      · simp only [sizeFields]
        omega
      · simp only [sizeFields]
        omega

theorem nestingFields_insert_le (m : JsonMap) (key : String) (w : Json) :
    nestingFields (insert key w m) ≤ max (nestingFields m) w.nesting := by
  induction m with
  | nil => simp [insert, nestingFields]
  | cons field m ih =>
    obtain ⟨k', v⟩ := field
    rw [insert]
    split
    · simp only [nestingFields]
      omega
    · split
      · simp only [nestingFields]
        omega
      · simp only [nestingFields]
        omega

end JsonMap

/-! ## Expansion -/

section Expand

variable {fields : List String} {p : ℚ} {m : JsonMap}

/-- **Every step puts in one copy of the root**, a level below the last one. -/
theorem ensures_expandRecursive (d : Nat) {draws : List Draw} :
    Prog.Ensures (expandRecursive (.object m) fields p d m) draws fun m' _ =>
      (∀ k, k ∈ JsonMap.keys m' ↔ k ∈ JsonMap.keys m) ∧
        (Json.object m').size ≤ (d + 1) * (Json.object m).size ∧
        (Json.object m').nesting ≤ d + (Json.object m).nesting := by
  induction d generalizing draws with
  | zero =>
    rw [expandRecursive]
    exact Prog.ensures_pure ⟨fun _ => Iff.rfl, by omega, by omega⟩
  | succ d ih =>
    have hsame : (∀ k, k ∈ JsonMap.keys m ↔ k ∈ JsonMap.keys m) ∧
        (Json.object m).size ≤ (d + 1 + 1) * (Json.object m).size ∧
        (Json.object m).nesting ≤ d + 1 + (Json.object m).nesting :=
      ⟨fun _ => Iff.rfl, Nat.le_mul_of_pos_left _ (by omega), by omega⟩
    rw [expandRecursive]
    refine Prog.ensures_then fun expand draws => ?_
    split
    · exact Prog.ensures_pure hsame
    · refine Prog.ensures_then fun key draws => ?_
      split
      · exact Prog.ensures_pure hsame
      · rename_i hget
        refine Prog.ensures_bind ih fun inner draws ⟨_, hsize, hnesting⟩ => Prog.ensures_pure ⟨fun k => ?_, ?_, ?_⟩
        · rw [JsonMap.mem_keys_insert]
          exact or_iff_right_of_imp fun hkey => hkey ▸ JsonMap.mem_keys_of_get hget
        · have hinsert := JsonMap.sizeFields_insert_le m key (.object inner)
          calc (Json.object (JsonMap.insert key (.object inner) m)).size
            _ ≤ (Json.object m).size + (Json.object inner).size := by
              simp only [size] at hinsert ⊢
              omega
            _ ≤ (Json.object m).size + (d + 1) * (Json.object m).size := Nat.add_le_add_left hsize _
            _ = (d + 1 + 1) * (Json.object m).size := by ring
        · have hinsert := JsonMap.nestingFields_insert_le m key (.object inner)
          simp only [nesting] at hnesting hinsert ⊢
          omega

/-- Each step reads at most two draws. -/
theorem returns_expandRecursive (h0 : 0 ≤ p) (h1 : p ≤ 1) (hfields : fields ≠ []) (d : Nat) :
    Rng.Returns (2 * d) (expandRecursive (.object m) fields p d m) := by
  induction d with
  | zero =>
    rw [expandRecursive]
    exact Rng.returns_pure _ _
  | succ d ih =>
    rw [expandRecursive]
    refine ((Rng.returns_bool h0 h1).bind (m := 1 + 2 * d) fun expand => ?_).mono (by omega)
    split
    · exact Rng.returns_pure _ _
    · refine (Rng.returns_choose hfields).bind fun key => ?_
      split
      · exact Rng.returns_pure _ _
      · exact ih.bind (m := 0) fun inner => Rng.returns_pure _ _

end Expand

/-- **Expansion is bounded**: after pruning to `depth` no object with fields is reached through `depth` objects or
more, a value of which that holds is not changed, so that pruning again changes nothing; and expanding a copy of the
pruned root returns after `2 * depth` draws, the object having the same keys, at most `depth + 1` times as many
values, and objects in objects at most `2 * depth + 1` deep. -/
theorem recursiveExpansion_bounded (depth : Nat) (m : JsonMap) (chancePerLevel : ℚ) (expandableFields : List String)
    (draws : List Draw) :
    Shallow depth (pruneDepth depth (.object m)) ∧
    (Shallow depth (.object m) → pruneDepth depth (.object m) = .object m) ∧
    pruneDepth depth (pruneDepth depth (.object m)) = pruneDepth depth (.object m) ∧
    ∃ root, pruneDepth depth (.object m) = .object root ∧
      (0 ≤ chancePerLevel → chancePerLevel ≤ 1 → expandableFields ≠ [] →
        Rng.Returns (2 * depth) (expandRecursive (.object root) expandableFields chancePerLevel depth root)) ∧
      Prog.Ensures (expandRecursive (.object root) expandableFields chancePerLevel depth root) draws fun m' _ =>
        (∀ k, k ∈ JsonMap.keys m' ↔ k ∈ JsonMap.keys root) ∧
          (Json.object m').size ≤ (depth + 1) * (Json.object root).size ∧
          (Json.object m').nesting ≤ 2 * depth + 1 := by
  have hshallow := shallow_pruneDepth depth (.object m)
  refine ⟨hshallow, pruneDepth_eq_self, pruneDepth_eq_self hshallow, ?_⟩
  obtain ⟨root, hroot⟩ : ∃ root, pruneDepth depth (.object m) = .object root := by
    cases depth <;> exact ⟨_, by rw [pruneDepth]⟩
  rw [hroot] at hshallow
  refine ⟨root, hroot, fun h0 h1 hfields => returns_expandRecursive h0 h1 hfields depth, ?_⟩
  refine (ensures_expandRecursive depth).mono fun m' _ ⟨hkeys, hsize, hnesting⟩ => ⟨hkeys, hsize, ?_⟩
  have hdepth := hshallow.nesting_le
  omega

end Lsf.Mutate
