import Mathlib.Logic.Relation
import Lsf.Mutate.Sqlparser

/-!
# Parts of values

The parts of a `serde_json` value are the items of an array and the values of the fields of an object; what lies
properly below it are its parts, their parts, and so on, all of them smaller. The search of `reduce.rs` finds what
decodes at or below a value (`mem_dig`), and a tree whose fields are mixed with its own may stay what it is, unless
the chance makes that panic (`swapRandomFields_self`).
-/

namespace Lsf.Mutate

open Lsf.Core Lsf.Lib

namespace Json

/-- `v` is an item of the array `w`, or the value of a field of the object `w`. -/
inductive Part : Json → Json → Prop
  | item {v : Json} {items : List Json} : v ∈ items → Part v (.array items)
  | field {k : String} {v : Json} {m : JsonMap} : (k, v) ∈ m → Part v (.object m)

/-- `v` lies at or below `w`. -/
abbrev Sub : Json → Json → Prop := Relation.ReflTransGen Part

/-- `v` is a proper sub-value of `w`. -/
abbrev ProperSub : Json → Json → Prop := Relation.TransGen Part

mutual

/-- How many values there are at and below a value. -/
def size : Json → Nat
  | .array items => sizeItems items + 1
  | .object m => sizeFields m + 1
  | _ => 1

def sizeItems : List Json → Nat
  | [] => 0
  | v :: items => size v + sizeItems items

def sizeFields : List (String × Json) → Nat
  | [] => 0
  | (_, v) :: m => size v + sizeFields m

end

theorem size_le_sizeItems {v : Json} {items : List Json} (h : v ∈ items) : v.size ≤ sizeItems items := by
  induction items with
  | nil => cases h
  | cons w items ih =>
    rw [sizeItems]
    cases h with
    | head => exact Nat.le_add_right _ _
    | tail _ h => exact (ih h).trans (Nat.le_add_left _ _)

theorem size_le_sizeFields {k : String} {v : Json} {m : JsonMap} (h : (k, v) ∈ m) : v.size ≤ sizeFields m := by
  induction m with
  | nil => cases h
  | cons field m ih =>
    rw [sizeFields]
    cases h with
    | head => exact Nat.le_add_right _ _
    | tail _ h => exact (ih h).trans (Nat.le_add_left _ _)

theorem Part.size_lt {v w : Json} (h : Part v w) : v.size < w.size := by
  cases h with
  | item h =>
    rw [size]
    exact Nat.lt_succ_of_le (size_le_sizeItems h)
  | field h =>
    rw [size]
    exact Nat.lt_succ_of_le (size_le_sizeFields h)

/-- **A proper sub-value is smaller.** -/
theorem ProperSub.size_lt {v w : Json} (h : ProperSub v w) : v.size < w.size := by
  induction h with
  | single h => exact h.size_lt
  | tail _ h ih => exact ih.trans h.size_lt

/-- What holds of a value whenever it holds of its parts holds of every value. -/
theorem part_induction {P : Json → Prop} (h : ∀ w, (∀ v, Part v w → P v) → P w) (w : Json) : P w :=
  (Subrelation.wf Part.size_lt (measure size).wf).induction w h

/-- No object at or below has two fields of one key. -/
def Keyed (w : Json) : Prop := ∀ m, Sub (.object m) w → (JsonMap.keys m).Nodup

theorem Keyed.part {v w : Json} (hw : Keyed w) (h : Part v w) : Keyed v := fun m hm => hw m (hm.tail h)

/-- A value is keyed if it has unique keys itself and its parts are keyed. -/
theorem keyed_of_parts {w : Json} (hw : ∀ m, w = .object m → (JsonMap.keys m).Nodup) (h : ∀ v, Part v w → Keyed v) :
    Keyed w := by
  intro m hm
  cases hm with
  | refl => exact hw m rfl
  | tail hm hpart => exact h _ hpart m hm

theorem Keyed.object {m : JsonMap} (h : Keyed (.object m)) : (JsonMap.keys m).Nodup := h m .refl

end Json

/-- What the visitors and `serde` promise: both visitors show the same nodes, if in another order, a node has a value
whose maps have unique keys, and the node is read back from it. -/
structure AstNode.Lawful {Root Node : Type} (T : AstNode Root Node) : Prop where
  shown : ∀ root, (T.visitMut root).shown.Perm (T.visit root)
  serializes : ∀ node, ∃ json, T.toValue node = some json ∧ json.Keyed
  deserializes : ∀ node json, T.toValue node = some json → T.fromValue json = some node

open Json

/-! ## The search -/

section Search

variable {Node : Type} {fromValue : Json → Option Node} {e : Node}

theorem mem_digItems {items : List Json} : e ∈ digItems fromValue items ↔ ∃ v ∈ items, e ∈ dig fromValue v := by
  induction items with
  | nil => simp [digItems]
  | cons v items ih => simp [digItems, ih]

theorem mem_digFields {m : JsonMap} : e ∈ digFields fromValue m ↔ ∃ k v, (k, v) ∈ m ∧ e ∈ dig fromValue v := by
  induction m with
  | nil => simp [digFields]
  | cons field m ih =>
    obtain ⟨k, v⟩ := field
    rw [digFields, List.mem_append, ih]
    constructor
    · rintro (h | ⟨k', v', hmem, h⟩)
      · exact ⟨k, v, List.mem_cons_self, h⟩
      · exact ⟨k', v', List.mem_cons_of_mem _ hmem, h⟩
    · rintro ⟨k', v', hmem, h⟩
      cases hmem with
      | head => exact .inl h
      | tail _ hmem => exact .inr ⟨k', v', hmem, h⟩

/-- One call of the search. -/
theorem mem_dig_step {w : Json} :
    e ∈ dig fromValue w ↔ fromValue w = some e ∨ ∃ v, Part v w ∧ e ∈ dig fromValue v := by
  have hleaf : ∀ w, (∀ v, ¬Part v w) → dig fromValue w = (fromValue w).toList →
      (e ∈ dig fromValue w ↔ fromValue w = some e ∨ ∃ v, Part v w ∧ e ∈ dig fromValue v) := by
    intro w hpart hdig
    rw [hdig, Option.mem_toList]
    exact (or_iff_left fun ⟨v, hv, _⟩ => hpart v hv).symm
  cases w with
  | null | bool _ | number _ | string _ => exact hleaf _ (fun v hv => nomatch hv) (by simp only [dig])
  | array items =>
    rw [dig, List.mem_append, Option.mem_toList, mem_digItems]
    refine or_congr_right ⟨fun ⟨v, hv, h⟩ => ⟨v, .item hv, h⟩, ?_⟩
    rintro ⟨v, ⟨hv⟩, h⟩
    exact ⟨v, hv, h⟩
  | object m =>
    rw [dig, List.mem_append, Option.mem_toList, mem_digFields]
    refine or_congr_right ⟨fun ⟨k, v, hv, h⟩ => ⟨v, .field hv, h⟩, ?_⟩
    rintro ⟨v, hv, h⟩
    cases hv with
    | field hv => exact ⟨_, v, hv, h⟩

/-- **The search finds what decodes at or below a value**, and nothing else. -/
theorem mem_dig {w : Json} : e ∈ dig fromValue w ↔ ∃ v, Sub v w ∧ fromValue v = some e := by
  constructor
  · induction w using part_induction with
    | h w ih =>
      intro h
      obtain h | ⟨v, hv, h⟩ := mem_dig_step.1 h
      · exact ⟨w, .refl, h⟩
      · obtain ⟨u, hu, he⟩ := ih v hv h
        exact ⟨u, hu.tail hv, he⟩
  · rintro ⟨v, hv, he⟩
    induction hv with
    | refl => exact mem_dig_step.2 (.inl he)
    | tail _ hpart ih => exact mem_dig_step.2 (.inr ⟨_, hpart, ih⟩)

end Search

/-! ## A tree and itself -/

section Swap

variable {chance : ℚ}

theorem JsonMap.mem_of_get {m : JsonMap} {k : String} {v : Json} (h : JsonMap.get m k = some v) : (k, v) ∈ m := by
  obtain ⟨⟨k', v'⟩, hfind, rfl⟩ := Option.map_eq_some_iff.1 h
  have hkey : k' = k := by simpa using List.find?_some hfind
  rw [← hkey]
  exact List.mem_of_find?_eq_some hfind

theorem JsonMap.get_of_mem {m : JsonMap} {k : String} {v : Json} (hm : (JsonMap.keys m).Nodup) (h : (k, v) ∈ m) :
    JsonMap.get m k = some v := by
  induction m with
  | nil => cases h
  | cons field m ih =>
    obtain ⟨hnew, hm⟩ := List.nodup_cons.1 hm
    unfold JsonMap.get
    cases h with
    | head => simp
    | tail _ h =>
      have hne : (field.1 == k) = false := by
        rw [beq_eq_false_iff_ne]
        rintro rfl
        exact hnew (List.mem_map.2 ⟨_, h, rfl⟩)
      rw [List.find?_cons, hne]
      exact ih hm h

/-- Fields that are all found in the source with their own values may stay. -/
theorem possible_swapFields (h0 : 0 ≤ chance) (h1 : chance ≤ 1) {src dst : JsonMap}
    (hget : ∀ k v, (k, v) ∈ dst → JsonMap.get src k = some v)
    (hpart : ∀ k v, (k, v) ∈ dst → (swapRandomFields chance v v).Possible v) :
    (swapFields chance dst src).Possible dst := by
  induction dst with
  | nil =>
    rw [swapFields]
    exact Rng.possible_pure []
  | cons field dst ih =>
    obtain ⟨k, v⟩ := field
    have hrest := ih (fun k v h => hget k v (List.mem_cons_of_mem _ h))
      fun k v h => hpart k v (List.mem_cons_of_mem _ h)
    rw [swapFields, hget k v List.mem_cons_self]
    refine (Rng.possible_bool h0 h1).bind ?_
    split
    · exact (Rng.possible_pure v).bind (hrest.bind (Rng.possible_pure _))
    · exact (hpart k v List.mem_cons_self).bind (hrest.bind (Rng.possible_pure _))

/-- Items that are all found in the source may stay. -/
theorem possible_swapItems (h0 : 0 ≤ chance) (h1 : chance ≤ 1) {src dst : List Json} (hsub : dst ⊆ src)
    (hpart : ∀ v ∈ dst, (swapRandomFields chance v v).Possible v) : (swapItems chance dst src).Possible dst := by
  induction dst with
  | nil =>
    rw [swapItems]
    exact Rng.possible_pure []
  | cons v dst ih =>
    have hrest := ih (fun w h => hsub (List.mem_cons_of_mem _ h)) fun w h => hpart w (List.mem_cons_of_mem _ h)
    rw [swapItems]
    refine (Rng.possible_choose (hsub List.mem_cons_self)).bind ((Rng.possible_bool h0 h1).bind ?_)
    dsimp only
    split
    · exact (Rng.possible_pure v).bind (hrest.bind (Rng.possible_pure _))
    · exact (hpart v List.mem_cons_self).bind (hrest.bind (Rng.possible_pure _))

/-- **A tree may stay what it is** when its fields are mixed with its own. -/
theorem possible_swapRandomFields (h0 : 0 ≤ chance) (h1 : chance ≤ 1) {w : Json} (hw : w.Keyed) :
    (swapRandomFields chance w w).Possible w := by
  induction w using part_induction with
  | h w ih =>
    have hpart : ∀ v, Part v w → (swapRandomFields chance v v).Possible v := fun v hv => ih v hv (hw.part hv)
    cases w with
    | null | bool _ | number _ | string _ =>
      simp only [swapRandomFields]
      exact Rng.possible_pure _
    | array items =>
      simp only [swapRandomFields, ge_iff_le, le_refl, if_true]
      exact (possible_swapItems h0 h1 (List.Subset.refl items) fun v hv => hpart v (.item hv)).bind
        (Rng.possible_pure _)
    | object m =>
      simp only [swapRandomFields]
      exact (possible_swapFields h0 h1 (fun k v => JsonMap.get_of_mem hw.object) fun k v hv => hpart v (.field hv)).bind
        (Rng.possible_pure _)

/-- Outside the unit interval, a tree has nothing to mix or mixing it panics. -/
theorem swapRandomFields_of_not_chance (hchance : ¬(0 ≤ chance ∧ chance ≤ 1)) {w : Json} (hw : w.Keyed) :
    (swapRandomFields chance w w).Possible w ∨ (swapRandomFields chance w w).MayPanic := by
  cases w with
  | null | bool _ | number _ | string _ =>
    simp only [swapRandomFields]
    exact .inl (Rng.possible_pure _)
  | array items =>
    simp only [swapRandomFields, ge_iff_le, le_refl, if_true]
    cases items with
    | nil =>
      simp only [swapItems]
      exact .inl ((Rng.possible_pure _).bind (Rng.possible_pure _))
    | cons v items =>
      simp only [swapItems]
      refine .inr (Rng.MayPanic.bind ?_)
      exact (Rng.possible_choose List.mem_cons_self).bind_mayPanic (Rng.mayPanic_bool hchance).bind
  | object m =>
    simp only [swapRandomFields]
    cases m with
    | nil =>
      simp only [swapFields]
      exact .inl ((Rng.possible_pure _).bind (Rng.possible_pure _))
    | cons field m =>
      rw [swapFields, JsonMap.get_of_mem hw.object List.mem_cons_self]
      exact .inr (Rng.mayPanic_bool hchance).bind.bind

/-- At any chance, mixing a tree with itself may leave it as it is, unless it panics. -/
theorem swapRandomFields_self (chance : ℚ) {w : Json} (hw : w.Keyed) :
    (swapRandomFields chance w w).Possible w ∨ (swapRandomFields chance w w).MayPanic := by
  by_cases hchance : 0 ≤ chance ∧ chance ≤ 1
  · exact .inl (possible_swapRandomFields hchance.1 hchance.2 hw)
  · exact swapRandomFields_of_not_chance hchance hw

end Swap

end Lsf.Mutate
