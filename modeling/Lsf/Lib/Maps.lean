import Mathlib.Data.List.AList
import Mathlib.Data.Finset.Card
import Mathlib.Data.Finset.Sort
import Mathlib.Data.List.Nodup

/-!
# Keyed maps

Hash maps are association lists without duplicate keys (`AList`); what is added here are their operations point by
point, and `modify`. `IndexMap` is the map that also remembers the order of insertion: inserting a key that is present
keeps its place, and entries can be taken out by position.
-/

namespace Lsf.Lib

variable {K V : Type*} [DecidableEq K]

/-! ## Hash maps -/

/-- Maps with values of one type. -/
abbrev HashMap (K V : Type*) := AList (fun _ : K => V)

namespace HashMap

variable {m : HashMap K V} {k j : K} {v : V}

theorem lookup_insert_iff (m : HashMap K V) (k j : K) (v : V) :
    (m.insert k v).lookup j = if j = k then some v else m.lookup j := by
  by_cases h : j = k
  · subst h; simp
  · simp [h, AList.lookup_insert_ne h]

theorem lookup_erase_iff (m : HashMap K V) (k j : K) :
    (m.erase k).lookup j = if j = k then none else m.lookup j := by
  by_cases h : j = k
  · subst h; simp
  · simp [h, AList.lookup_erase_ne h]

theorem eq_empty_of_lookup {m : HashMap K V} (h : ∀ k, m.lookup k = none) : m = ∅ := by
  have hkeys : m.keys = [] := List.eq_nil_iff_forall_not_mem.2 fun k hk => by
    have hsome := AList.lookup_isSome.2 (AList.mem_keys.2 hk)
    rw [h k] at hsome
    cases hsome
  exact AList.ext (List.map_eq_nil_iff.1 hkeys)

/-- Change the value of `k`, if there is one. -/
def modify (m : HashMap K V) (k : K) (f : V → V) : HashMap K V :=
  match m.lookup k with
  | some v => m.insert k (f v)
  | none => m

theorem lookup_modify (m : HashMap K V) (k j : K) (f : V → V) :
    (modify m k f).lookup j = if j = k then (m.lookup k).map f else m.lookup j := by
  unfold modify
  split
  · rename_i v hv
    rw [lookup_insert_iff, hv]; rfl
  · rename_i hv
    by_cases h : j = k
    · subst h; simp [hv]
    · simp [h]

/-- The keys of a map. -/
def keySet (m : HashMap K V) : Finset K := m.keys.toFinset

@[simp] theorem mem_keySet : k ∈ keySet m ↔ (m.lookup k).isSome := by
  rw [keySet, List.mem_toFinset, ← AList.mem_keys, AList.lookup_isSome]

/-- The number of entries. -/
def size (m : HashMap K V) : Nat := m.keys.length

theorem card_keySet (m : HashMap K V) : (keySet m).card = size m := List.toFinset_card_of_nodup m.keys_nodup

theorem size_insert_le (m : HashMap K V) (k : K) (v : V) : size (m.insert k v) ≤ size m + 1 := by
  unfold size
  rw [AList.keys_insert, List.length_cons]
  have hle := List.length_erase_le (a := k) (l := m.keys)
  omega

theorem size_erase_le (m : HashMap K V) (k : K) : size (m.erase k) ≤ size m := by
  unfold size
  rw [AList.keys_erase]
  exact List.length_erase_le

theorem size_erase_lt (h : (m.lookup k).isSome) : size (m.erase k) < size m := by
  have hmem : k ∈ m.keys := AList.mem_keys.1 (AList.lookup_isSome.1 h)
  have hpos := List.length_pos_of_mem hmem
  unfold size
  rw [AList.keys_erase, List.length_erase_of_mem hmem]
  omega

theorem size_pos_iff : 0 < size m ↔ ∃ k, (m.lookup k).isSome := by
  rw [← card_keySet, Finset.card_pos]
  constructor
  · rintro ⟨k, hk⟩
    exact ⟨k, mem_keySet.1 hk⟩
  · rintro ⟨k, hk⟩
    exact ⟨k, mem_keySet.2 hk⟩

end HashMap

/-- A log that grows at its end answers with the first entry of a key. -/
theorem lookup_snoc (log : List (K × V)) (i j : K) (v : V) :
    (log ++ [(i, v)]).lookup j = (log.lookup j).or (if j = i then some v else none) := by
  rw [List.lookup_append]
  by_cases h : j = i
  · subst h
    rw [List.lookup_cons_self, if_pos rfl]
  · rw [List.lookup_cons, beq_eq_false_iff_ne.2 h, if_neg h, List.lookup_nil]

/-- An order in which hash sets are iterated. -/
structure HashOrder (K : Type*) where
  list : Finset K → List K
  nodup : ∀ s, (list s).Nodup
  mem : ∀ s k, k ∈ list s ↔ k ∈ s

/-- The order of a linear order. -/
def HashOrder.sorted (K : Type*) [LinearOrder K] : HashOrder K where
  list s := s.sort
  nodup s := s.sort_nodup _
  mem _ _ := Finset.mem_sort _

omit [DecidableEq K] in
theorem HashOrder.list_singleton (order : HashOrder K) (k : K) : order.list {k} = [k] := by
  have hperm : (order.list {k}).Perm [k] :=
    (List.perm_ext_iff_of_nodup (order.nodup _) (List.nodup_singleton k)).2 fun j => by simp [order.mem]
  exact List.perm_singleton.1 hperm

/-- A change that a projection does not see. -/
theorem map_modify_eq {T U : Type*} {f : T → U} {g : T → T} (h : ∀ x, f (g x) = f x) (l : List T) (i : Nat) :
    (l.modify i g).map f = l.map f := by
  apply List.ext_getElem?
  intro j
  rw [List.getElem?_map, List.getElem?_map, List.getElem?_modify]
  cases l[j]? with
  | none => rfl
  | some x => by_cases hij : i = j <;> simp [hij, h]

/-- `Vec::swap_remove`: the last element takes the place of the one removed. -/
def swapRemove {T : Type*} (l : List T) (i : Nat) : List T :=
  match l.getLast? with
  | some last => (l.set i last).dropLast
  | none => []

theorem swapRemove_perm {T : Type*} {l : List T} {i : Nat} (h : i < l.length) :
    (swapRemove l i).Perm (l.eraseIdx i) := by
  rcases List.eq_nil_or_concat' l with rfl | ⟨l, last, rfl⟩
  · cases h
  · have hlast : swapRemove (l ++ [last]) i = ((l ++ [last]).set i last).dropLast := by simp [swapRemove]
    rw [hlast]
    by_cases hi : i < l.length
    · rw [List.set_append_left _ _ hi, List.dropLast_concat, List.eraseIdx_append_of_lt_length hi]
      exact (List.set_perm_cons_eraseIdx hi last).trans (List.perm_append_singleton last _).symm
    · obtain rfl : i = l.length := by
        rw [List.length_append, List.length_singleton] at h
        omega
      rw [List.set_append_right _ _ le_rfl, List.eraseIdx_append_of_length_le le_rfl]
      simp

/-! ## Maps in insertion order -/

/-- A map whose entries are kept in the order of their insertion. -/
structure IndexMap (K V : Type*) where
  entries : List (K × V)
  nodup : (entries.map Prod.fst).Nodup

namespace IndexMap

/-- Keys from entries. -/
def keys (m : IndexMap K V) : List K := m.entries.map Prod.fst

def len (m : IndexMap K V) : Nat := m.entries.length

def empty : IndexMap K V := ⟨[], List.nodup_nil⟩

def get (m : IndexMap K V) (k : K) : Option V := (m.entries.find? fun p => p.1 = k).map Prod.snd

/-- Replace the value of a key in place, or append a new entry. -/
def insert (m : IndexMap K V) (k : K) (v : V) : IndexMap K V :=
  if h : k ∈ m.keys then
    ⟨m.entries.map fun p => if p.1 = k then (k, v) else p, by
      have hkeys : (m.entries.map fun p => if p.1 = k then (k, v) else p).map Prod.fst = m.entries.map Prod.fst := by
        rw [List.map_map]
        refine List.map_congr_left fun p _ => ?_
        by_cases hp : p.1 = k <;> simp [hp]
      rw [hkeys]
      exact m.nodup⟩
  else
    ⟨m.entries ++ [(k, v)], by
      rw [List.map_append, List.nodup_append']
      exact ⟨m.nodup, List.nodup_singleton _, by simpa [keys] using h⟩⟩

/-- `entry(k).or_insert(v)`: the value of the key, which is the one it had or `v`. -/
def orInsert (m : IndexMap K V) (k : K) (v : V) : V × IndexMap K V :=
  match m.get k with
  | some w => (w, m)
  | none => (v, m.insert k v)

/-- Drop the entry of `k`; the order of the others stays. -/
def erase (m : IndexMap K V) (k : K) : IndexMap K V :=
  ⟨m.entries.filter fun p => p.1 ≠ k, m.nodup.sublist (List.filter_sublist.map _)⟩

/-- `shift_remove`. -/
def shiftRemove (m : IndexMap K V) (k : K) : Option (V × IndexMap K V) := (m.get k).map fun v => (v, m.erase k)

/-- `shift_remove_index`. -/
def shiftRemoveIndex (m : IndexMap K V) (i : Nat) : Option ((K × V) × IndexMap K V) :=
  (m.entries[i]?).map fun p => (p, m.erase p.1)

/-- An assignment through `get_index_mut`. -/
def setValue (m : IndexMap K V) (i : Nat) (v : V) : IndexMap K V :=
  ⟨m.entries.modify i fun p => (p.1, v), by
    have hkeys := map_modify_eq (f := Prod.fst) (g := fun p => (p.1, v)) (fun _ => rfl) m.entries i
    exact hkeys ▸ m.nodup⟩

/-- `swap_remove`. -/
def swapRemove (m : IndexMap K V) (k : K) : IndexMap K V :=
  match h : m.entries.findIdx? fun p => p.1 = k with
  | some i => ⟨Lib.swapRemove m.entries i, by
      have hi := (List.findIdx?_eq_some_iff_getElem.1 h).1
      exact (((swapRemove_perm hi).map _).nodup_iff).2 (m.nodup.sublist ((List.eraseIdx_sublist ..).map _))⟩
  | none => m

variable {m : IndexMap K V} {k j : K} {v : V}

theorem get_eq_some_iff : m.get k = some v ↔ (k, v) ∈ m.entries := by
  unfold get
  constructor
  · intro h
    obtain ⟨⟨k', v'⟩, hp, rfl⟩ := Option.map_eq_some_iff.1 h
    have hk := List.find?_some hp
    simp only [decide_eq_true_eq] at hk
    subst hk
    exact List.mem_of_find?_eq_some hp
  · intro h
    obtain ⟨⟨k', v'⟩, hp⟩ : ∃ p, m.entries.find? (fun p => p.1 = k) = some p :=
      Option.isSome_iff_exists.1 (List.find?_isSome.2 ⟨(k, v), h, by simp⟩)
    have hk := List.find?_some hp
    simp only [decide_eq_true_eq] at hk
    subst hk
    -- the keys are distinct, so the entry found is the entry asked for
    have heq := List.inj_on_of_nodup_map m.nodup (List.mem_of_find?_eq_some hp) h rfl
    rw [hp, heq]; rfl

theorem mem_keys : k ∈ m.keys ↔ (m.get k).isSome := by
  rw [Option.isSome_iff_exists]
  simp only [keys, List.mem_map, Prod.exists, exists_and_right, exists_eq_right, get_eq_some_iff]

theorem get_insert (m : IndexMap K V) (k j : K) (v : V) :
    (m.insert k v).get j = if j = k then some v else m.get j := by
  ext w
  rw [get_eq_some_iff]
  by_cases hj : j = k
  · subst hj
    simp only [if_true, Option.some.injEq]
    by_cases h : j ∈ m.keys
    · obtain ⟨u, hu⟩ : ∃ u, (j, u) ∈ m.entries := by simpa [keys] using h
      simp only [insert, h, dif_pos, List.mem_map]
      refine ⟨fun ⟨p, hp, he⟩ => ?_, fun he => ⟨(j, u), hu, by simp [he]⟩⟩
      by_cases hpj : p.1 = j <;> simp_all
    · have hno : (j, w) ∉ m.entries := fun hm => h (List.mem_map.2 ⟨_, hm, rfl⟩)
      simp [insert, h, hno, eq_comm]
  · simp only [hj, if_false, get_eq_some_iff]
    by_cases h : k ∈ m.keys
    · simp only [insert, h, dif_pos, List.mem_map]
      refine ⟨fun ⟨p, hp, he⟩ => ?_, fun hm => ⟨(j, w), hm, by simp [hj]⟩⟩
      by_cases hpk : p.1 = k
      · simp only [hpk, if_true, Prod.mk.injEq] at he
        exact absurd he.1.symm hj
      · simp only [hpk, if_false] at he
        exact he ▸ hp
    · simp [insert, h, hj]

theorem get_erase (m : IndexMap K V) (k j : K) : (m.erase k).get j = if j = k then none else m.get j := by
  ext w
  rw [get_eq_some_iff]
  by_cases hj : j = k
  · simp [erase, hj]
  · simp [erase, hj, get_eq_some_iff]

@[simp] theorem mem_keys_insert : j ∈ (m.insert k v).keys ↔ j = k ∨ j ∈ m.keys := by
  rw [mem_keys, get_insert, mem_keys]
  by_cases hj : j = k <;> simp [hj]

/-- A new entry comes last. -/
theorem entries_insert_of_notMem (h : k ∉ m.keys) : (m.insert k v).entries = m.entries ++ [(k, v)] := by
  unfold insert
  rw [dif_neg h]

theorem keys_insert_of_notMem (h : k ∉ m.keys) : (m.insert k v).keys = m.keys ++ [k] := by
  simp [keys, entries_insert_of_notMem h]

omit [DecidableEq K] in
@[simp] theorem keys_setValue {i : Nat} : (m.setValue i v).keys = m.keys :=
  map_modify_eq (f := Prod.fst) (g := fun p => (p.1, v)) (fun _ => rfl) m.entries i

@[simp] theorem mem_keys_swapRemove : j ∈ (m.swapRemove k).keys ↔ j ≠ k ∧ j ∈ m.keys := by
  unfold swapRemove
  split
  · rename_i i hi
    obtain ⟨hlt, hk, -⟩ := List.findIdx?_eq_some_iff_getElem.1 hi
    have hget : m.keys[i]? = some k := by
      rw [keys, List.getElem?_map, List.getElem?_eq_getElem hlt]
      simpa using hk
    obtain ⟨hlt', hget⟩ := List.getElem?_eq_some_iff.1 hget
    have hnodup : m.keys.Nodup := m.nodup
    have hkeys : (m.entries.eraseIdx i).map Prod.fst = m.keys.erase k := by
      rw [← List.eraseIdx_map, ← hget, hnodup.erase_getElem i hlt']
      rfl
    have hperm := (swapRemove_perm hlt).map Prod.fst
    rw [hkeys] at hperm
    exact hperm.mem_iff.trans hnodup.mem_erase_iff
  · rename_i hnone
    have hk : k ∉ m.keys := by
      intro hk
      obtain ⟨p, hp, rfl⟩ := List.mem_map.1 hk
      simpa using List.findIdx?_eq_none_iff.1 hnone p hp
    exact ⟨fun hj => ⟨fun heq => hk (heq ▸ hj), hj⟩, And.right⟩

theorem mem_of_mem_swapRemove {p : K × V} (h : p ∈ (m.swapRemove k).entries) : p ∈ m.entries := by
  unfold swapRemove at h
  split at h
  · rename_i i hi
    have hlt := (List.findIdx?_eq_some_iff_getElem.1 hi).1
    exact List.mem_of_mem_eraseIdx ((swapRemove_perm hlt).mem_iff.1 h)
  · exact h

theorem len_insert_le (m : IndexMap K V) (k : K) (v : V) : (m.insert k v).len ≤ m.len + 1 := by
  unfold insert len
  split <;> simp

theorem len_erase_le (m : IndexMap K V) (k : K) : (m.erase k).len ≤ m.len := List.length_filter_le _ _

theorem len_erase_lt (h : k ∈ m.keys) : (m.erase k).len < m.len := by
  obtain ⟨p, hp, rfl⟩ := List.mem_map.1 h
  exact List.length_filter_lt_length_iff_exists.2 ⟨p, hp, by simp⟩

theorem shiftRemove_eq_some {m' : IndexMap K V} :
    m.shiftRemove k = some (v, m') ↔ m.get k = some v ∧ m' = m.erase k := by
  simp [shiftRemove, eq_comm]

theorem shiftRemoveIndex_eq_some {i : Nat} {m' : IndexMap K V} (h : m.shiftRemoveIndex i = some ((k, v), m')) :
    m.get k = some v ∧ m' = m.erase k := by
  obtain ⟨p, hp, heq⟩ := Option.map_eq_some_iff.1 h
  obtain ⟨rfl, rfl⟩ := Prod.mk.inj heq
  exact ⟨get_eq_some_iff.2 (List.mem_of_getElem? hp), rfl⟩

theorem shiftRemoveIndex_eq_none {i : Nat} : m.shiftRemoveIndex i = none ↔ m.len ≤ i := by
  simp [shiftRemoveIndex, len]

end IndexMap

end Lsf.Lib
