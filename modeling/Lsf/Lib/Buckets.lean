import Lsf.Lib.Maps
import Mathlib.Data.UInt

/-!
# Index maps with stored hashes

The buckets of an index map, in insertion order. A bucket keeps the hash of the key it was made for, and a lookup
compares this hash before the key: when a key is overwritten in place, the bucket keeps the hash of the old key and is
found under neither. `Honest` maps are those without such buckets; in them a lookup finds exactly the keys that are
there (`Honest.getFull_eq_some_iff`).
-/

namespace Lsf.Lib

/-- The hash function of the keys. -/
class Hasher (K : Type*) where
  hash : K → UInt64

/-- A multiplication hash of numbers. -/
@[reducible] def Hasher.mul : Hasher Nat where
  hash n := n.toUInt64 * 0xf1357aea2e62a9c5

structure Bucket (K V : Type*) where
  hash : UInt64
  key : K
  value : V

abbrev BucketMap (K V : Type*) := List (Bucket K V)

namespace BucketMap

variable {K V : Type*} [DecidableEq K] [Hasher K]

/-- `get_full`, as far as the index goes. -/
def getFull (m : BucketMap K V) (k : K) : Option Nat := m.findIdx? fun b => b.hash = Hasher.hash k ∧ b.key = k

def insert (m : BucketMap K V) (k : K) (v : V) : BucketMap K V :=
  match getFull m k with
  | some i => m.modify i fun b => { b with value := v }
  | none => m ++ [⟨Hasher.hash k, k, v⟩]

/-- An assignment through `get_index_mut2`: key and value change, the hash stays. -/
def overwrite (m : BucketMap K V) (i : Nat) (k : K) (v : V) : BucketMap K V :=
  m.modify i fun b => { b with key := k, value := v }

/-- An assignment through `get_index_mut`. -/
def setValue (m : BucketMap K V) (i : Nat) (v : V) : BucketMap K V := m.modify i fun b => { b with value := v }

def keys (m : BucketMap K V) : List K := m.map Bucket.key

variable {m : BucketMap K V} {k : K} {v : V} {i : Nat}

theorem getFull_eq_some (h : getFull m k = some i) : ∃ b, m[i]? = some b ∧ b.hash = Hasher.hash k ∧ b.key = k := by
  obtain ⟨hlt, hp, -⟩ := List.findIdx?_eq_some_iff_getElem.1 h
  exact ⟨m[i], List.getElem?_eq_getElem hlt, by simpa using hp⟩

theorem getFull_eq_none_iff : getFull m k = none ↔ ∀ b ∈ m, b.hash = Hasher.hash k → b.key ≠ k := by
  simp [getFull]

theorem insert_of_not_mem (h : k ∉ keys m) : insert m k v = m ++ [⟨Hasher.hash k, k, v⟩] := by
  have hnone : getFull m k = none := by
    refine getFull_eq_none_iff.2 fun b hb _ hk => h ?_
    exact hk ▸ List.mem_map_of_mem hb
  simp [insert, hnone]

theorem length_insert_le : (insert m k v).length ≤ m.length + 1 := by
  unfold insert
  split <;> simp

/-- A key is there after it was inserted. -/
theorem mem_keys_insert : k ∈ keys (insert m k v) := by
  unfold insert
  split
  · rename_i i hi
    obtain ⟨b, hb, -, rfl⟩ := getFull_eq_some hi
    refine List.mem_map.2 ⟨{ b with value := v }, List.mem_of_getElem? (i := i) ?_, rfl⟩
    simp [hb]
  · simp [keys]

omit [DecidableEq K] [Hasher K] in
theorem mem_keys_overwrite (h : i < m.length) : k ∈ keys (overwrite m i k v) := by
  have hb : m[i]? = some m[i] := List.getElem?_eq_getElem h
  refine List.mem_map.2 ⟨{ m[i] with key := k, value := v }, List.mem_of_getElem? (i := i) ?_, rfl⟩
  simp [overwrite, hb]

omit [DecidableEq K] [Hasher K] in
@[simp] theorem length_overwrite : (overwrite m i k v).length = m.length := List.length_modify ..

omit [DecidableEq K] [Hasher K] in
@[simp] theorem length_setValue : (setValue m i v).length = m.length := List.length_modify ..

omit [DecidableEq K] [Hasher K] in
/-- Values do not matter to lookups. -/
theorem getElem?_setValue (j : Nat) :
    (setValue m i v)[j]? = (m[j]?).map fun b => if i = j then { b with value := v } else b := by
  unfold setValue
  rw [List.getElem?_modify]
  by_cases h : i = j <;> simp [h]

/-! ## Maps whose stored hashes are those of the keys -/

/-- Every bucket has the hash of its key, and no key occurs twice. -/
structure Honest (m : BucketMap K V) : Prop where
  hash : ∀ b ∈ m, b.hash = Hasher.hash b.key
  nodup : (keys m).Nodup

theorem Honest.getFull_eq_some_iff (h : Honest m) : getFull m k = some i ↔ ∃ b, m[i]? = some b ∧ b.key = k := by
  constructor
  · intro hi
    obtain ⟨b, hb, -, hk⟩ := getFull_eq_some hi
    exact ⟨b, hb, hk⟩
  · rintro ⟨b, hb, rfl⟩
    cases hfind : getFull m b.key with
    | none =>
      have hmem := List.mem_of_getElem? hb
      exact absurd rfl (getFull_eq_none_iff.1 hfind b hmem (h.hash b hmem))
    | some j =>
      obtain ⟨b', hb', -, hk⟩ := getFull_eq_some hfind
      -- the keys are distinct, so the bucket found is the bucket asked for
      obtain ⟨hj, -⟩ := List.getElem?_eq_some_iff.1 hb'
      have hij : j = i := by
        refine (List.getElem?_inj (show j < (keys m).length by simpa [keys] using hj) h.nodup).1 ?_
        simp [keys, hb, hb', hk]
      rw [hij]

omit [DecidableEq K] in
theorem Honest.nil : Honest ([] : BucketMap K V) := ⟨by simp, by simp [keys]⟩

theorem Honest.insert (h : Honest m) (hk : k ∉ keys m) : Honest (insert m k v) := by
  rw [insert_of_not_mem hk]
  refine ⟨fun b hb => ?_, ?_⟩
  · rcases List.mem_append.1 hb with hb | hb
    · exact h.hash b hb
    · rw [List.mem_singleton.1 hb]
  · rw [keys, List.map_append, List.nodup_append']
    exact ⟨h.nodup, List.nodup_singleton _, by simpa [keys] using hk⟩

omit [DecidableEq K] [Hasher K] in
@[simp] theorem keys_setValue : keys (setValue m i v) = keys m :=
  map_modify_eq (f := Bucket.key) (g := fun b => { b with value := v }) (fun _ => rfl) m i

omit [DecidableEq K] in
theorem Honest.setValue (h : Honest m) : Honest (setValue m i v) := by
  refine ⟨fun b hb => ?_, by simpa using h.nodup⟩
  obtain ⟨j, hj⟩ := List.getElem?_of_mem hb
  rw [getElem?_setValue] at hj
  obtain ⟨b', hb', rfl⟩ := Option.map_eq_some_iff.1 hj
  have := h.hash b' (List.mem_of_getElem? hb')
  by_cases hij : i = j <;> simp [hij, this]

end BucketMap

end Lsf.Lib
