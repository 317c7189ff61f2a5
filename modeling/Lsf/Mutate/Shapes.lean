import Lsf.Mutate.Parts

/-!
# What field mutations keep

`swap_random_fields` and `null_random_fields` (`json_tree.rs`) on any values and any draws. The root keeps its shape,
the depth does not grow beyond that of the two trees, and nothing comes in from elsewhere
(`ensures_swapRandomFields`); or nothing changes but values of fields that become `null` (`ensures_nullRandomFields`).
-/

namespace Lsf.Mutate

open Lsf.Core Lsf.Lib

namespace Json

/-! ## Measures -/

mutual

/-- How deep arrays and objects are nested. -/
def depth : Json → Nat
  | .array items => depthItems items + 1
  | .object m => depthFields m + 1
  | _ => 0

def depthItems : List Json → Nat
  | [] => 0
  | v :: items => max (depth v) (depthItems items)

def depthFields : List (String × Json) → Nat
  | [] => 0
  | (_, v) :: m => max (depth v) (depthFields m)

end

mutual

/-- The values at and below a value that are neither arrays nor objects. -/
def scalars : Json → List Json
  | .array items => scalarsItems items
  | .object m => scalarsFields m
  | v => [v]

def scalarsItems : List Json → List Json
  | [] => []
  | v :: items => scalars v ++ scalarsItems items

def scalarsFields : List (String × Json) → List Json
  | [] => []
  | (_, v) :: m => scalars v ++ scalarsFields m

end

/-- An object stays an object with its keys, an array stays as long as it is, and nothing else changes. -/
def SameRoot : Json → Json → Prop
  | .object m, .object m' => JsonMap.keys m' = JsonMap.keys m
  | .array items, .array items' => items'.length = items.length
  | v, w => w = v

/-- Two objects, or two arrays. -/
def SameKind : Json → Json → Prop
  | .object _, .object _ => True
  | .array _, .array _ => True
  | _, _ => False

/-- `w` is no deeper than `v` and a depth `d`, and has its scalars from `v` and from `s`. -/
structure Within (d : Nat) (s : List Json) (v w : Json) : Prop where
  depth_le : w.depth ≤ max v.depth d
  scalars_sub : ∀ x ∈ w.scalars, x ∈ v.scalars ∨ x ∈ s

mutual

/-- `w` is `v` with some values of fields replaced by `null`. -/
def Nulled : Json → Json → Prop
  | .array items, .array items' => NulledItems items items'
  | .object m, .object m' => NulledFields m m'
  | v, w => w = v

def NulledItems : List Json → List Json → Prop
  | [], [] => True
  | v :: items, w :: items' => Nulled v w ∧ NulledItems items items'
  | _, _ => False

def NulledFields : List (String × Json) → List (String × Json) → Prop
  | [], [] => True
  | (k, v) :: m, (k', w) :: m' => k' = k ∧ (w = .null ∨ Nulled v w) ∧ NulledFields m m'
  | _, _ => False

end

variable {d : Nat} {s : List Json} {v w : Json} {items items' : List Json} {m m' : JsonMap}

theorem size_pos (v : Json) : 0 < v.size := by
  cases v <;> simp only [size] <;> omega

theorem within_self (d : Nat) (s : List Json) (v : Json) : Within d s v v := ⟨le_max_left _ _, fun _ h => .inl h⟩

theorem sameRoot_self (v : Json) : SameRoot v v := by
  cases v <;> simp only [SameRoot]

theorem depth_le_depthItems (h : v ∈ items) : v.depth ≤ depthItems items := by
  induction items with
  | nil => cases h
  | cons w items ih =>
    rw [depthItems]
    cases h with
    | head => exact le_max_left _ _
    | tail _ h => exact (ih h).trans (le_max_right _ _)

theorem scalars_subset_scalarsItems (h : v ∈ items) : v.scalars ⊆ scalarsItems items := by
  induction items with
  | nil => cases h
  | cons w items ih =>
    rw [scalarsItems]
    cases h with
    | head => exact List.subset_append_left _ _
    | tail _ h => exact List.Subset.trans (ih h) (List.subset_append_right _ _)

theorem depth_le_depthFields {k : String} (h : (k, v) ∈ m) : v.depth ≤ depthFields m := by
  induction m with
  | nil => cases h
  | cons field m ih =>
    rw [depthFields]
    cases h with
    | head => exact le_max_left _ _
    | tail _ h => exact (ih h).trans (le_max_right _ _)

theorem scalars_subset_scalarsFields {k : String} (h : (k, v) ∈ m) : v.scalars ⊆ scalarsFields m := by
  induction m with
  | nil => cases h
  | cons field m ih =>
    rw [scalarsFields]
    cases h with
    | head => exact List.subset_append_left _ _
    | tail _ h => exact List.Subset.trans (ih h) (List.subset_append_right _ _)

/-- What holds of a part of the source holds of the whole source. -/
theorem Within.mono {d' : Nat} {s' : List Json} (h : Within d s v w) (hd : d ≤ d') (hs : s ⊆ s') : Within d' s' v w :=
  ⟨h.depth_le.trans (max_le_max_left _ hd), fun x hx => (h.scalars_sub x hx).imp_right fun hx => hs hx⟩

/-- Item by item. -/
theorem within_array (h : List.Forall₂ (Within d s) items items') :
    Within (d + 1) s (.array items) (.array items') := by
  have hdepth : depthItems items' ≤ max (depthItems items) d ∧
      ∀ x ∈ scalarsItems items', x ∈ scalarsItems items ∨ x ∈ s := by
    induction h with
    | nil => exact ⟨Nat.zero_le _, fun x hx => nomatch hx⟩
    | cons hvw _ ih =>
      simp only [depthItems, scalarsItems, List.mem_append]
      refine ⟨by have := hvw.depth_le; omega, fun x hx => ?_⟩
      rcases hx with hx | hx
      · exact (hvw.scalars_sub x hx).imp_left .inl
      · exact (ih.2 x hx).imp_left .inr
  refine ⟨?_, by simpa only [scalars] using hdepth.2⟩
  simp only [depth]
  omega

/-- Field by field. -/
theorem within_object (h : List.Forall₂ (fun f f' => f'.1 = f.1 ∧ Within d s f.2 f'.2) m m') :
    Within (d + 1) s (.object m) (.object m') := by
  have hdepth : depthFields m' ≤ max (depthFields m) d ∧
      ∀ x ∈ scalarsFields m', x ∈ scalarsFields m ∨ x ∈ s := by
    induction h with
    | nil => exact ⟨Nat.zero_le _, fun x hx => nomatch hx⟩
    | cons hf _ ih =>
      simp only [depthFields, scalarsFields, List.mem_append]
      refine ⟨by have := hf.2.depth_le; omega, fun x hx => ?_⟩
      rcases hx with hx | hx
      · exact (hf.2.scalars_sub x hx).imp_left .inl
      · exact (ih.2 x hx).imp_left .inr
  refine ⟨?_, by simpa only [scalars] using hdepth.2⟩
  simp only [depth]
  omega

theorem keys_eq_of_forall₂ {R : Json → Json → Prop}
    (h : List.Forall₂ (fun f f' : String × Json => f'.1 = f.1 ∧ R f.2 f'.2) m m') :
    JsonMap.keys m' = JsonMap.keys m := by
  induction h with
  | nil => rfl
  | cons hf _ ih => exact congrArg₂ List.cons hf.1 ih

/-- Fields of which some have other values keep the root. -/
theorem nulledFields_keys (h : NulledFields m m') : JsonMap.keys m' = JsonMap.keys m := by
  induction m generalizing m' with
  | nil =>
    cases m' with
    | nil => rfl
    | cons _ _ => exact h.elim
  | cons field m ih =>
    cases m' with
    | nil => exact h.elim
    | cons field' m' =>
      obtain ⟨hkey, _, hm⟩ := h
      exact congrArg₂ List.cons hkey (ih hm)

theorem nulledItems_length (h : NulledItems items items') : items'.length = items.length := by
  induction items generalizing items' with
  | nil =>
    cases items' with
    | nil => rfl
    | cons _ _ => exact h.elim
  | cons v items ih =>
    cases items' with
    | nil => exact h.elim
    | cons w items' => exact congrArg Nat.succ (ih h.2)

theorem nulled_sameRoot (h : Nulled v w) : SameRoot v w := by
  cases v with
  | null | bool _ | number _ | string _ => simpa only [Nulled, SameRoot] using h
  | array items =>
    cases w with
    | array items' => exact nulledItems_length (by simpa only [Nulled] using h)
    | null | bool _ | number _ | string _ | object _ => simp [Nulled] at h
  | object m =>
    cases w with
    | object m' => exact nulledFields_keys (by simpa only [Nulled] using h)
    | null | bool _ | number _ | string _ | array _ => simp [Nulled] at h

theorem nulledItems_depth (hpart : ∀ v ∈ items, ∀ w, Nulled v w → w.depth ≤ v.depth) (h : NulledItems items items') :
    depthItems items' ≤ depthItems items := by
  induction items generalizing items' with
  | nil =>
    cases items' with
    | nil => exact le_rfl
    | cons _ _ => exact h.elim
  | cons v items ih =>
    cases items' with
    | nil => exact h.elim
    | cons w items' =>
      simp only [depthItems]
      exact max_le_max (hpart v List.mem_cons_self w h.1)
        (ih (fun v hv => hpart v (List.mem_cons_of_mem _ hv)) h.2)

theorem nulledFields_depth (hpart : ∀ k v, (k, v) ∈ m → ∀ w, Nulled v w → w.depth ≤ v.depth)
    (h : NulledFields m m') : depthFields m' ≤ depthFields m := by
  induction m generalizing m' with
  | nil =>
    cases m' with
    | nil => exact le_rfl
    | cons _ _ => exact h.elim
  | cons field m ih =>
    cases m' with
    | nil => exact h.elim
    | cons field' m' =>
      obtain ⟨k, v⟩ := field
      obtain ⟨_, w⟩ := field'
      obtain ⟨_, hw, hm⟩ := h
      simp only [depthFields]
      refine max_le_max ?_ (ih (fun k v hv => hpart k v (List.mem_cons_of_mem _ hv)) hm)
      rcases hw with rfl | hw
      · simp only [depth, Nat.zero_le]
      · exact hpart k v List.mem_cons_self w hw

/-- `null` is as deep as a value can be at least. -/
theorem nulled_depth (h : Nulled v w) : w.depth ≤ v.depth := by
  induction v using part_induction generalizing w with
  | h v ih =>
    cases v with
    | null | bool _ | number _ | string _ =>
      simp only [Nulled] at h
      rw [h]
    | array items =>
      cases w with
      | array items' =>
        simp only [Nulled] at h
        simp only [depth]
        exact Nat.succ_le_succ (nulledItems_depth (fun v hv w h => ih v (.item hv) h) h)
      | null | bool _ | number _ | string _ | object _ => simp [Nulled] at h
    | object m =>
      cases w with
      | object m' =>
        simp only [Nulled] at h
        simp only [depth]
        exact Nat.succ_le_succ (nulledFields_depth (fun k v hv w h => ih v (.field hv) h) h)
      | null | bool _ | number _ | string _ | array _ => simp [Nulled] at h

end Json

open Json

/-! ## Two trees -/

section Swap

variable {chance : ℚ} {draws : List Draw}

/-- Objects are mixed field by field, an array with one that is not shorter item by item, and nothing else is. -/
theorem swapRandomFields_cases (chance : ℚ) (dst src : Json) :
    (∃ m m', dst = .object m ∧ src = .object m' ∧
      swapRandomFields chance dst src = (do let m ← swapFields chance m m'; pure (.object m))) ∨
    (∃ items items', dst = .array items ∧ src = .array items' ∧ items.length ≤ items'.length ∧
      swapRandomFields chance dst src = (do let items ← swapItems chance items items'; pure (.array items))) ∨
    swapRandomFields chance dst src = pure dst := by
  cases dst with
  | null | bool _ | number _ | string _ => exact .inr (.inr (by simp only [swapRandomFields]))
  | array items =>
    cases src with
    | array items' =>
      by_cases hle : items.length ≤ items'.length
      · exact .inr (.inl ⟨items, items', rfl, rfl, hle, by simp only [swapRandomFields, ge_iff_le, if_pos hle]⟩)
      · exact .inr (.inr (by simp only [swapRandomFields, ge_iff_le, if_neg hle]))
    | null | bool _ | number _ | string _ | object _ => exact .inr (.inr (by simp only [swapRandomFields]))
  | object m =>
    cases src with
    | object m' => exact .inl ⟨m, m', rfl, rfl, by simp only [swapRandomFields]⟩
    | null | bool _ | number _ | string _ | array _ => exact .inr (.inr (by simp only [swapRandomFields]))

/-- The fields that the source has too take a value of the source, or are mixed with it. -/
theorem ensures_swapFields {src dst : JsonMap}
    (hpart : ∀ k v, (k, v) ∈ dst → ∀ new draws,
      Prog.Ensures (swapRandomFields chance v new) draws fun w _ => Within new.depth new.scalars v w) :
    Prog.Ensures (swapFields chance dst src) draws fun dst' _ =>
      List.Forall₂ (fun f f' => f'.1 = f.1 ∧ Within (depthFields src) (scalarsFields src) f.2 f'.2) dst dst' := by
  induction dst generalizing draws with
  | nil =>
    rw [swapFields]
    exact Prog.ensures_pure .nil
  | cons field dst ih =>
    obtain ⟨k, v⟩ := field
    rw [swapFields]
    have hrest : ∀ w, Within (depthFields src) (scalarsFields src) v w → ∀ draws,
        Prog.Ensures (do let dst ← swapFields chance dst src; pure ((k, w) :: dst)) draws fun dst' _ =>
          List.Forall₂ (fun f f' => f'.1 = f.1 ∧ Within (depthFields src) (scalarsFields src) f.2 f'.2)
            ((k, v) :: dst) dst' := fun w hw draws =>
      Prog.ensures_bind (ih fun k v hv => hpart k v (List.mem_cons_of_mem _ hv)) fun dst' draws h =>
        Prog.ensures_pure (.cons ⟨rfl, hw⟩ h)
    cases hget : JsonMap.get src k with
    | none => exact hrest v (within_self _ _ v) draws
    | some new =>
      have hmem := JsonMap.mem_of_get hget
      have hdepth := depth_le_depthFields hmem
      have hscalars := scalars_subset_scalarsFields hmem
      refine Prog.ensures_then fun swap draws => ?_
      split
      · exact hrest new ⟨hdepth.trans (le_max_right _ _), fun x hx => .inr (hscalars hx)⟩ draws
      · exact Prog.ensures_bind (hpart k v List.mem_cons_self new draws) fun w draws hw =>
          hrest w (hw.mono hdepth hscalars) draws

/-- Every slot takes an item of the source, from whatever position, or is mixed with it. -/
theorem ensures_swapItems {src dst : List Json}
    (hpart : ∀ v ∈ dst, ∀ new draws,
      Prog.Ensures (swapRandomFields chance v new) draws fun w _ => Within new.depth new.scalars v w) :
    Prog.Ensures (swapItems chance dst src) draws fun dst' _ =>
      List.Forall₂ (Within (depthItems src) (scalarsItems src)) dst dst' := by
  induction dst generalizing draws with
  | nil =>
    rw [swapItems]
    exact Prog.ensures_pure .nil
  | cons v dst ih =>
    rw [swapItems]
    have hrest : ∀ w, Within (depthItems src) (scalarsItems src) v w → ∀ draws,
        Prog.Ensures (do let dst ← swapItems chance dst src; pure (w :: dst)) draws fun dst' _ =>
          List.Forall₂ (Within (depthItems src) (scalarsItems src)) (v :: dst) dst' := fun w hw draws =>
      Prog.ensures_bind (ih fun v hv => hpart v (List.mem_cons_of_mem _ hv)) fun dst' draws h =>
        Prog.ensures_pure (.cons hw h)
    refine Prog.ensures_bind (mem_of_choose src) fun donor draws hmem => Prog.ensures_then fun swap draws => ?_
    have hdepth := depth_le_depthItems hmem
    have hscalars := scalars_subset_scalarsItems hmem
    dsimp only
    split
    · exact hrest donor ⟨hdepth.trans (le_max_right _ _), fun x hx => .inr (hscalars hx)⟩ draws
    · exact Prog.ensures_bind (hpart v List.mem_cons_self donor draws) fun w draws hw =>
        hrest w (hw.mono hdepth hscalars) draws

/-- **A mixed tree stays within the two**, at any chance and on any draws. -/
theorem ensures_swapRandomFields {dst src : Json} : Prog.Ensures (swapRandomFields chance dst src) draws
    fun dst' _ => Within src.depth src.scalars dst dst' := by
  induction dst using part_induction generalizing src draws with
  | h dst ih =>
    obtain ⟨m, m', rfl, rfl, heq⟩ | ⟨items, items', rfl, rfl, _, heq⟩ | heq := swapRandomFields_cases chance dst src
    · rw [heq]
      exact Prog.ensures_bind (ensures_swapFields fun k v hv new draws => ih v (.field hv)) fun dst' draws h =>
        Prog.ensures_pure (by simpa only [depth, scalars] using within_object h)
    · rw [heq]
      exact Prog.ensures_bind (ensures_swapItems fun v hv new draws => ih v (.item hv)) fun dst' draws h =>
        Prog.ensures_pure (by simpa only [depth, scalars] using within_array h)
    · rw [heq]
      exact Prog.ensures_pure (within_self _ _ _)

/-- The root stays what it is, at any chance and on any draws. -/
theorem ensures_swapRandomFields_sameRoot {dst src : Json} : Prog.Ensures (swapRandomFields chance dst src) draws
    fun dst' _ => SameRoot dst dst' ∧ (¬SameKind dst src → dst' = dst) := by
  obtain ⟨m, m', rfl, rfl, heq⟩ | ⟨items, items', rfl, rfl, _, heq⟩ | heq := swapRandomFields_cases chance dst src
  · rw [heq]
    refine Prog.ensures_bind (ensures_swapFields fun k v _ new draws => ensures_swapRandomFields) fun dst' draws h =>
      Prog.ensures_pure ⟨?_, fun hkind => (hkind (by simp only [SameKind])).elim⟩
    simpa only [SameRoot] using keys_eq_of_forall₂ h
  · rw [heq]
    refine Prog.ensures_bind (ensures_swapItems fun v _ new draws => ensures_swapRandomFields) fun dst' draws h =>
      Prog.ensures_pure ⟨?_, fun hkind => (hkind (by simp only [SameKind])).elim⟩
    simpa only [SameRoot] using h.length_eq.symm
  · rw [heq]
    exact Prog.ensures_pure ⟨sameRoot_self dst, fun _ => rfl⟩

theorem returns_swapFields (h0 : 0 ≤ chance) (h1 : chance ≤ 1) {src dst : JsonMap}
    (hpart : ∀ k v, (k, v) ∈ dst → ∀ new, Rng.Returns (2 * v.size - 2) (swapRandomFields chance v new)) :
    Rng.Returns (2 * sizeFields dst) (swapFields chance dst src) := by
  induction dst with
  | nil =>
    rw [swapFields]
    exact Rng.returns_pure _ _
  | cons field dst ih =>
    obtain ⟨k, v⟩ := field
    have hrest : ∀ w, Rng.Returns (2 * sizeFields dst) (do let dst ← swapFields chance dst src; pure ((k, w) :: dst)) :=
      fun w => (ih fun k v hv => hpart k v (List.mem_cons_of_mem _ hv)).bind (m := 0) fun dst' => Rng.returns_pure _ _
    have hpos := v.size_pos
    rw [swapFields, sizeFields]
    cases JsonMap.get src k with
    | none => exact (hrest v).mono (by omega)
    | some new =>
      refine ((Rng.returns_bool h0 h1).bind (m := 2 * v.size - 2 + 2 * sizeFields dst) fun swap => ?_).mono (by omega)
      split
      · exact (hrest new).mono (by omega)
      · exact (hpart k v List.mem_cons_self new).bind hrest

theorem returns_swapItems (h0 : 0 ≤ chance) (h1 : chance ≤ 1) {src dst : List Json} (hne : src ≠ [])
    (hpart : ∀ v ∈ dst, ∀ new, Rng.Returns (2 * v.size - 2) (swapRandomFields chance v new)) :
    Rng.Returns (2 * sizeItems dst) (swapItems chance dst src) := by
  induction dst with
  | nil =>
    rw [swapItems]
    exact Rng.returns_pure _ _
  | cons v dst ih =>
    have hrest : ∀ w, Rng.Returns (2 * sizeItems dst) (do let dst ← swapItems chance dst src; pure (w :: dst)) :=
      fun w => (ih fun v hv => hpart v (List.mem_cons_of_mem _ hv)).bind (m := 0) fun dst' => Rng.returns_pure _ _
    have hpos := v.size_pos
    rw [swapItems, sizeItems]
    refine ((Rng.returns_choose hne).bind (m := 1 + (2 * v.size - 2 + 2 * sizeItems dst)) fun donor =>
      (Rng.returns_bool h0 h1).bind fun swap => ?_).mono (by omega)
    split
    · exact (hrest donor).mono (by omega)
    · exact (hpart v List.mem_cons_self donor).bind hrest

/-- At most two draws are read for every value below the root. -/
theorem returns_swapRandomFields (h0 : 0 ≤ chance) (h1 : chance ≤ 1) {dst src : Json} :
    Rng.Returns (2 * dst.size - 2) (swapRandomFields chance dst src) := by
  induction dst using part_induction generalizing src with
  | h dst ih =>
    obtain ⟨m, m', rfl, rfl, heq⟩ | ⟨items, items', rfl, rfl, hle, heq⟩ | heq :=
      swapRandomFields_cases chance dst src
    · rw [heq]
      exact ((returns_swapFields h0 h1 fun k v hv new => ih v (.field hv)).bind (m := 0) fun dst' =>
        Rng.returns_pure _ _).mono (by simp only [size]; omega)
    · rw [heq]
      -- Without an item to take there is none to put it in.
      by_cases hne : items' = []
      · have hnil : items = [] := List.length_eq_zero_iff.1 (Nat.le_zero.1 (by simpa [hne] using hle))
        simp only [hnil, swapItems, pure_bind]
        exact Rng.returns_pure _ _
      · exact ((returns_swapItems h0 h1 hne fun v hv new => ih v (.item hv)).bind (m := 0) fun dst' =>
          Rng.returns_pure _ _).mono (by simp only [size]; omega)
    · rw [heq]
      exact Rng.returns_pure _ _

end Swap

/-! ## One tree -/

section Null

variable {chance : ℚ} {draws : List Draw}

theorem ensures_nullFields {m : JsonMap}
    (hpart : ∀ k v, (k, v) ∈ m → ∀ draws, Prog.Ensures (nullRandomFields chance v) draws fun w _ => Nulled v w) :
    Prog.Ensures (nullFields chance m) draws fun m' _ => NulledFields m m' := by
  induction m generalizing draws with
  | nil =>
    rw [nullFields]
    exact Prog.ensures_pure (by simp only [NulledFields])
  | cons field m ih =>
    obtain ⟨k, v⟩ := field
    have hrest : ∀ w, w = .null ∨ Nulled v w → ∀ draws,
        Prog.Ensures (do let m ← nullFields chance m; pure ((k, w) :: m)) draws fun m' _ =>
          NulledFields ((k, v) :: m) m' := fun w hw draws =>
      Prog.ensures_bind (ih fun k v hv => hpart k v (List.mem_cons_of_mem _ hv)) fun m' draws h =>
        Prog.ensures_pure ⟨rfl, hw, h⟩
    rw [nullFields]
    refine Prog.ensures_then fun drop draws => ?_
    dsimp only
    split
    · exact hrest .null (.inl rfl) draws
    · exact Prog.ensures_bind (hpart k v List.mem_cons_self draws) fun w draws hw => hrest w (.inr hw) draws

theorem ensures_nullItems {items : List Json}
    (hpart : ∀ v ∈ items, ∀ draws, Prog.Ensures (nullRandomFields chance v) draws fun w _ => Nulled v w) :
    Prog.Ensures (nullItems chance items) draws fun items' _ => NulledItems items items' := by
  induction items generalizing draws with
  | nil =>
    rw [nullItems]
    exact Prog.ensures_pure (by simp only [NulledItems])
  | cons v items ih =>
    rw [nullItems]
    refine Prog.ensures_bind (hpart v List.mem_cons_self draws) fun w draws hw =>
      Prog.ensures_bind (ih fun v hv => hpart v (List.mem_cons_of_mem _ hv)) fun items' draws h =>
        Prog.ensures_pure ⟨hw, h⟩

/-- **Values of fields become `null`**, and nothing else changes. -/
theorem ensures_nullRandomFields {v : Json} :
    Prog.Ensures (nullRandomFields chance v) draws fun w _ => Nulled v w := by
  induction v using part_induction generalizing draws with
  | h v ih =>
    cases v with
    | null | bool _ | number _ | string _ =>
      simp only [nullRandomFields]
      exact Prog.ensures_pure (by simp only [Nulled])
    | array items =>
      simp only [nullRandomFields]
      exact Prog.ensures_bind (ensures_nullItems fun v hv draws => ih v (.item hv)) fun items' draws h =>
        Prog.ensures_pure (by simpa only [Nulled] using h)
    | object m =>
      simp only [nullRandomFields]
      exact Prog.ensures_bind (ensures_nullFields fun k v hv draws => ih v (.field hv)) fun m' draws h =>
        Prog.ensures_pure (by simpa only [Nulled] using h)

theorem returns_nullFields (h0 : 0 ≤ chance) (h1 : chance ≤ 1) {m : JsonMap}
    (hpart : ∀ k v, (k, v) ∈ m → Rng.Returns (v.size - 1) (nullRandomFields chance v)) :
    Rng.Returns (sizeFields m) (nullFields chance m) := by
  induction m with
  | nil =>
    rw [nullFields]
    exact Rng.returns_pure _ _
  | cons field m ih =>
    obtain ⟨k, v⟩ := field
    have hrest : ∀ w, Rng.Returns (sizeFields m) (do let m ← nullFields chance m; pure ((k, w) :: m)) :=
      fun w => (ih fun k v hv => hpart k v (List.mem_cons_of_mem _ hv)).bind (m := 0) fun m' => Rng.returns_pure _ _
    have hpos := v.size_pos
    rw [nullFields, sizeFields]
    refine ((Rng.returns_bool h0 h1).bind (m := v.size - 1 + sizeFields m) fun drop => ?_).mono (by omega)
    dsimp only
    split
    · exact (hrest .null).mono (by omega)
    · exact (hpart k v List.mem_cons_self).bind hrest

theorem returns_nullItems {items : List Json}
    (hpart : ∀ v ∈ items, Rng.Returns (v.size - 1) (nullRandomFields chance v)) :
    Rng.Returns (sizeItems items) (nullItems chance items) := by
  induction items with
  | nil =>
    rw [nullItems]
    exact Rng.returns_pure _ _
  | cons v items ih =>
    rw [nullItems, sizeItems]
    exact ((hpart v List.mem_cons_self).bind fun w => (ih fun v hv => hpart v (List.mem_cons_of_mem _ hv)).bind (m := 0)
      fun items' => Rng.returns_pure _ _).mono (by omega)

/-- At most one draw is read for every value below the root. -/
theorem returns_nullRandomFields (h0 : 0 ≤ chance) (h1 : chance ≤ 1) {v : Json} :
    Rng.Returns (v.size - 1) (nullRandomFields chance v) := by
  induction v using part_induction with
  | h v ih =>
    cases v with
    | null | bool _ | number _ | string _ =>
      simp only [nullRandomFields]
      exact Rng.returns_pure _ _
    | array items =>
      simp only [nullRandomFields]
      exact ((returns_nullItems fun v hv => ih v (.item hv)).bind (m := 0) fun items' =>
        Rng.returns_pure _ _).mono (by simp only [size]; omega)
    | object m =>
      simp only [nullRandomFields]
      exact ((returns_nullFields h0 h1 fun k v hv => ih v (.field hv)).bind (m := 0) fun m' =>
        Rng.returns_pure _ _).mono (by simp only [size]; omega)

end Null

/-- **Field mutations keep the shape**: mixed with a source, a tree grows no deeper than the two are, its root stays
what it is, its scalars are from the two, and it is unchanged unless both are objects or both are arrays; and with
some fields dropped, its root stays what it is, it grows no deeper, and the dropped fields are `null`. -/
theorem fieldMutations_keep_shape (chance : ℚ) (dst src : Json) (draws : List Draw) :
    Prog.Ensures (swapRandomFields chance dst src) draws (fun dst' _ =>
      dst'.depth ≤ max dst.depth src.depth ∧ SameRoot dst dst' ∧
        (∀ x ∈ dst'.scalars, x ∈ dst.scalars ∨ x ∈ src.scalars) ∧ (¬SameKind dst src → dst' = dst)) ∧
    Prog.Ensures (nullRandomFields chance dst) draws (fun dst' _ =>
      SameRoot dst dst' ∧ dst'.depth ≤ dst.depth ∧ Nulled dst dst') := by
  constructor
  · intro dst' rest h
    have hwithin := ensures_swapRandomFields dst' rest h
    have hroot := ensures_swapRandomFields_sameRoot dst' rest h
    exact ⟨hwithin.depth_le, hroot.1, hwithin.scalars_sub, hroot.2⟩
  · exact ensures_nullRandomFields.mono fun dst' _ h => ⟨nulled_sameRoot h, nulled_depth h, h⟩

end Lsf.Mutate
