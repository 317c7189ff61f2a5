import Lsf.Core.Draws

/-!
# Nodes as JSON

`serde_json` values, and what the tree rules do to them: `json_tree.rs`, `recurse.rs` and the search of `reduce.rs`. A
map is the list of its fields in the order of their keys.
-/

namespace Lsf.Mutate

open Lsf.Core Lsf.Lib

/-- `serde_json::Value`; a number is its text. -/
inductive Json where
  | null
  | bool (b : Bool)
  | number (n : String)
  | string (s : String)
  | array (items : List Json)
  | object (fields : List (String × Json))

/-- `serde_json::Map`. -/
abbrev JsonMap := List (String × Json)

namespace JsonMap

/-- `get`. -/
def get (m : JsonMap) (key : String) : Option Json := (m.find? fun field => field.1 == key).map Prod.snd

/-- `insert`: the value of a key is replaced, and a new key gets its place in the order. -/
def insert (key : String) (value : Json) : JsonMap → JsonMap
  | [] => [(key, value)]
  | (k, v) :: m =>
    if k = key then (key, value) :: m
    else if key < k then (key, value) :: (k, v) :: m
    else (k, v) :: insert key value m

/-- `keys`. -/
def keys (m : JsonMap) : List String := m.map Prod.fst

end JsonMap

/-! ## Two trees -/

mutual

/-- `swap_random_fields`. -/
def swapRandomFields (chance : ℚ) : Json → Json → Rng Json
  | .object dst, .object src => do
    let dst ← swapFields chance dst src
    pure (.object dst)
  | .array dst, .array src =>
    if src.length ≥ dst.length then do
      let dst ← swapItems chance dst src
      pure (.array dst)
    else pure (.array dst)
  | dst, _ => pure dst

/-- The loop over the fields of an object. -/
def swapFields (chance : ℚ) : List (String × Json) → JsonMap → Rng (List (String × Json))
  | [], _ => pure []
  | (k, v) :: dst, src => do
    let v ← match JsonMap.get src k with
      | some new => do
        let swap ← Rng.bool chance
        if swap then pure new else swapRandomFields chance v new
      | none => pure v
    let dst ← swapFields chance dst src
    pure ((k, v) :: dst)

/-- The loop over the slots of an array. -/
def swapItems (chance : ℚ) : List Json → List Json → Rng (List Json)
  | [], _ => pure []
  | slot :: dst, src => do
    let donor ← Rng.choose src
    let swap ← Rng.bool chance
    let slot ← if swap then pure donor else swapRandomFields chance slot donor
    let dst ← swapItems chance dst src
    pure (slot :: dst)

end

mutual

/-- `null_random_fields`. -/
def nullRandomFields (chance : ℚ) : Json → Rng Json
  | .object m => do
    let m ← nullFields chance m
    pure (.object m)
  | .array items => do
    let items ← nullItems chance items
    pure (.array items)
  | v => pure v

/-- The loop over the fields of an object. -/
def nullFields (chance : ℚ) : List (String × Json) → Rng (List (String × Json))
  | [] => pure []
  | (k, v) :: m => do
    let drop ← Rng.bool chance
    let v ← if drop then pure .null else nullRandomFields chance v
    let m ← nullFields chance m
    pure ((k, v) :: m)

/-- The loop over the items of an array. -/
def nullItems (chance : ℚ) : List Json → Rng (List Json)
  | [] => pure []
  | v :: items => do
    let v ← nullRandomFields chance v
    let items ← nullItems chance items
    pure (v :: items)

end

/-! ## One tree -/

/-- `prune_depth`. -/
def pruneDepth : Nat → Json → Json
  | 0, .object _ => .object []
  | depth + 1, .object m => .object (m.map fun field => (field.1, pruneDepth depth field.2))
  | _, v => v

/-- `expand_recursive`. -/
def expandRecursive (root : Json) (expandableFields : List String) (chancePerLevel : ℚ) :
    Nat → JsonMap → Rng JsonMap
  | 0, node => pure node
  | depth + 1, node => do
    let expand ← Rng.bool chancePerLevel
    if !expand then pure node
    else do
      let key ← Rng.choose expandableFields
      match JsonMap.get node key with
      | none => pure node
      | some _ =>
        match root with
        | .object innerMap => do
          let innerMap ← expandRecursive root expandableFields chancePerLevel depth innerMap
          pure (JsonMap.insert key (.object innerMap) node)
        | slot => pure (JsonMap.insert key slot node)

mutual

/-- `dig`, for the decoder of a node type: every value below that decodes, the outermost first. -/
def dig {Node : Type} (fromValue : Json → Option Node) : Json → List Node
  | .array items => (fromValue (.array items)).toList ++ digItems fromValue items
  | .object m => (fromValue (.object m)).toList ++ digFields fromValue m
  | v => (fromValue v).toList

def digItems {Node : Type} (fromValue : Json → Option Node) : List Json → List Node
  | [] => []
  | v :: items => dig fromValue v ++ digItems fromValue items

def digFields {Node : Type} (fromValue : Json → Option Node) : List (String × Json) → List Node
  | [] => []
  | (_, v) :: m => dig fromValue v ++ digFields fromValue m

end

/-- `extract_child_exprs`. -/
def extractChildExprs {Node : Type} (fromValue : Json → Option Node) (root : Json) : List Node := dig fromValue root

end Lsf.Mutate
