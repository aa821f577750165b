import GravTree.Node

/-!
# The manifest

`src/manifest.cpp`: the root id, the id counter and one record for each known
node. A record is first marked invalid and later dropped by `gc`.
-/

namespace GravTree

/-- An `unordered_map` keyed by node id. -/
abbrev NodeMap (α : Type) := AList fun _ : NodeId => α

/-- `map[id] = a`. An element that is there keeps its place. -/
def NodeMap.assign {α : Type} (m : NodeMap α) (id : NodeId) (a : α) : NodeMap α :=
  if id ∈ m then m.replace id a else m.insert id a

/-- `NodeMeta`. -/
structure NodeMeta where
  id : NodeId
  level : Nat
  filePath : FilePath
  valid : Bool := true

/-- `Manifest`. It is also what `save` writes: the `ROOT`, `NEXT_ID` and `NODE` lines. -/
structure Manifest where
  rootId : NodeId := invalidNodeId
  nextId : NodeId := 1
  nodes : NodeMap NodeMeta := ∅

namespace Manifest

/-- `register_node`. -/
def registerNode (m : Manifest) (id level : Nat) (path : FilePath) : Manifest :=
  { m with nodes := m.nodes.insert id { id, level, filePath := path } }

/-- `invalidate_node`. -/
def invalidateNode (m : Manifest) (id : NodeId) : Manifest :=
  match m.nodes.lookup id with
  | some r => { m with nodes := m.nodes.insert id { r with valid := false } }
  | none => m

/-- `set_root`. -/
def setRoot (m : Manifest) (id : NodeId) : Manifest := { m with rootId := id }

/-- `node_path`, which throws for an unknown or an invalid node. -/
def nodePath (m : Manifest) (id : NodeId) : Option FilePath :=
  match m.nodes.lookup id with
  | some r => if r.valid then some r.filePath else none
  | none => none

/-- The largest recorded id. -/
def maxId (m : Manifest) : NodeId := (m.nodes.entries.map fun r => r.2.id).foldr max 0

/-- `load` of a saved manifest into a fresh one: `next_id_` is moved beyond every
stored id. -/
def load (saved : Manifest) : Manifest :=
  { saved with nextId := max saved.nextId (saved.maxId + 1) }

end Manifest

end GravTree
