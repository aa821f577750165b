import GravTree.Manifest
import GravTree.Lib.Machine

/-!
# The store: cache, manifest and files

The tree code reads and writes three things: the node cache, the manifest and the
files of the data directory. A file operation may throw, and the process may end
before any of them: both are stops of the environment in the sense of
`GravTree.Lib.Machine`. Exceptions do not undo anything, so the world at the throw
is the world the handler finds.

The world also carries two records that the code never reads: every change made
to the directory, and every call of `split_leaf` with the store it found.
-/

namespace GravTree

/-- The data directory, decoded. A node file and the manifest are both written to a
temporary name and renamed. That only complete contents appear here is an assumption: a
stream that fails on the way throws nothing, and what it has stored is renamed all the
same (`GravTree.Publish`). What the bytes hold is the subject of `GravTree.Proof.Image`. -/
structure Disk where
  /-- `<dir>/manifest`. -/
  manifest : Option Manifest := none
  /-- `<dir>/node_<id>.gst`. -/
  node : NodeMap SSTNode := ∅

/-- The node cache, the manifest in memory and the directory. -/
structure Store where
  cache : NodeMap SSTNode := ∅
  manifest : Manifest := {}
  disk : Disk := {}

/-- A change of the directory. -/
inductive Effect where
  /-- A node file renamed into place, over the old file of that name if any. -/
  | rename (old : Option SSTNode) (new : SSTNode)
  /-- The manifest renamed into place. -/
  | save (m : Manifest)
  /-- A file removed by `gc`. -/
  | remove (path : FilePath)

/-- A call of `split_leaf`. -/
structure SplitCall where
  store : Store
  leafId : NodeId
  path : List NodeId

/-- Why the file operation the environment picked does not take place. -/
inductive Stop where
  /-- It throws. -/
  | fault
  /-- The process ends. -/
  | crash
  deriving DecidableEq

/-- The store, the filter sizing, and the two records. -/
structure World extends Store where
  sizing : Sizing
  /-- Changes of the directory, newest first. -/
  effects : List Effect := []
  /-- Calls of `split_leaf`, newest first. -/
  splits : List SplitCall := []

/-- What the tree code throws, and the runs that do not end. -/
inductive Error where
  /-- `node_path: unknown or invalid node <id>`. -/
  | unknownNode (id : NodeId)
  /-- `Cannot open node file: <path>`. -/
  | cannotOpen (path : FilePath)
  /-- The recursion does not end. -/
  | diverges

abbrev Exc := Exn Error Stop

abbrev M := Act Error Stop World

/-! ## What one step does to the world -/

namespace World

/-- `cache_[id] = n`. -/
def setNode (w : World) (id : NodeId) (n : SSTNode) : World :=
  { w with cache := w.cache.assign id n }

/-- `cache_.erase(id)`. -/
def eraseNode (w : World) (id : NodeId) : World :=
  { w with cache := w.cache.erase id }

/-- A write through a reference into the cache. -/
def modifyNode (w : World) (id : NodeId) (f : SSTNode → SSTNode) : World :=
  match w.cache.lookup id with
  | some n => w.setNode id (f n)
  | none => w

/-- `next_id_++`. -/
def takeId (w : World) : World :=
  { w with manifest := { w.manifest with nextId := w.manifest.nextId + 1 } }

def registerNode (w : World) (id level : Nat) (path : FilePath) : World :=
  { w with manifest := w.manifest.registerNode id level path }

def invalidateNode (w : World) (id : NodeId) : World :=
  { w with manifest := w.manifest.invalidateNode id }

def setRoot (w : World) (id : NodeId) : World :=
  { w with manifest := w.manifest.setRoot id }

/-- A node file renamed into place. -/
def renamed (w : World) (n : SSTNode) : World :=
  { w with
    disk := { w.disk with node := w.disk.node.insert n.id n }
    effects := .rename (w.disk.node.lookup n.id) n :: w.effects }

/-- The manifest renamed into place. -/
def saved (w : World) : World :=
  { w with
    disk := { w.disk with manifest := some w.manifest }
    effects := .save w.manifest :: w.effects }

/-- One record of an invalid node dropped by `gc`, and its file with it. -/
def collected (w : World) (id : NodeId) (r : NodeMeta) : World :=
  { w with
    disk := { w.disk with node := w.disk.node.erase r.filePath.nodeId }
    effects := .remove r.filePath :: w.effects
    manifest := { w.manifest with nodes := w.manifest.nodes.erase id } }

/-- A call of `split_leaf` begins. -/
def splitting (w : World) (leafId : NodeId) (path : List NodeId) : World :=
  { w with splits := ⟨w.toStore, leafId, path⟩ :: w.splits }

end World

/-- A file operation begins. If it is stopped it has had no effect, which is an assumption
of the same kind. -/
def fileOp : M Unit := Act.op fun _ => true

/-- `gc` ignores the errors of its removals: only a crash stops one. -/
def removeOp : M Unit := Act.op fun s => s = .crash

/-! ## Manifest operations -/

/-- `next_node_id`. -/
def nextNodeId : M NodeId := do
  let w ← Act.world
  Act.update (·.takeId)
  return w.manifest.nextId

def registerNode (id level : Nat) (path : FilePath) : M Unit :=
  Act.update (·.registerNode id level path)

def invalidateNode (id : NodeId) : M Unit := Act.update (·.invalidateNode id)

def setRoot (id : NodeId) : M Unit := Act.update (·.setRoot id)

/-- `Manifest::save`. -/
def save : M Unit := do
  fileOp
  Act.update (·.saved)

/-- The loop of `Manifest::gc`, over the ids of the records. -/
def gcLoop : List NodeId → M Unit
  | [] => pure ()
  | id :: ids => do
    match (← Act.world).manifest.nodes.lookup id with
    | some r =>
      if !r.valid then
        removeOp
        Act.update (·.collected id r)
    | none => pure ()
    gcLoop ids

/-- `Manifest::gc`: delete the files of all invalid nodes and forget them. -/
def gc : M Unit := do
  gcLoop (← Act.world).manifest.nodes.keys

/-! ## Node files -/

/-- `write_file`. -/
def SSTNode.writeFile (n : SSTNode) : M FilePath := do
  fileOp
  Act.update (·.renamed n)
  return ⟨n.id⟩

/-- `read_file`. -/
def readFile (path : FilePath) (loadEntries : Bool) : M SSTNode := do
  fileOp
  match (← Act.world).disk.node.lookup path.nodeId with
  | none => Act.fail (.cannotOpen path)
  | some n => return { n with
      filePath := path
      buffer := if loadEntries then n.buffer else []
      entriesLoaded := loadEntries }

/-- `load_header`. -/
def SSTNode.loadHeader (path : FilePath) : M SSTNode := readFile path false

/-- `load_entries`. -/
def SSTNode.loadEntries (n : SSTNode) : M SSTNode := do
  if n.entriesLoaded then return n
  let full ← readFile n.filePath true
  return { n with buffer := full.buffer, entriesLoaded := true }

/-- `create`: a brand-new node, written to its file. -/
def SSTNode.create (id level : Nat) (entries : List Entry) (children : List NodeId) :
    M SSTNode := do
  let node := SSTNode.build (← Act.world).sizing id level entries children
  let path ← node.writeFile
  return { node with filePath := path, entriesLoaded := true }

/-- `flush_to_disk` on a node that is not in the cache. -/
def SSTNode.flushToDisk (n : SSTNode) : M SSTNode := do
  let n := n.prepare (← Act.world).sizing
  let path ← n.writeFile
  return { n with filePath := path, entriesLoaded := true }

/-! ## The cache -/

/-- `cache_[id] = n`. -/
def setNode (id : NodeId) (n : SSTNode) : M Unit := Act.update (·.setNode id n)

/-- `cache_.erase(id)`. -/
def eraseNode (id : NodeId) : M Unit := Act.update (·.eraseNode id)

/-- A write through a reference into the cache. -/
def modifyNode (id : NodeId) (f : SSTNode → SSTNode) : M Unit :=
  Act.update (·.modifyNode id f)

/-- `get_node`. -/
def getNode (id : NodeId) : M SSTNode := do
  match (← Act.world).cache.lookup id with
  | some n => return n
  | none =>
    match (← Act.world).manifest.nodePath id with
    | none => Act.fail (.unknownNode id)
    | some path =>
      let node ← SSTNode.loadHeader path
      let node ← node.loadEntries
      setNode id node
      return node

/-- `flush_to_disk` on a cached node: the node changes in memory first. -/
def flushNode (id : NodeId) : M Unit := do
  let sizing := (← Act.world).sizing
  modifyNode id (·.prepare sizing)
  let n ← getNode id
  let path ← n.writeFile
  modifyNode id fun n => { n with filePath := path, entriesLoaded := true }

/-- `register_node` with a cached node's own id, level and path. -/
def registerCached (id : NodeId) : M Unit := do
  let n ← getNode id
  registerNode n.id n.level n.filePath

end GravTree
