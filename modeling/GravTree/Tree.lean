import GravTree.Flush

/-!
# The tree

`src/tree.cpp`: lookups walk one root-to-leaf path by `min_key`; a full internal
node pushes its buffer one level down; a full leaf splits, and the split goes up
through full ancestors.

The source's recursions carry no bound. The model gives each one the height of
the tree as fuel and ends in `Error.diverges` when that is spent.
-/

namespace GravTree

/-- A bound for every walk along one path of the tree. -/
def World.height (w : World) : Nat :=
  match w.cache.lookup w.manifest.rootId with
  | some root => root.level + 1
  | none => 0

/-! ## Opening -/

/-- `ensure_root`. -/
def ensureRoot : M Unit := do
  let rootId := (← Act.world).manifest.rootId
  if rootId ≠ invalidNodeId then
    match (← Act.world).manifest.nodePath rootId with
    | none => Act.fail (.unknownNode rootId)
    | some path =>
      let root ← SSTNode.loadHeader path
      let root ← root.loadEntries
      setNode root.id root
  else
    let rid ← nextNodeId
    let root ← SSTNode.create rid 0 [] []
    registerNode rid 0 root.filePath
    setRoot rid
    save
    setNode rid root

/-- The tree part of `GravTree::open`: load the manifest, if there is one, and
make sure there is a root. -/
def openTree : M Unit := do
  Act.update fun w => { w with manifest := match w.disk.manifest with
    | some saved => saved.load
    | none => {} }
  ensureRoot

/-! ## Lookups -/

/-- The scan of `find_path` over the children: go right while
`key >= child.key_range.min_key`. -/
def nextChild (key : Bytes) : NodeId → List NodeId → M NodeId
  | next, [] => return next
  | next, id :: ids => do
    let child ← getNode id
    if child.keyRange.minKey ≤ key then nextChild key id ids else return next

/-- The loop of `find_path` from `cur` down. -/
def findPathFrom (key : Bytes) : Nat → NodeId → M (List NodeId)
  | 0, _ => Act.fail .diverges
  | fuel + 1, cur => do
    let node ← getNode cur
    if node.isLeaf then return [cur]
    let next ← nextChild key (node.childIds.headD invalidNodeId) node.childIds
    let rest ← findPathFrom key fuel next
    return cur :: rest

/-- `find_path`. -/
def findPath (key : Bytes) : M (List NodeId) := do
  let w ← Act.world
  findPathFrom key w.height w.manifest.rootId

/-- The loop of `get` over the path: the first node that holds the key answers. -/
def searchPath (key : Bytes) : List NodeId → M (Option Bytes)
  | [] => return none
  | nid :: rest => do
    let node ← getNode nid
    if !node.mightContain key then searchPath key rest
    else match node.get key with
      | some entry => return if entry.deleted then none else some entry.value
      | none => searchPath key rest

/-- The tree part of `get`. -/
def getFromTree (key : Bytes) : M (Option Bytes) := do
  let path ← findPath key
  searchPath key path

/-- The first entry of `key` on a path, by `SSTNode::get` alone. -/
def entryOnPath (key : Bytes) : List NodeId → M (Option Entry)
  | [] => return none
  | nid :: rest => do
    let node ← getNode nid
    match node.get key with
    | some entry => return some entry
    | none => entryOnPath key rest

/-- The entry that `find_path` and `SSTNode::get` lead to. -/
def findEntry (key : Bytes) : M (Option Entry) := do
  let path ← findPath key
  entryOnPath key path

/-! ## Splits -/

/-- The key range of an internal node spans its children's. -/
def spanKeyRange (n : SSTNode) : M KeyRange := do
  let front ← getNode (n.childIds.headD invalidNodeId)
  let back ← getNode (n.childIds.getLastD invalidNodeId)
  return { minKey := front.keyRange.minKey, maxKey := back.keyRange.maxKey }

/-- The branch of `split_leaf` and `insert_child` that makes a new root over the
two halves. -/
def growRoot (level : Nat) (leftId rightId : NodeId) : M Unit := do
  let newRootId ← nextNodeId
  let newRoot ← SSTNode.create newRootId level [] [leftId, rightId]
  let range ← spanKeyRange newRoot
  let newRoot ← SSTNode.flushToDisk { newRoot with keyRange := range }
  registerNode newRootId level newRoot.filePath
  setRoot newRootId
  setNode newRootId newRoot

/-- The loop of `path_to` over the children. -/
def firstPath (dfs : NodeId → M (Option (List NodeId))) :
    List NodeId → M (Option (List NodeId))
  | [] => return none
  | id :: ids => do
    match ← dfs id with
    | some path => return some path
    | none => firstPath dfs ids

/-- The depth-first search of `path_to`. -/
def dfs (target : NodeId) : Nat → NodeId → M (Option (List NodeId))
  | 0, _ => Act.fail .diverges
  | fuel + 1, id => do
    if id = target then return some [id]
    let node ← getNode id
    let path ← firstPath (dfs target fuel) node.childIds
    return path.map (id :: ·)

/-- `path_to`. -/
def pathTo (target : NodeId) : M (List NodeId) := do
  let w ← Act.world
  let path ← dfs target w.height w.manifest.rootId
  return path.getD []

/-- Put `left` and `right` where `old` first occurs. -/
def replaceChild (old left right : NodeId) : List NodeId → List NodeId
  | [] => []
  | id :: ids => if id = old then left :: right :: ids else id :: replaceChild old left right ids

/-- The end of `insert_child` (`done:`): refresh the parent's range and write it
under its own name. -/
def finishParent (parentId : NodeId) : M Unit := do
  let parent ← getNode parentId
  if parent.childIds ≠ [] then
    let range ← spanKeyRange parent
    modifyNode parentId fun p => { p with keyRange := range }
  flushNode parentId
  registerCached parentId

/-- `insert_child`. A full parent is split in two and the split goes up. -/
def insertChild : Nat → NodeId → NodeId → NodeId → NodeId → M Unit
  | 0, _, _, _, _ => Act.fail .diverges
  | fuel + 1, parentId, oldChildId, leftId, rightId => do
    let parent ← getNode parentId
    if parent.childIds.length < maxFanout then
      modifyNode parentId fun p =>
        { p with childIds := replaceChild oldChildId leftId rightId p.childIds }
      finishParent parentId
    else if oldChildId ∉ parent.childIds then
      finishParent parentId
    else
      let kids := replaceChild oldChildId leftId rightId parent.childIds
      let half := kids.length / 2
      let lk := kids.take half
      let rk := kids.drop half
      let rightMin := (← getNode (rk.headD invalidNodeId)).keyRange.minKey
      let lbuf := parent.buffer.filter fun e => e.key < rightMin
      let rbuf := parent.buffer.filter fun e => ¬ e.key < rightMin
      let lid2 ← nextNodeId
      let rid2 ← nextNodeId
      let ln ← SSTNode.create lid2 parent.level lbuf lk
      let rn ← SSTNode.create rid2 parent.level rbuf rk
      let lrange ← spanKeyRange ln
      let rrange ← spanKeyRange rn
      let ln ← SSTNode.flushToDisk { ln with keyRange := lrange }
      let rn ← SSTNode.flushToDisk { rn with keyRange := rrange }
      let path ← pathTo parent.id
      invalidateNode parent.id
      registerNode lid2 parent.level ln.filePath
      registerNode rid2 parent.level rn.filePath
      setNode lid2 ln
      setNode rid2 rn
      eraseNode parent.id
      if path.length = 1 then
        growRoot (parent.level + 1) lid2 rid2
      else
        insertChild fuel (path.getD (path.length - 2) invalidNodeId) parent.id lid2 rid2
      save
      gc

/-- `split_leaf`. -/
def splitLeaf (leafId : NodeId) (path : List NodeId) : M Unit := do
  let _ ← getNode leafId
  Act.update (·.splitting leafId path)
  modifyNode leafId fun leaf => { leaf with buffer := stableSort leaf.buffer }
  let leaf ← getNode leafId
  let mid := leaf.buffer.length / 2
  let leftId ← nextNodeId
  let rightId ← nextNodeId
  let leftNode ← SSTNode.create leftId 0 (leaf.buffer.take mid) []
  let rightNode ← SSTNode.create rightId 0 (leaf.buffer.drop mid) []
  registerNode leftId 0 leftNode.filePath
  registerNode rightId 0 rightNode.filePath
  invalidateNode leafId
  setNode leftId leftNode
  setNode rightId rightNode
  eraseNode leafId
  if path.length = 1 then
    growRoot 1 leftId rightId
  else
    let height := (← Act.world).height
    insertChild height (path.getD (path.length - 2) invalidNodeId) leafId leftId rightId
  save
  gc

/-! ## Flushing a node into its children -/

/-- The children `do_flush` copies out of the cache, with their entries loaded. -/
def loadChildren : List NodeId → M (List SSTNode)
  | [] => return []
  | id :: ids => do
    let child ← getNode id
    let loaded ← child.loadEntries
    if !child.entriesLoaded then setNode id loaded
    let rest ← loadChildren ids
    return loaded :: rest

/-- An internal child's range is widened to span its own children, and the child
is written again. -/
def refreshChild (c : SSTNode) : M SSTNode := do
  if c.childIds ≠ [] then
    let span ← spanKeyRange c
    let range : KeyRange :=
      { minKey := if c.keyRange.minKey = .empty ∨ span.minKey < c.keyRange.minKey
          then span.minKey else c.keyRange.minKey
        maxKey := if c.keyRange.maxKey = .empty ∨ c.keyRange.maxKey < span.maxKey
          then span.maxKey else c.keyRange.maxKey }
    let c ← SSTNode.flushToDisk { c with keyRange := range }
    registerNode c.id c.level c.filePath
    return c
  else return c

/-- The loop that refreshes the cache: the `i`-th replaced id is dropped when the
`i`-th child is put in. -/
def refreshCache : List SSTNode → List NodeId → M Unit
  | [], _ => pure ()
  | c :: cs, oldIds => do
    match oldIds with
    | old :: _ => eraseNode old
    | [] => pure ()
    let c ← refreshChild c
    setNode c.id c
    refreshCache cs oldIds.tail

/-- The part of `do_flush` up to and including `gc`: the parent's buffer goes to
the children. Returns the ids of the children. -/
def pushDown (parentId : NodeId) : M (List NodeId) := do
  let parent ← getNode parentId
  let children ← loadChildren parent.childIds
  let (children, result) ← localFlush parentId children
  modifyNode parentId fun p => { p with
    childIds := List.zipWith (fun old new => if old ∈ result.oldChildIds then new else old)
      p.childIds result.newChildIds }
  refreshCache children result.oldChildIds
  modifyNode parentId fun p => { p with buffer := [] }
  let parent ← getNode parentId
  if parent.childIds ≠ [] then
    let range ← spanKeyRange parent
    modifyNode parentId fun p => { p with keyRange := range }
  flushNode parentId
  registerCached parentId
  save
  gc
  return result.newChildIds

/-- The loop of `do_flush` over the children that may have overflowed. A child
that is no longer cached has been split away. -/
def checkChildren (flushChild : NodeId → M Unit) (parentId : NodeId) : List NodeId → M Unit
  | [] => pure ()
  | cid :: ids => do
    match (← Act.world).cache.lookup cid with
    | some child =>
      if child.bufferFull then
        if child.isLeaf && child.childIds.isEmpty then
          splitLeaf cid [parentId, cid]
        else if !child.childIds.isEmpty then
          flushChild cid
    | none => pure ()
    checkChildren flushChild parentId ids

/-- `do_flush`. The fuel is the parent's level. -/
def doFlush : Nat → NodeId → M Unit
  | 0, _ => Act.fail .diverges
  | fuel + 1, parentId => do
    let toCheck ← pushDown parentId
    checkChildren (doFlush fuel) parentId toCheck

/-! ## What the flush thread, `flush` and the destructor do under the tree lock -/

/-- Append the drained entries to the root's buffer and sort it. Returns the root. -/
def mergeIntoRoot (pending : List Entry) : M SSTNode := do
  let rootId := (← Act.world).manifest.rootId
  let _ ← getNode rootId
  modifyNode rootId fun root => { root with buffer := stableSort (root.buffer ++ pending) }
  getNode rootId

/-- The body of `flush_thread_fn` under `cache_mu_`. -/
def flushPending (pending : List Entry) : M Unit := do
  let rootId := (← Act.world).manifest.rootId
  let root ← mergeIntoRoot pending
  if root.bufferFull then
    if root.isLeaf && root.childIds.isEmpty then
      let path ← findPath (match root.buffer with
        | [] => .empty
        | e :: _ => e.key)
      splitLeaf rootId path
    else if !root.childIds.isEmpty then
      doFlush root.level rootId

/-- `flush_thread_fn` and the destructor catch every exception. The end of the
process is not one. -/
def catchAll (m : M Unit) : M Unit :=
  Act.swallow (fun e => match e with
    | .stopped .crash => false
    | _ => true) m

/-- The end of `flush()`: merge what was drained into the root and persist it. -/
def persistRoot (pending : List Entry) : M Unit := do
  let rootId := (← Act.world).manifest.rootId
  let root ← mergeIntoRoot pending
  if root.buffer ≠ [] then
    flushNode rootId
    let root ← getNode rootId
    registerNode rootId root.level root.filePath
    save

/-- The end of the destructor. -/
def destroyTree (pending : List Entry) : M Unit := do
  if (← Act.world).manifest.rootId ≠ invalidNodeId then
    persistRoot pending

/-! ## Range scans -/

/-- The loop of `range_scan` over the cache. -/
def scanCache (start stop : Bytes) : List NodeId → M (List Entry)
  | [] => return []
  | id :: ids => do
    let node ← getNode id
    let loaded ← node.loadEntries
    if !node.entriesLoaded then setNode id loaded
    let rest ← scanCache start stop ids
    return loaded.buffer.filter (fun e => start ≤ e.key ∧ e.key ≤ stop) ++ rest

/-- The skip rule of `range_scan`: an entry is dropped when its key is the key of
the last entry returned, or when it is a tombstone. -/
def skipOlder (last : Option Bytes) : List Entry → List Entry
  | [] => []
  | e :: es =>
    if last = some e.key then skipOlder last es
    else if e.deleted then skipOlder last es
    else e :: skipOlder (some e.key) es

/-- `range_scan`, given the entries of the write buffer. -/
def rangeScanTree (writeBuf : List Entry) (start stop : Bytes) : M (List Entry) := do
  let fromCache ← scanCache start stop (← Act.world).cache.keys
  let collected := writeBuf.filter (fun e => start ≤ e.key ∧ e.key ≤ stop) ++ fromCache
  return skipOlder none (stableSort collected)

end GravTree
