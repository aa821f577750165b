import GravTree.Store

/-!
# Local flush

`src/flush.cpp`: a parent's buffered entries are partitioned over its children by
key range and merged into them; a child that receives entries is replaced by a
new node with a new file.
-/

namespace GravTree

/-- `FlushResult`. -/
structure FlushResult where
  newChildIds : List NodeId := []
  oldChildIds : List NodeId := []

/-- The bucket of `partition_entries` for `key`: scanning from the right, the first
child whose `min_key` is at most `key`, or else the first child. -/
def targetChild (minKeys : List Bytes) (key : Bytes) : Nat :=
  ((List.range minKeys.length).reverse.find? fun i => minKeys.getD i .empty ≤ key).getD 0

/-- `partition_entries`. -/
def partitionEntries (entries : List Entry) (children : List SSTNode) : List (List Entry) :=
  entries.foldl
    (fun buckets e =>
      buckets.modify (targetChild (children.map (·.keyRange.minKey)) e.key) (· ++ [e]))
    (List.replicate children.length [])

/-- `merge_sorted_entries`. -/
def mergeSortedEntries : List Entry → List Entry → List Entry
  | [], bs => bs
  | a :: as, [] => a :: as
  | a :: as, b :: bs =>
    if a.key < b.key then a :: mergeSortedEntries as (b :: bs)
    else if b.key < a.key then b :: mergeSortedEntries (a :: as) bs
    else if b.seqNo ≤ a.seqNo then a :: mergeSortedEntries as bs
    else b :: mergeSortedEntries as bs
termination_by as bs => as.length + bs.length

/-- The loop of `local_flush` over the children and their partitions. -/
def localFlushLoop : List (SSTNode × List Entry) → M (List SSTNode × FlushResult)
  | [] => return ([], {})
  | (child, partition) :: rest => do
    if partition.isEmpty then
      -- nothing to push to this child: the same node stays
      let (children, result) ← localFlushLoop rest
      return (child :: children, { result with newChildIds := child.id :: result.newChildIds })
    else
      let child ← child.loadEntries
      let merged := mergeSortedEntries partition child.buffer
      let newId ← nextNodeId
      let newChild ← SSTNode.create newId child.level merged child.childIds
      registerNode newId child.level newChild.filePath
      invalidateNode child.id
      let (children, result) ← localFlushLoop rest
      return (newChild :: children,
        { newChildIds := newId :: result.newChildIds
          oldChildIds := child.id :: result.oldChildIds })

/-- `local_flush`. -/
def localFlush (parentId : NodeId) (children : List SSTNode) :
    M (List SSTNode × FlushResult) := do
  modifyNode parentId fun p => { p with buffer := stableSort p.buffer }
  let parent ← getNode parentId
  localFlushLoop (children.zip (partitionEntries parent.buffer children))

end GravTree
