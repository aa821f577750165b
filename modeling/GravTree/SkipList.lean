import GravTree.Session

/-!
# The skip list

`src/skiplist.cpp`: the write buffer as it is stored. A node has one pointer for each
level; the nodes are kept by address, the sentinel `head_` at address zero. What
dereferences a null or freed pointer, or does not end, has no result.

The random generator is outside the model: the height of each new tower is an argument.
-/

namespace GravTree

abbrev Ptr := Nat

/-- `kMaxHeight`. -/
def kMaxHeight : Nat := 12

/-- `SkipList::Node`. A null pointer is `none`. -/
structure SkipNode where
  val : Entry
  height : Nat
  next : Nat → Option Ptr := fun _ => none

/-- `SkipList`. -/
structure SkipList where
  heap : Ptr → Option SkipNode
  /-- The next address that `new` returns. -/
  top : Ptr
  curHeight : Nat := 1
  size : Nat := 0
  bytes : Nat := 0

namespace SkipList

/-- `head_`. -/
def head : Ptr := 0

/-- `SkipList()`. -/
def new : SkipList where
  heap := Function.update (fun _ => none) head
    (some { val := { key := .empty }, height := kMaxHeight })
  top := 1

/-- The inner loop of `find_prev` and `find_key`: advance on level `lv` while the next
value is less than `val`. No chain has more nodes than there are addresses. -/
def advance (s : SkipList) (val : Entry) (lv : Nat) : Nat → Ptr → Option Ptr
  | 0, _ => none
  | fuel + 1, cur => do
    let node ← s.heap cur
    match node.next lv with
    | none => return cur
    | some nxt =>
      let n ← s.heap nxt
      if n.val < val then advance s val lv fuel nxt else return cur

/-- The outer loop, from level `lv - 1` down, with the predecessors stored so far. -/
def findPrevFrom (s : SkipList) (val : Entry) :
    Nat → Ptr → (Nat → Option Ptr) → Option (Ptr × (Nat → Option Ptr))
  | 0, cur, prev => some (cur, prev)
  | lv + 1, cur, prev => do
    let cur ← s.advance val lv s.top cur
    findPrevFrom s val lv cur (Function.update prev lv (some cur))

/-- `find_prev`, with `prev_out` not set at the levels above `cur_height_`. -/
def findPrev (s : SkipList) (val : Entry) : Option (Ptr × (Nat → Option Ptr)) :=
  s.findPrevFrom val s.curHeight head fun _ => none

/-- One round of the loop of `insert` that links the new node. -/
def linkLevel (nd : Ptr) (prev : Nat → Option Ptr) (heap : Ptr → Option SkipNode) (i : Nat) :
    Option (Ptr → Option SkipNode) := do
  let p ← prev i
  let n ← heap nd
  let pn ← heap p
  let heap := Function.update heap nd (some { n with next := Function.update n.next i (pn.next i) })
  let pn ← heap p
  return Function.update heap p
    (some { pn with next := Function.update pn.next i (some nd) })

/-- `insert`, with a tower of height `h`. -/
def insert (s : SkipList) (val : Entry) (h : Nat) : Option SkipList := do
  let (_, found) ← s.findPrev val
  let prev i := if s.curHeight ≤ i ∧ i < h then some head else found i
  let nd := s.top
  let heap ← (List.range h).foldlM (linkLevel nd prev)
    (Function.update s.heap nd (some { val, height := h }))
  return {
    heap
    top := s.top + 1
    curHeight := if s.curHeight < h then h else s.curHeight
    size := s.size + 1
    bytes := s.bytes + val.sizeBytes }

/-- `find_key`. -/
def findKey (s : SkipList) (key : Bytes) : Option (Option Entry) := do
  let (cur, _) ← s.findPrev (probe key)
  let node ← s.heap cur
  match node.next 0 with
  | none => return none
  | some candidate =>
    let c ← s.heap candidate
    return if c.val.key = key then some c.val else none

/-- The loop of `clear` that deletes the nodes. -/
def deleteFrom : Nat → Option Ptr → (Ptr → Option SkipNode) → Option (Ptr → Option SkipNode)
  | _, none, heap => some heap
  | 0, some _, _ => none
  | fuel + 1, some cur, heap => do
    let node ← heap cur
    deleteFrom fuel (node.next 0) (Function.update heap cur none)

/-- `clear`. -/
def clear (s : SkipList) : Option SkipList := do
  let node ← s.heap head
  let heap ← deleteFrom s.top (node.next 0) s.heap
  return { s with
    heap := Function.update heap head (some { node with next := fun _ => none })
    curHeight := 1
    size := 0
    bytes := 0 }

/-- The nodes of a level, from `cur` on. -/
def nodesFrom (s : SkipList) (lv : Nat) : Nat → Ptr → Option (List Ptr)
  | 0, _ => none
  | fuel + 1, cur => do
    let node ← s.heap cur
    match node.next lv with
    | none => return []
    | some nxt => return nxt :: (← nodesFrom s lv fuel nxt)

/-- The chain of a level. -/
def nodesAt (s : SkipList) (lv : Nat) : Option (List Ptr) := s.nodesFrom lv s.top head

/-- `to_sorted_vector`. -/
def toSortedVector (s : SkipList) : Option (List Entry) := do
  let nodes ← s.nodesAt 0
  nodes.mapM fun p => (s.heap p).map (·.val)

end SkipList

/-- A height that `random_height` can return. -/
abbrev Height := { h : Nat // 1 ≤ h ∧ h ≤ kMaxHeight }

/-- A change of the skip list. -/
inductive SkipOp where
  | insert (e : Entry) (h : Height)
  | clear

namespace SkipList

def step (s : SkipList) : SkipOp → Option SkipList
  | .insert e h => s.insert e h
  | .clear => s.clear

/-- A new list after these changes. -/
def run (ops : List SkipOp) : Option SkipList := ops.foldlM step new

end SkipList

/-- The entries inserted since the last `clear`, newest first. -/
def inserted (ops : List SkipOp) : List Entry :=
  ops.foldl (fun es op => match op with
    | .insert e _ => e :: es
    | .clear => []) []

end GravTree
