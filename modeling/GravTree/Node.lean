import GravTree.Bloom

/-!
# SSTable nodes

`src/node.cpp`: the in-memory node and what `create`, `flush_to_disk` and `get`
compute on it. The file operations themselves are in `GravTree.Store`.
-/

namespace GravTree

/-- The file `<data_dir>/node_<id>.gst`. The directory never changes, so the
number names the file. -/
structure FilePath where
  nodeId : NodeId
  deriving DecidableEq

/-- `SSTNode`. `childIds` holds the first `num_children` slots of `child_ids`. -/
structure SSTNode where
  id : NodeId
  level : Nat
  childIds : List NodeId := []
  keyRange : KeyRange := {}
  buffer : List Entry := []
  bloom : Option BloomFilter := none
  filePath : FilePath := ⟨id⟩
  entriesLoaded : Bool := false

namespace SSTNode

/-- `is_leaf`. -/
def isLeaf (n : SSTNode) : Bool := n.level == 0

/-- `buffer_size_bytes`. -/
def bufferSizeBytes (n : SSTNode) : Nat := (n.buffer.map Entry.sizeBytes).sum

/-- `buffer_full`. -/
def bufferFull (n : SSTNode) : Bool := bufferThreshold ≤ n.bufferSizeBytes

/-- `build_bloom`. -/
def buildBloom (sizing : Sizing) (n : SSTNode) : SSTNode :=
  { n with bloom := some (n.buffer.foldl (fun f e => f.add e.key)
      (BloomFilter.new sizing (max n.buffer.length 1))) }

/-- What `create` builds before it writes the file. -/
def build (sizing : Sizing) (id level : Nat) (entries : List Entry) (children : List NodeId) :
    SSTNode :=
  let buffer := sortBuffer entries
  let keyRange : KeyRange :=
    match buffer.head?, buffer.getLast? with
    | some front, some back => ⟨front.key, back.key⟩
    | _, _ => {}
  buildBloom sizing
    { id, level, buffer, keyRange, childIds := children.take (min children.length maxFanout) }

/-- The range rule of `flush_to_disk`: expand, never shrink, and take an empty
bound for an absent one. -/
def expandRange (r : KeyRange) (buffer : List Entry) : KeyRange :=
  match buffer.head?, buffer.getLast? with
  | some front, some back =>
    { minKey := if r.minKey = .empty ∨ front.key < r.minKey then front.key else r.minKey
      maxKey := if r.maxKey = .empty ∨ r.maxKey < back.key then back.key else r.maxKey }
  | _, _ => r

/-- What `flush_to_disk` does to the node before it writes the file. -/
def prepare (sizing : Sizing) (n : SSTNode) : SSTNode :=
  let buffer := sortBuffer n.buffer
  buildBloom sizing { n with buffer, keyRange := expandRange n.keyRange buffer }

/-- `get`. -/
def get (n : SSTNode) (key : Bytes) : Option Entry := lookupSorted n.buffer key

/-- `might_contain`: the filter guards only an empty buffer. -/
def mightContain (n : SSTNode) (key : Bytes) : Bool :=
  if !n.buffer.isEmpty then true
  else match n.bloom with
    | none => true
    | some f => f.mightContain key

end SSTNode

end GravTree
