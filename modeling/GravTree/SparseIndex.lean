import GravTree.NodeRoundTrip
import GravTree.Proof.Buffer

/-!
# The sparse index in memory and on disk

`build_sparse_index` pairs every 128th key with the offset zero: the offsets are to be filled
when the file is written. `write_file` computes them, but it is `const` and keeps them to
itself, so they reach the file and not the node.
-/

namespace GravTree

open Reader

/-- The pairs `build_sparse_index` pushes, in the order of its loop. -/
def buildSparseIndex (buffer : List Entry) : List SparseIndexEntry :=
  (List.range' 0 ((buffer.length + (sparseStep - 1)) / sparseStep) sparseStep).map fun i =>
    { key := buffer[i]?.elim .empty (·.key), fileOffset := 0 }

namespace IndexedNode

/-- `create`, with the sparse index of the node it returns. -/
def create (sizing : Sizing) (id level : Nat) (entries : List Entry) (children : List NodeId) :
    IndexedNode :=
  let node := SSTNode.build sizing id level entries children
  { node with sparseIndex := buildSparseIndex node.buffer, entriesLoaded := true }

/-- `flush_to_disk`, with the sparse index it leaves in the node. -/
def flushToDisk (sizing : Sizing) (n : IndexedNode) : IndexedNode :=
  let node := n.toSSTNode.prepare sizing
  { n with
    toSSTNode := { node with filePath := ⟨n.id⟩, entriesLoaded := true }
    sparseIndex := buildSparseIndex node.buffer }

/-- The file written of the node loads, and what is loaded has the node's sparse index. -/
def Agrees (n : IndexedNode) : Prop :=
  ∃ f, readNodeFile n.filePath n.fileBytes true = .ok f ∧ f.sparseIndex = n.sparseIndex

/-- The file written of the node loads, and the keys of its sparse index are the node's. -/
def KeysAgree (n : IndexedNode) : Prop :=
  ∃ f, readNodeFile n.filePath n.fileBytes true = .ok f ∧
    f.sparseIndex.map (·.key) = n.sparseIndex.map (·.key)

end IndexedNode

/-! ## The two indices -/

/-- The positions written are the positions the loop in memory visits. -/
theorem Indexed.positions {all : List Entry} {base : Nat} {offsets : List (Nat × Nat)}
    (I : Indexed all base all.length offsets) : offsets.map Prod.fst =
      List.range' 0 ((all.length + (sparseStep - 1)) / sparseStep) sparseStep := by
  have hlen : offsets.length = (all.length + (sparseStep - 1)) / sparseStep := I.length
  refine List.ext_getElem (by rw [List.length_map, List.length_range', hlen]) fun j h1 h2 => ?_
  have hj : j < offsets.length := by simpa using h1
  have hfst := (I.get (List.getElem?_eq_getElem hj)).1
  rw [List.getElem_map, List.getElem_range', hfst]
  omega

theorem keys_sparse {n : SSTNode} {offsets : List (Nat × Nat)}
    (I : Indexed n.buffer n.headerBytes.length n.buffer.length offsets) :
    (n.sparse offsets).map (·.key) = (buildSparseIndex n.buffer).map (·.key) := by
  rw [buildSparseIndex, ← I.positions, SSTNode.sparse]
  simp only [List.map_map]
  rfl

/-- The first entry is written behind the header, never at the offset zero. -/
theorem sparse_eq_iff {n : SSTNode} {offsets : List (Nat × Nat)}
    (I : Indexed n.buffer n.headerBytes.length n.buffer.length offsets) :
    n.sparse offsets = buildSparseIndex n.buffer ↔ n.buffer = [] := by
  constructor
  · intro heq
    by_contra hne
    have hpos := List.length_pos_of_ne_nil hne
    have hlen : 0 < offsets.length := by
      rw [I.length, sparseStep]
      omega
    obtain ⟨hfst, -, hoff⟩ := I.get (List.getElem?_eq_getElem hlen)
    have hzero : offsets[0].2 = 0 := by
      have hmem : (⟨n.buffer[offsets[0].1]?.elim .empty (·.key), offsets[0].2⟩ :
          SparseIndexEntry) ∈ buildSparseIndex n.buffer :=
        heq ▸ List.mem_map_of_mem (List.getElem_mem hlen)
      obtain ⟨i, -, hi⟩ := List.mem_map.mp hmem
      exact (congrArg SparseIndexEntry.fileOffset hi).symm
    have hhead : 8 ≤ n.headerBytes.length := by
      simp only [SSTNode.headerBytes, List.length_append, writeU64, length_leBytes]
      omega
    omega
  · intro hnil
    have hlen := I.length
    rw [hnil] at hlen
    have : offsets = [] := List.length_eq_zero_iff.mp (by rw [hlen]; rfl)
    rw [this, hnil]
    rfl

theorem IndexedNode.agrees_iff {n : IndexedNode} (h : n.toSSTNode.Fits)
    (hindex : n.sparseIndex = buildSparseIndex n.buffer) :
    n.KeysAgree ∧ (n.Agrees ↔ n.buffer = []) := by
  obtain ⟨offsets, -, I, hread⟩ := SSTNode.readNodeFile_fileBytes h n.filePath
  refine ⟨⟨_, hread, ?_⟩, ?_⟩
  · rw [hindex]
    exact keys_sparse I
  · rw [← sparse_eq_iff I, ← hindex]
    constructor
    · rintro ⟨f, hf, heq⟩
      rw [hread] at hf
      cases hf
      exact heq
    · intro heq
      exact ⟨_, hread, heq⟩

/-! ## Where they agree -/

/-- **The index in memory and the index in the file** have the same keys, and the same offsets
exactly when there is nothing to index. -/
theorem sparseIndex_agrees (sizing : Sizing) :
    (∀ id level entries children, (IndexedNode.create sizing id level entries children).Fits →
      (IndexedNode.create sizing id level entries children).KeysAgree ∧
      ((IndexedNode.create sizing id level entries children).Agrees ↔ entries = [])) ∧
    ∀ n : IndexedNode, (n.flushToDisk sizing).Fits →
      (n.flushToDisk sizing).KeysAgree ∧ ((n.flushToDisk sizing).Agrees ↔ n.buffer = []) := by
  refine ⟨fun id level entries children h => ?_, fun n h => ?_⟩
  · rw [← @sortBuffer_eq_nil entries]
    exact IndexedNode.agrees_iff h rfl
  · rw [← @sortBuffer_eq_nil n.buffer]
    exact IndexedNode.agrees_iff h rfl

/-- A leaf created with these entries. -/
def createdLeaf (entries : List Entry) : IndexedNode :=
  .create (fun _ => (64, 7)) 1 0 entries []

theorem fits_createdLeaf {entries : List Entry} (hcount : (sortBuffer entries).length < 2 ^ 32)
    (hmin : (createdLeaf entries).keyRange.minKey.size < 2 ^ 32)
    (hmax : (createdLeaf entries).keyRange.maxKey.size < 2 ^ 32)
    (hentries : ∀ e ∈ sortBuffer entries, e.key.size < 2 ^ 32 ∧ e.value.size < 2 ^ 32)
    (htotal : ((sortBuffer entries).map Entry.sizeBytes).sum < 2 ^ 62) :
    (createdLeaf entries).Fits := by
  have hbloom : ∀ f, (createdLeaf entries).bloom = some f →
      f.serialize.length < 2 ^ 32 ∧ f.numHashFuncs < 2 ^ 32 := by
    intro f hf
    obtain ⟨g, hg, hserial, hhash⟩ :=
      SSTNode.shape_buildBloom (fun _ => (64, 7)) (createdLeaf entries).toSSTNode
    obtain rfl : f = g := Option.some.inj (hf.symm.trans hg)
    rw [hserial, hhash]
    decide
  have htyped : (createdLeaf entries).Typed := by
    refine ⟨?_, ?_, fun c hc => absurd hc List.not_mem_nil, Nat.zero_le _⟩
    · show 1 < 2 ^ 64
      norm_num
    · show 0 < 2 ^ 32
      norm_num
  exact SSTNode.fits_of htyped hmin hmax hcount hentries hbloom htotal

theorem fits_createdLeaf_nil : (createdLeaf []).Fits :=
  fits_createdLeaf (by decide) (by decide) (by decide) (by decide) (by decide)

theorem fits_createdLeaf_one : (createdLeaf [{ key := .byte 1, seqNo := 1 }]).Fits :=
  fits_createdLeaf (by decide) (by decide) (by decide) (by decide) (by decide)

theorem fits_createdLeaf_wide : (createdLeaf wideEntries).Fits := by
  refine fits_createdLeaf ?_ ?_ ?_ ?_ ?_
  · decide +kernel
  · decide +kernel
  · decide +kernel
  · decide +kernel
  · decide +kernel

/-- A leaf without entries agrees, and of 130 entries the keys do. -/
theorem sparseIndex_agrees_wide : (createdLeaf []).Agrees ∧
    (createdLeaf wideEntries).sparseIndex.length = 2 ∧ (createdLeaf wideEntries).KeysAgree := by
  have hnil := (sparseIndex_agrees fun _ => (64, 7)).1 1 0 [] [] fits_createdLeaf_nil
  have hwide := (sparseIndex_agrees fun _ => (64, 7)).1 1 0 wideEntries [] fits_createdLeaf_wide
  exact ⟨hnil.2.mpr rfl, by decide +kernel, hwide.1⟩

/-- A leaf created with one entry: the file has the offset at which the entry begins, the node
the offset zero. -/
theorem sparseIndex_one : ¬ (createdLeaf [{ key := .byte 1, seqNo := 1 }]).Agrees := by
  rw [(IndexedNode.agrees_iff fits_createdLeaf_one rfl).2]
  decide

end GravTree
