import GravTree.Store

/-!
# One identifier at a time

Whatever the tree code does to the world, it does to one identifier: a cached node,
a manifest record or a file. `World.cell` is what the world holds for an identifier,
`World.rest` is what is left, and every primitive step is described by what it does
to the two.
-/

namespace GravTree

/-- What the world holds for an identifier. -/
@[ext]
structure Cell where
  node : Option SSTNode
  record : Option NodeMeta
  file : Option SSTNode

/-- The recorded node counts. -/
def Cell.Valid (c : Cell) : Prop := ∃ r, c.record = some r ∧ r.valid = true

/-- The parts of the world that belong to no identifier. -/
structure Rest where
  root : NodeId
  next : NodeId
  stored : Option Manifest
  effects : List Effect
  splits : List SplitCall
  sizing : Sizing

namespace World

def cell (w : World) (x : NodeId) : Cell :=
  ⟨w.cache.lookup x, w.manifest.nodes.lookup x, w.disk.node.lookup x⟩

def rest (w : World) : Rest :=
  ⟨w.manifest.rootId, w.manifest.nextId, w.disk.manifest, w.effects, w.splits, w.sizing⟩

end World

section Lookup

variable {α : Type} (m : NodeMap α) (i x : NodeId)

theorem lookup_insert (a : α) :
    (m.insert i a).lookup x = if x = i then some a else m.lookup x := by
  split
  · rename_i h
    rw [h, AList.lookup_insert]
  · rename_i h
    exact AList.lookup_insert_ne h

/-- Replacing an element in place changes what is found at its key. -/
theorem dlookup_kreplace (a : α) : ∀ l : List (Sigma fun _ : NodeId => α), i ∈ l.keys →
    (l.kreplace i a).dlookup x = if x = i then some a else l.dlookup x
  | [], h => absurd h List.not_mem_nil
  | ⟨j, b⟩ :: l, h => by
    by_cases hj : i = j
    · subst hj
      have hhead : List.kreplace i a (⟨i, b⟩ :: l) = ⟨i, a⟩ :: l :=
        List.lookmap_cons_some _ _ (dif_pos rfl)
      rw [hhead]
      by_cases hx : x = i
      · rw [if_pos hx, hx, List.dlookup_cons_eq]
      · rw [if_neg hx, List.dlookup_cons_ne _ _ hx, List.dlookup_cons_ne _ _ hx]
    · have htail : List.kreplace i a (⟨j, b⟩ :: l) = ⟨j, b⟩ :: l.kreplace i a :=
        List.lookmap_cons_none _ _ (dif_neg hj)
      have hmem : i ∈ l.keys := (List.mem_cons.mp h).resolve_left hj
      rw [htail]
      by_cases hx : x = j
      · subst hx
        rw [if_neg (Ne.symm hj), List.dlookup_cons_eq, List.dlookup_cons_eq]
      · rw [List.dlookup_cons_ne _ _ hx, List.dlookup_cons_ne _ _ hx]
        exact dlookup_kreplace a l hmem

theorem lookup_assign (a : α) :
    (m.assign i a).lookup x = if x = i then some a else m.lookup x := by
  unfold NodeMap.assign
  split
  · rename_i hmem
    exact dlookup_kreplace i x a m.entries (AList.mem_keys.mp hmem)
  · exact lookup_insert m i x a

theorem lookup_erase : (m.erase i).lookup x = if x = i then none else m.lookup x := by
  split
  · rename_i h
    rw [h, AList.lookup_erase]
  · rename_i h
    exact AList.lookup_erase_ne h

end Lookup

namespace World

variable (w : World) (i x : NodeId)

@[simp] theorem cache_setNode (n : SSTNode) :
    (w.setNode i n).cache.lookup x = if x = i then some n else w.cache.lookup x :=
  lookup_assign w.cache i x n

@[simp] theorem cell_setNode (n : SSTNode) :
    (w.setNode i n).cell x = if x = i then { w.cell x with node := some n } else w.cell x := by
  simp only [World.cell, setNode, lookup_assign]
  split <;> rfl

@[simp] theorem rest_setNode (n : SSTNode) : (w.setNode i n).rest = w.rest := rfl

@[simp] theorem cell_eraseNode :
    (w.eraseNode i).cell x = if x = i then { w.cell x with node := none } else w.cell x := by
  simp only [World.cell, eraseNode, lookup_erase]
  split <;> rfl

@[simp] theorem rest_eraseNode : (w.eraseNode i).rest = w.rest := rfl

@[simp] theorem cell_modifyNode (f : SSTNode → SSTNode) :
    (w.modifyNode i f).cell x =
      if x = i then { w.cell x with node := (w.cell x).node.map f } else w.cell x := by
  unfold modifyNode
  split
  · rename_i n hn
    rw [cell_setNode]
    split
    · rename_i h
      subst h
      simp [World.cell, hn]
    · rfl
  · rename_i hn
    split
    · rename_i h
      subst h
      simp [World.cell, hn]
    · rfl

@[simp] theorem rest_modifyNode (f : SSTNode → SSTNode) : (w.modifyNode i f).rest = w.rest := by
  unfold modifyNode
  split <;> rfl

/-- A modification that changes nothing. -/
theorem cell_modify_self {f : SSTNode → SSTNode} (h : ∀ n, (w.cell i).node = some n → f n = n) :
    (w.modifyNode i f).cell x = w.cell x := by
  rw [cell_modifyNode]
  split
  · rename_i hx
    subst hx
    cases hn : (w.cell x).node with
    | none =>
      show ({ w.cell x with node := none } : Cell) = w.cell x
      rw [← hn]
    | some n =>
      show ({ w.cell x with node := some (f n) } : Cell) = w.cell x
      rw [h n hn, ← hn]
  · rfl

@[simp] theorem cell_takeId : w.takeId.cell x = w.cell x := rfl

@[simp] theorem rest_takeId : w.takeId.rest = { w.rest with next := w.rest.next + 1 } := rfl

@[simp] theorem cell_registerNode (level : Nat) (path : FilePath) :
    (w.registerNode i level path).cell x = if x = i
      then { w.cell x with record := some { id := i, level, filePath := path } } else w.cell x := by
  simp only [World.cell, registerNode, Manifest.registerNode, lookup_insert]
  split <;> rfl

@[simp] theorem rest_registerNode (level : Nat) (path : FilePath) :
    (w.registerNode i level path).rest = w.rest := rfl

@[simp] theorem cell_invalidateNode :
    (w.invalidateNode i).cell x = if x = i
      then { w.cell x with record := (w.cell x).record.map ({ · with valid := false }) }
      else w.cell x := by
  simp only [World.cell, invalidateNode, Manifest.invalidateNode]
  by_cases h : x = i
  · subst h
    cases hi : w.manifest.nodes.lookup x <;> simp [hi]
  · cases hi : w.manifest.nodes.lookup i <;> simp [h]

@[simp] theorem rest_invalidateNode : (w.invalidateNode i).rest = w.rest := by
  unfold rest invalidateNode Manifest.invalidateNode
  cases w.manifest.nodes.lookup i <;> rfl

@[simp] theorem cell_setRoot : (w.setRoot i).cell x = w.cell x := rfl

@[simp] theorem rest_setRoot : (w.setRoot i).rest = { w.rest with root := i } := rfl

@[simp] theorem cell_renamed (n : SSTNode) :
    (w.renamed n).cell x = if x = n.id then { w.cell x with file := some n } else w.cell x := by
  simp only [World.cell, renamed, lookup_insert]
  split <;> rfl

@[simp] theorem rest_renamed (n : SSTNode) :
    (w.renamed n).rest =
      { w.rest with effects := .rename (w.cell n.id).file n :: w.rest.effects } := rfl

@[simp] theorem cell_saved : w.saved.cell x = w.cell x := rfl

@[simp] theorem rest_saved : w.saved.rest =
    { w.rest with stored := some w.manifest, effects := .save w.manifest :: w.rest.effects } := rfl

@[simp] theorem cell_collected (r : NodeMeta) (h : r.filePath = ⟨i⟩) :
    (w.collected i r).cell x =
      if x = i then { w.cell x with record := none, file := none } else w.cell x := by
  simp only [World.cell, collected, lookup_erase, h]
  split <;> rfl

@[simp] theorem rest_collected (r : NodeMeta) : (w.collected i r).rest =
    { w.rest with effects := .remove r.filePath :: w.rest.effects } := rfl

@[simp] theorem cell_splitting (path : List NodeId) : (w.splitting i path).cell x = w.cell x := rfl

@[simp] theorem rest_splitting (path : List NodeId) : (w.splitting i path).rest =
    { w.rest with splits := ⟨w.toStore, i, path⟩ :: w.rest.splits } := rfl

end World

end GravTree
