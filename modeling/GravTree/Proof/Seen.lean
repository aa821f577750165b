import GravTree.Proof.Cells

/-!
# What `get_node` finds

`get_node` answers from the cache, or it reads the node's file and puts the node into the
cache. Which of the two it does makes no difference to what it answers, now or later.
-/

namespace GravTree

namespace Store

variable (s : Store) (x : NodeId)

/-- What `get_node` makes of a node's file. -/
def onFile : Option SSTNode :=
  (s.manifest.nodePath x).bind fun path =>
    (s.disk.node.lookup path.nodeId).map fun n =>
      { n with filePath := path, entriesLoaded := true }

/-- What `get_node` returns. -/
def seen : Option SSTNode := (s.cache.lookup x).or (s.onFile x)

end Store

/-- What it throws when there is nothing to return. -/
def World.missing (w : World) (x : NodeId) : Error :=
  match w.manifest.nodePath x with
  | none => .unknownNode x
  | some path => .cannotOpen path

/-- The world afterwards. -/
def World.loading (w : World) (x : NodeId) : World :=
  match w.cache.lookup x, w.onFile x with
  | none, some n => w.setNode x n
  | _, _ => w

/-! ## Loading a node -/

section Load

variable {w : World} {path : FilePath} {x : NodeId} {n : SSTNode}

theorem readFile_runs (hf : w.disk.node.lookup path.nodeId = some n) (b : Bool) :
    Act.Runs (readFile path b) w { n with
      filePath := path, buffer := if b then n.buffer else [], entriesLoaded := b } w
      fun _ => True := by
  refine Act.Runs.op_bind trivial (Act.Runs.world_bind ?_)
  rw [hf]
  exact Act.Runs.pure _ w

theorem loadEntries_runs (hf : w.disk.node.lookup path.nodeId = some n) :
    Act.Runs (SSTNode.loadEntries { n with
      filePath := path, buffer := [], entriesLoaded := false }) w
      { n with filePath := path, entriesLoaded := true } w fun _ => True := by
  unfold SSTNode.loadEntries
  rw [if_neg (by simp)]
  exact Act.Runs.bind (readFile_runs hf true) (Act.Runs.pure _ w)

/-- `get_node` on a listed node that is not cached. -/
theorem getNode_loads (hx : w.cache.lookup x = none)
    (hp : w.manifest.nodePath x = some path) (hf : w.disk.node.lookup path.nodeId = some n) :
    Act.Runs (getNode x) w { n with filePath := path, entriesLoaded := true }
      (w.setNode x { n with filePath := path, entriesLoaded := true }) fun _ => True := by
  unfold getNode
  refine Act.Runs.world_bind ?_
  rw [hx]
  refine Act.Runs.world_bind ?_
  rw [hp]
  refine Act.Runs.bind (readFile_runs hf false) (Act.Runs.bind (loadEntries_runs hf) ?_)
  exact Act.Runs.update_bind (Act.Runs.pure _ _)

theorem getNode_reads (h : (w.cell x).node = some n) : Act.Reads (getNode x) w n := by
  change w.cache.lookup x = some n at h
  unfold getNode
  refine Act.Runs.world_bind ?_
  rw [h]
  exact Act.Runs.pure n w

/-- **`get_node`** returns what it sees. -/
theorem getNode_runs (h : w.seen x = some n) :
    Act.Runs (getNode x) w n (w.loading x) fun _ => True := by
  unfold Store.seen at h
  unfold World.loading
  cases hc : w.cache.lookup x with
  | some m =>
    obtain rfl : m = n := by simpa [hc] using h
    exact (getNode_reads hc).runs
  | none =>
    rw [hc, Option.none_or] at h
    have hf := h
    simp only [Store.onFile, Option.bind_eq_some_iff, Option.map_eq_some_iff] at hf
    obtain ⟨path, hp, m, hm, rfl⟩ := hf
    rw [h]
    exact getNode_loads hc hp hm

theorem node_loading (h : w.seen x = some n) : ((w.loading x).cell x).node = some n := by
  unfold Store.seen at h
  unfold World.loading
  cases hc : w.cache.lookup x with
  | some m => simpa [World.cell, hc] using h
  | none =>
    rw [hc, Option.none_or] at h
    simp [h]

theorem getNode_seen (h : w.seen x = some n) :
    getNode x ⟨w, none⟩ = .ok n ⟨w.loading x, none⟩ := (getNode_runs h).ok_eq

/-- It throws when there is nothing to see, or when it is stopped. -/
theorem getNode_throws (h : w.seen x = none) : Act.Spec (getNode x) w (fun _ _ => False)
    fun e u => u = w ∧ ((∃ k, e = .stopped k) ∨ e = .thrown (w.missing x)) := by
  obtain ⟨hc, hf⟩ := Option.or_eq_none_iff.mp h
  unfold getNode World.missing
  refine Act.Spec.world_bind ?_
  rw [hc]
  refine Act.Spec.world_bind ?_
  cases hp : w.manifest.nodePath x with
  | none => exact Act.Spec.fail ⟨rfl, .inr rfl⟩
  | some path =>
    have hgone : w.disk.node.lookup path.nodeId = none := by
      simpa [Store.onFile, hp] using hf
    refine Act.Spec.bind (R := fun _ _ => False) ?_ fun _ _ => False.elim
    refine Act.Spec.bind (R := fun _ u => u = w)
      (Act.Spec.op rfl fun k _ => ⟨rfl, .inl ⟨k, rfl⟩⟩) ?_
    rintro _ _ rfl
    refine Act.Spec.world_bind ?_
    rw [hgone]
    exact Act.Spec.fail ⟨rfl, .inr rfl⟩

theorem getNode_unseen (h : w.seen x = none) :
    ∃ m, getNode x ⟨w, none⟩ = .error (.thrown (w.missing x)) m := by
  rcases (getNode_throws h).undisturbed with ⟨_, _, _, h⟩ | ⟨e, u, s, hx, -, ⟨k, hk⟩ | he⟩
  · exact h.elim
  · cases hk
  · exact ⟨_, he ▸ hx⟩

/-- However `get_node` is stopped, what it returns was seen. -/
theorem getNode_sees (x : NodeId) (w : World) : Act.Spec (getNode x) w
    (fun n u => w.seen x = some n ∧ u = w.loading x) fun _ _ => True := by
  cases h : w.seen x with
  | none => exact (getNode_throws h).mono (fun _ _ => False.elim) fun _ _ _ => trivial
  | some n =>
    exact Act.Spec.mono (getNode_runs h) (fun _ _ ⟨hr, hu⟩ => ⟨by rw [hr], hu⟩) fun _ _ _ => trivial

end Load

/-! ## What is seen afterwards -/

section Seen

variable {w : World} (x y : NodeId)

theorem seen_setNode (n : SSTNode) :
    (w.setNode x n).seen y = if y = x then some n else w.seen y := by
  show ((w.setNode x n).cache.lookup y).or (w.onFile y) = _
  rw [World.cache_setNode]
  split <;> rfl

/-- Loading a node does not change what is seen. -/
theorem seen_loading : (w.loading x).seen y = w.seen y := by
  unfold World.loading
  split
  · rename_i n hc hf
    rw [seen_setNode]
    split
    · rename_i hy
      rw [hy, Store.seen, hc, hf, Option.none_or]
    · rfl
  · rfl

theorem rest_loading : (w.loading x).rest = w.rest := by
  unfold World.loading
  split <;> rfl

end Seen

/-! ## What is listed -/

theorem Manifest.nodePath_some {m : Manifest} {x : NodeId} {path : FilePath} :
    m.nodePath x = some path ↔
      ∃ r, m.nodes.lookup x = some r ∧ r.valid = true ∧ r.filePath = path := by
  rw [Manifest.nodePath]
  cases m.nodes.lookup x with
  | none => simp
  | some r => by_cases hv : r.valid = true <;> simp [hv]

theorem nodePath_ne_none {w : World} {x : NodeId} :
    w.manifest.nodePath x ≠ none ↔ (w.cell x).Valid := by
  show _ ↔ ∃ r, w.manifest.nodes.lookup x = some r ∧ r.valid = true
  unfold Manifest.nodePath
  cases w.manifest.nodes.lookup x with
  | none => simp
  | some r => by_cases hr : r.valid = true <;> simp [hr]

theorem nodePath_registerNode (m : Manifest) (x level y : Nat) (path : FilePath) :
    (m.registerNode x level path).nodePath y = if y = x then some path else m.nodePath y := by
  by_cases hy : y = x <;> simp [Manifest.nodePath, Manifest.registerNode, lookup_insert, hy]

theorem nodePath_invalidateNode (m : Manifest) (x y : NodeId) :
    (m.invalidateNode x).nodePath y = if y = x then none else m.nodePath y := by
  unfold Manifest.invalidateNode
  cases hx : m.nodes.lookup x with
  | none =>
    by_cases hy : y = x
    · subst hy
      simp [Manifest.nodePath, hx]
    · simp [hy]
  | some r => by_cases hy : y = x <;> simp [Manifest.nodePath, lookup_insert, hy]

theorem nodePath_erase (m : Manifest) (x y : NodeId) :
    { m with nodes := m.nodes.erase x }.nodePath y = if y = x then none else m.nodePath y := by
  by_cases hy : y = x <;> simp [Manifest.nodePath, lookup_erase, hy]

end GravTree
