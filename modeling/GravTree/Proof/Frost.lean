import GravTree.Proof.Tidy

/-!
# Nodes that are not loaded yet

After `open` only the root is in the cache; the code loads every other node when it first
asks for it. The question is whether a restructuring could tell the difference. Here two
worlds are compared that have the same manifest and directory: in the first, the nodes of a
set may not be loaded yet, in the second they are. A program that asks `get_node` before it
writes to a node returns the same from both, and the set only shrinks on the way.

A file that the manifest does not list can hold anything. So a second set is carried along,
of the unlisted identifiers whose files are not to be trusted; it shrinks when such a file
is written over.
-/

namespace GravTree

/-- What is known of two worlds that differ in what is loaded. -/
structure Frost where
  /-- These nodes are not loaded yet. -/
  cold : Set NodeId
  /-- These files may hold a node of another name. -/
  odd : Set NodeId

namespace Frost

/-- More is loaded, and more files are known. -/
structure Thinner (G F : Frost) : Prop where
  cold : G.cold ⊆ F.cold
  odd : G.odd ⊆ F.odd

/-- A node that is loaded, or an identifier that is new, with a file of that name if any. -/
structure Clear (F : Frost) (x : NodeId) : Prop where
  cold : x ∉ F.cold
  odd : x ∉ F.odd

def load (F : Frost) (x : NodeId) : Frost := { F with cold := F.cold \ {x} }

def write (F : Frost) (x : NodeId) : Frost := { F with odd := F.odd \ {x} }

variable {F G H : Frost} {x y : NodeId}

theorem Thinner.refl (F : Frost) : F.Thinner F := ⟨subset_rfl, subset_rfl⟩

theorem Thinner.trans (h : G.Thinner F) (h' : H.Thinner G) : H.Thinner F :=
  ⟨h'.cold.trans h.cold, h'.odd.trans h.odd⟩

theorem thinner_load (F : Frost) (x : NodeId) : (F.load x).Thinner F :=
  ⟨Set.sdiff_subset, subset_rfl⟩

theorem thinner_write (F : Frost) (x : NodeId) : (F.write x).Thinner F :=
  ⟨subset_rfl, Set.sdiff_subset⟩

theorem Clear.mono (h : F.Clear x) (hG : G.Thinner F) : G.Clear x :=
  ⟨fun hx => h.cold (hG.cold hx), fun hx => h.odd (hG.odd hx)⟩

theorem clear_write (h : x ∉ F.cold) : (F.write x).Clear x := ⟨h, fun hx => hx.2 rfl⟩

theorem clear_load (h : x ∉ F.odd) : (F.load x).Clear x := ⟨fun hx => hx.2 rfl, h⟩

end Frost

/-- The node is what belongs under `x`. -/
structure SSTNode.Called (n : SSTNode) (x : NodeId) : Prop where
  id : n.id = x
  path : n.filePath = ⟨x⟩

/-- Where `w` has not loaded a node, `v` has it as it is on file. Else they are the same. -/
structure Thaws (F : Frost) (w v : World) : Prop where
  manifest : w.manifest = v.manifest
  disk : w.disk = v.disk
  sizing : w.sizing = v.sizing
  warm : ∀ {x}, x ∉ F.cold → w.cache.lookup x = v.cache.lookup x
  cold : ∀ {x}, x ∈ F.cold → w.cache.lookup x = none ∧ v.cache.lookup x = v.onFile x
  fresh : ∀ {x}, x ∈ F.cold → x < v.manifest.nextId
  root : v.manifest.rootId ∉ F.cold
  node : ∀ {x n}, v.cache.lookup x = some n → n.Called x ∧ x ∉ F.odd
  file : ∀ {x n}, x ∉ F.odd → v.disk.node.lookup x = some n → n.id = x
  record : ∀ {x r}, v.manifest.nodes.lookup x = some r → r.filePath = ⟨x⟩
  odd : ∀ {x}, x ∈ F.odd → v.manifest.nodePath x = none

theorem cache_loading (w : World) (x y : NodeId) :
    (w.loading x).cache.lookup y = if y = x then w.seen x else w.cache.lookup y := by
  unfold World.loading
  cases hc : w.cache.lookup x with
  | some n =>
    dsimp only
    split
    · rename_i hy
      rw [hy, hc, Store.seen, hc, Option.some_or]
    · rfl
  | none =>
    cases hf : w.onFile x with
    | some n =>
      dsimp only
      rw [World.cache_setNode, Store.seen, hc, hf, Option.none_or]
    | none =>
      dsimp only
      split
      · rename_i hy
        rw [hy, hc, Store.seen, hc, hf, Option.none_or]
      · rfl

theorem manifest_loading (w : World) (x : NodeId) : (w.loading x).manifest = w.manifest := by
  unfold World.loading
  split <;> rfl

theorem disk_loading (w : World) (x : NodeId) : (w.loading x).disk = w.disk := by
  unfold World.loading
  split <;> rfl

theorem onFile_some {s : Store} {x : NodeId} {n : SSTNode} : s.onFile x = some n ↔
    ∃ path m, s.manifest.nodePath x = some path ∧ s.disk.node.lookup path.nodeId = some m ∧
      { m with filePath := path, entriesLoaded := true } = n := by
  rw [Store.onFile, Option.bind_eq_some_iff]
  simp only [Option.map_eq_some_iff]
  constructor
  · intro h
    obtain ⟨path, hp, m, hm, hn⟩ := h
    exact ⟨path, m, hp, hm, hn⟩
  · intro h
    obtain ⟨path, m, hp, hm, hn⟩ := h
    exact ⟨path, hp, m, hm, hn⟩

namespace Thaws

variable {F : Frost} {w v : World} {x y : NodeId} {n : SSTNode}

theorem onFile (T : Thaws F w v) (x : NodeId) : w.onFile x = v.onFile x := by
  rw [Store.onFile, T.manifest, T.disk, Store.onFile]

/-- **`get_node`** finds the same. -/
theorem seen (T : Thaws F w v) (x : NodeId) : w.seen x = v.seen x := by
  by_cases hx : x ∈ F.cold
  · obtain ⟨hw, hv⟩ := T.cold hx
    rw [Store.seen, Store.seen, hw, hv, T.onFile, Option.none_or, Option.or_self]
  · rw [Store.seen, Store.seen, T.warm hx, T.onFile]

theorem height (T : Thaws F w v) : w.height = v.height := by
  rw [World.height, World.height, T.manifest, T.warm T.root]

theorem path (T : Thaws F w v) {path : FilePath} (h : v.manifest.nodePath x = some path) :
    path = ⟨x⟩ := by
  unfold Manifest.nodePath at h
  cases hr : v.manifest.nodes.lookup x with
  | none => simp [hr] at h
  | some r =>
    rw [hr] at h
    dsimp only at h
    split at h
    · exact Option.some.inj h ▸ T.record hr
    · cases h

/-- What is found is what belongs there. -/
theorem called (T : Thaws F w v) (h : v.seen x = some n) : n.Called x ∧ x ∉ F.odd := by
  rcases Option.or_eq_some_iff.mp h with hc | ⟨-, hf⟩
  · exact T.node hc
  · obtain ⟨path, m, hp, hm, rfl⟩ := onFile_some.mp hf
    -- an odd file is not listed, and this one is
    have hodd : x ∉ F.odd := by
      intro hx
      rw [T.odd hx] at hp
      cases hp
    obtain rfl := T.path hp
    have hid : m.id = x := T.file hodd hm
    exact ⟨⟨hid, rfl⟩, hodd⟩

/-! ### What the steps of the store keep -/

/-- Whatever was only read. -/
theorem loading (T : Thaws F w v) (x : NodeId) : Thaws (F.load x) (w.loading x) (v.loading x) where
  manifest := by rw [manifest_loading, manifest_loading, T.manifest]
  disk := by rw [disk_loading, disk_loading, T.disk]
  sizing := by
    have hs : ∀ u : World, (u.loading x).sizing = u.sizing := fun u =>
      congrArg Rest.sizing (rest_loading (w := u) x)
    rw [hs, hs, T.sizing]
  warm := by
    intro y hy
    rw [cache_loading, cache_loading, T.seen]
    split
    · rfl
    · rename_i hyx
      exact T.warm fun hc => hy ⟨hc, hyx⟩
  cold := by
    intro y hy
    have hyx : y ≠ x := hy.2
    rw [cache_loading, cache_loading, if_neg hyx, if_neg hyx, Store.onFile, manifest_loading,
      disk_loading]
    exact T.cold hy.1
  fresh hy := by
    rw [manifest_loading]
    exact T.fresh hy.1
  root := by
    rw [manifest_loading]
    exact fun h => T.root h.1
  node := by
    intro y n hn
    rw [cache_loading] at hn
    split at hn
    · -- both worlds have it from the same file
      rename_i hyx
      subst hyx
      exact T.called hn
    · exact T.node hn
  file hy hn := T.file hy (disk_loading v x ▸ hn)
  record hr := T.record (manifest_loading v x ▸ hr)
  odd hy := by
    rw [manifest_loading]
    exact T.odd hy

theorem takeId (T : Thaws F w v) : Thaws F w.takeId v.takeId where
  manifest := by rw [World.takeId, World.takeId, T.manifest]
  disk := T.disk
  sizing := T.sizing
  warm := T.warm
  cold := T.cold
  fresh hx := Nat.lt_succ_of_lt (T.fresh hx)
  root := T.root
  node := T.node
  file := T.file
  record := T.record
  odd := T.odd

theorem splitting (T : Thaws F w v) (x : NodeId) (path : List NodeId) :
    Thaws F (w.splitting x path) (v.splitting x path) :=
  ⟨T.manifest, T.disk, T.sizing, T.warm, T.cold, T.fresh, T.root, T.node, T.file, T.record, T.odd⟩

theorem setRoot (T : Thaws F w v) (hx : x ∉ F.cold) : Thaws F (w.setRoot x) (v.setRoot x) where
  manifest := by rw [World.setRoot, World.setRoot, T.manifest]
  disk := T.disk
  sizing := T.sizing
  warm := T.warm
  cold := T.cold
  fresh := T.fresh
  root := hx
  node := T.node
  file := T.file
  record := T.record
  odd := T.odd

theorem saved (T : Thaws F w v) : Thaws F w.saved v.saved where
  manifest := T.manifest
  disk := by rw [World.saved, World.saved, T.manifest, T.disk]
  sizing := T.sizing
  warm := T.warm
  cold := T.cold
  fresh := T.fresh
  root := T.root
  node := T.node
  file := T.file
  record := T.record
  odd := T.odd

theorem registerNode (T : Thaws F w v) (hx : F.Clear x) (level : Nat) :
    Thaws F (w.registerNode x level ⟨x⟩) (v.registerNode x level ⟨x⟩) where
  manifest := by rw [World.registerNode, World.registerNode, T.manifest]
  disk := T.disk
  sizing := T.sizing
  warm := T.warm
  cold := by
    intro y hy
    refine ⟨(T.cold hy).1, (T.cold hy).2.trans ?_⟩
    -- what `get_node` reads for a cold node is read through its own record
    show _ = ((v.manifest.registerNode x level ⟨x⟩).nodePath y).bind _
    rw [nodePath_registerNode, if_neg (ne_of_mem_of_not_mem hy hx.cold)]
    rfl
  fresh := T.fresh
  root := T.root
  node := T.node
  file := T.file
  record := by
    intro y r hr
    have hr : (v.manifest.nodes.insert x { id := x, level, filePath := ⟨x⟩ }).lookup y =
        some r := hr
    rw [lookup_insert] at hr
    split at hr
    · rename_i hy
      cases hr
      rw [hy]
    · exact T.record hr
  odd := by
    intro y hy
    show (v.manifest.registerNode x level ⟨x⟩).nodePath y = none
    rw [nodePath_registerNode, if_neg (ne_of_mem_of_not_mem hy hx.odd)]
    exact T.odd hy

theorem invalidateNode (T : Thaws F w v) (hx : x ∉ F.cold) :
    Thaws F (w.invalidateNode x) (v.invalidateNode x) where
  manifest := by rw [World.invalidateNode, World.invalidateNode, T.manifest]
  disk := T.disk
  sizing := T.sizing
  warm := T.warm
  cold := by
    intro y hy
    refine ⟨(T.cold hy).1, (T.cold hy).2.trans ?_⟩
    show _ = ((v.manifest.invalidateNode x).nodePath y).bind _
    rw [nodePath_invalidateNode, if_neg (ne_of_mem_of_not_mem hy hx)]
    rfl
  fresh := by
    intro y hy
    have hrest := congrArg Rest.next (World.rest_invalidateNode v x)
    exact lt_of_lt_of_eq (T.fresh hy) hrest.symm
  root := by
    have hrest : (v.invalidateNode x).manifest.rootId = v.manifest.rootId :=
      congrArg Rest.root (World.rest_invalidateNode v x)
    rw [hrest]
    exact T.root
  node := T.node
  file := T.file
  record := by
    intro y r hr
    have hr : ((v.invalidateNode x).cell y).record = some r := hr
    rw [World.cell_invalidateNode] at hr
    split at hr
    · obtain ⟨r', hr', rfl⟩ := Option.map_eq_some_iff.mp hr
      have hpath : r'.filePath = ⟨y⟩ := T.record hr'
      exact hpath
    · exact T.record (x := y) hr
  odd := by
    intro y hy
    show (v.manifest.invalidateNode x).nodePath y = none
    rw [nodePath_invalidateNode, T.odd hy, ite_self]

/-- A file is written under a name that no lookup reads yet, or over the node's own. -/
theorem renamed (T : Thaws F w v) (hn : n.id ∉ F.cold) :
    Thaws (F.write n.id) (w.renamed n) (v.renamed n) where
  manifest := T.manifest
  disk := by rw [World.renamed, World.renamed, T.disk]
  sizing := T.sizing
  warm := T.warm
  cold := by
    intro y hy
    refine ⟨(T.cold hy).1, (T.cold hy).2.trans ?_⟩
    rw [Store.onFile, Store.onFile]
    show _ = (v.manifest.nodePath y).bind _
    cases hp : v.manifest.nodePath y with
    | none => rfl
    | some path =>
      -- a cold node's file is not the one that is written
      obtain rfl := T.path hp
      show _ = ((v.disk.node.insert n.id n).lookup y).map _
      rw [lookup_insert, if_neg (ne_of_mem_of_not_mem hy hn)]
      rfl
  fresh := T.fresh
  root := T.root
  node hx := ⟨(T.node hx).1, fun h => (T.node hx).2 h.1⟩
  file := by
    intro y m hy hm
    have hm : (v.disk.node.insert n.id n).lookup y = some m := hm
    rw [lookup_insert] at hm
    split at hm
    · -- the file of `x` is to be trusted from now on
      rename_i hyn
      cases hm
      exact hyn.symm
    · rename_i hyn
      exact T.file (fun h => hy ⟨h, hyn⟩) hm
  record := T.record
  odd hy := T.odd hy.1

theorem collected (T : Thaws F w v) {r : NodeMeta} (hr : v.manifest.nodes.lookup x = some r)
    (hv : r.valid = false) : Thaws F (w.collected x r) (v.collected x r) where
  manifest := by rw [World.collected, World.collected, T.manifest]
  disk := by rw [World.collected, World.collected, T.disk]
  sizing := T.sizing
  warm := T.warm
  cold := by
    intro y hy
    refine ⟨(T.cold hy).1, (T.cold hy).2.trans ?_⟩
    have hpath : (v.collected x r).manifest.nodePath y = v.manifest.nodePath y := by
      rw [World.collected, nodePath_erase]
      split
      · rename_i hyx
        rw [hyx, Manifest.nodePath, hr]
        simp [hv]
      · rfl
    rw [Store.onFile, Store.onFile, hpath]
    cases hp : v.manifest.nodePath y with
    | none => rfl
    | some path =>
      obtain rfl := T.path hp
      -- the record that goes is not valid, this one is
      have hyx : y ≠ x := by
        intro hyx
        rw [hyx, Manifest.nodePath, hr] at hp
        simp [hv] at hp
      show _ = ((v.disk.node.erase r.filePath.nodeId).lookup y).map _
      rw [T.record hr, lookup_erase, if_neg hyx]
      rfl
  fresh := T.fresh
  root := T.root
  node := T.node
  file := by
    intro y m hy hm
    have hm : (v.disk.node.erase r.filePath.nodeId).lookup y = some m := hm
    rw [lookup_erase] at hm
    split at hm
    · cases hm
    · exact T.file hy hm
  record := by
    intro y r' hr'
    have hr' : (v.manifest.nodes.erase x).lookup y = some r' := hr'
    rw [lookup_erase] at hr'
    split at hr'
    · cases hr'
    · exact T.record hr'
  odd := by
    intro y hy
    rw [World.collected, nodePath_erase, T.odd hy, ite_self]

theorem setNode (T : Thaws F w v) (hx : F.Clear x) (hn : n.Called x) :
    Thaws F (w.setNode x n) (v.setNode x n) where
  manifest := T.manifest
  disk := T.disk
  sizing := T.sizing
  warm := by
    intro y hy
    rw [World.cache_setNode, World.cache_setNode, T.warm hy]
  cold := by
    intro y hy
    have hne : y ≠ x := ne_of_mem_of_not_mem hy hx.cold
    rw [World.cache_setNode, World.cache_setNode, if_neg hne, if_neg hne]
    exact T.cold hy
  fresh := T.fresh
  root := T.root
  node := by
    intro y m hm
    rw [World.cache_setNode] at hm
    split at hm
    · rename_i hy
      cases hm
      exact hy ▸ ⟨hn, hx.odd⟩
    · exact T.node hm
  file := T.file
  record := T.record
  odd := T.odd

theorem eraseNode (T : Thaws F w v) (hx : x ∉ F.cold) :
    Thaws F (w.eraseNode x) (v.eraseNode x) where
  manifest := T.manifest
  disk := T.disk
  sizing := T.sizing
  warm := by
    intro y hy
    show (w.cache.erase x).lookup y = (v.cache.erase x).lookup y
    rw [lookup_erase, lookup_erase, T.warm hy]
  cold := by
    intro y hy
    show (w.cache.erase x).lookup y = none ∧ (v.cache.erase x).lookup y = v.onFile y
    have hne : y ≠ x := ne_of_mem_of_not_mem hy hx
    rw [lookup_erase, lookup_erase, if_neg hne, if_neg hne]
    exact T.cold hy
  fresh := T.fresh
  root := T.root
  node := by
    intro y m hm
    have hm : (v.cache.erase x).lookup y = some m := hm
    rw [lookup_erase] at hm
    split at hm
    · cases hm
    · exact T.node hm
  file := T.file
  record := T.record
  odd := T.odd

/-- A write to a node that is loaded. -/
theorem modifyNode (T : Thaws F w v) (hx : x ∉ F.cold) {f : SSTNode → SSTNode}
    (hf : ∀ n, n.Called x → (f n).Called x) : Thaws F (w.modifyNode x f) (v.modifyNode x f) := by
  rw [World.modifyNode, World.modifyNode, T.warm hx]
  cases hn : v.cache.lookup x with
  | none => exact T
  | some n => exact T.setNode ⟨hx, (T.node hn).2⟩ (hf n (T.node hn).1)

end Thaws

end GravTree
