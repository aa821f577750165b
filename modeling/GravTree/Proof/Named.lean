import GravTree.Proof.Lookups
import GravTree.Proof.Tidy

/-!
# Names

A file operation that throws in the middle of a restructuring leaves a tree with nodes missing.
What survives every fault is weaker: whatever the cache, the manifest or a file has under an id
is a node of that id, a valid record has its file, and nobody has the root for a child. As long
as the root itself has a valid record, the manifest on disk is one that `open` accepts.
-/

namespace GravTree

/-- The node `x`. Its children are ids below `b`, and the root is not among them. -/
structure SSTNode.Names (b root x : NodeId) (n : SSTNode) : Prop where
  id : n.id = x
  path : n.filePath = ⟨x⟩
  kids : ∀ c ∈ n.childIds, c < b ∧ c ≠ root

namespace SSTNode.Names

variable {b root x : NodeId} {n m : SSTNode}

theorem prepare (h : n.Names b root x) (sizing : Sizing) : (n.prepare sizing).Names b root x :=
  ⟨h.id, h.path, h.kids⟩

theorem build {cs : List NodeId} (h : ∀ c ∈ cs, c < b ∧ c ≠ root) (sizing : Sizing)
    (id level : Nat) (es : List Entry) :
    (SSTNode.build sizing id level es cs).Names b root id :=
  ⟨rfl, rfl, fun c hc => h c (List.mem_of_mem_take hc)⟩

/-- The file is renamed, or only the contents change. -/
theorem congr (h : n.Names b root x) (hid : m.id = n.id) (hpath : m.filePath = ⟨m.id⟩)
    (hk : m.childIds = n.childIds) : m.Names b root x :=
  ⟨hid.trans h.id, by rw [hpath, hid, h.id], hk ▸ h.kids⟩

theorem mono (h : n.Names b root x) {c : NodeId} (hbc : b ≤ c) : n.Names c root x :=
  ⟨h.id, h.path, fun k hk => ⟨lt_of_lt_of_le (h.kids k hk).1 hbc, (h.kids k hk).2⟩⟩

end SSTNode.Names

/-- `open` accepts the manifest: the root has a valid record, and the valid records have files. -/
structure Manifest.Resolves (m : Manifest) (files : NodeMap SSTNode) : Prop where
  pos : 0 < m.rootId
  root : ∃ r, m.nodes.lookup m.rootId = some r ∧ r.valid = true
  file : ∀ {x r}, m.nodes.lookup x = some r → r.valid = true →
    r.filePath = ⟨x⟩ ∧ ∃ n, files.lookup x = some n

/-- Every id leads to a node of that id, and the manifest on disk is one that `open` accepts. -/
structure Named (b : NodeId) (w : World) : Prop where
  pos : 0 < w.rest.root
  lt : w.rest.root < w.rest.next
  le : b ≤ w.rest.next
  node : ∀ {x n}, (w.cell x).node = some n → n.Names b w.rest.root x
  file : ∀ {x n}, (w.cell x).file = some n → n.Names b w.rest.root x
  record : ∀ {x r}, (w.cell x).record = some r →
    r.filePath = ⟨x⟩ ∧ (r.valid = true → ∃ n, (w.cell x).file = some n)
  stored : ∃ m, w.rest.stored = some m ∧ m.Resolves w.disk.node

namespace Named

variable {b : NodeId} {w : World}

theorem mono (N : Named b w) {c : NodeId} (h : b ≤ c) (hc : c ≤ w.rest.next) : Named c w where
  pos := N.pos
  lt := N.lt
  le := hc
  node hx := (N.node hx).mono h
  file hx := (N.file hx).mono h
  record := N.record
  stored := N.stored

/-- The cache and the contents of files change, and no file goes. -/
theorem of_cells (N : Named b w) {u : World} (hroot : u.rest.root = w.rest.root)
    (hnext : w.rest.next ≤ u.rest.next) (hstored : u.rest.stored = w.rest.stored)
    (hnode : ∀ {x n}, (u.cell x).node = some n → n.Names b w.rest.root x)
    (hfile : ∀ {x n}, (u.cell x).file = some n → n.Names b w.rest.root x)
    (hrecord : ∀ {x r}, (u.cell x).record = some r →
      r.filePath = ⟨x⟩ ∧ (r.valid = true → ∃ n, (u.cell x).file = some n))
    (hgrow : ∀ x, (∃ n, (w.cell x).file = some n) → ∃ n, (u.cell x).file = some n) :
    Named b u where
  pos := hroot ▸ N.pos
  lt := by
    rw [hroot]
    exact lt_of_lt_of_le N.lt hnext
  le := N.le.trans hnext
  node hx := hroot ▸ hnode hx
  file hx := hroot ▸ hfile hx
  record := hrecord
  stored := by
    obtain ⟨m, hm, M⟩ := N.stored
    refine ⟨m, hstored.trans hm, M.pos, M.root, fun hx hr => ?_⟩
    exact ⟨(M.file hx hr).1, hgrow _ (M.file hx hr).2⟩

theorem setNode (N : Named b w) {x : NodeId} {n : SSTNode} (h : n.Names b w.rest.root x) :
    Named b (w.setNode x n) := by
  have hcell : ∀ y, ((w.setNode x n).cell y).record = (w.cell y).record ∧
      ((w.setNode x n).cell y).file = (w.cell y).file := fun y => by
    rw [World.cell_setNode]
    split <;> exact ⟨rfl, rfl⟩
  refine N.of_cells rfl le_rfl rfl (fun {y m} hm => ?_) (fun {y m} hm => ?_) (fun {y r} hr => ?_)
    fun y hy => ?_
  · rw [World.cell_setNode] at hm
    split at hm
    · rename_i hyx
      cases hm
      exact hyx ▸ h
    · exact N.node hm
  · exact N.file ((hcell y).2 ▸ hm)
  · rw [(hcell y).1] at hr
    rw [(hcell y).2]
    exact N.record hr
  · rw [(hcell y).2]
    exact hy

theorem eraseNode (N : Named b w) (x : NodeId) : Named b (w.eraseNode x) := by
  have hcell : ∀ y, ((w.eraseNode x).cell y).record = (w.cell y).record ∧
      ((w.eraseNode x).cell y).file = (w.cell y).file := fun y => by
    rw [World.cell_eraseNode]
    split <;> exact ⟨rfl, rfl⟩
  refine N.of_cells rfl le_rfl rfl (fun {y m} hm => ?_) (fun {y m} hm => ?_) (fun {y r} hr => ?_)
    fun y hy => ?_
  · rw [World.cell_eraseNode] at hm
    split at hm
    · cases hm
    · exact N.node hm
  · exact N.file ((hcell y).2 ▸ hm)
  · rw [(hcell y).1] at hr
    rw [(hcell y).2]
    exact N.record hr
  · rw [(hcell y).2]
    exact hy

theorem modifyNode (N : Named b w) {x : NodeId} {f : SSTNode → SSTNode}
    (h : ∀ n, n.Names b w.rest.root x → (f n).Names b w.rest.root x) :
    Named b (w.modifyNode x f) := by
  cases hx : w.cache.lookup x with
  | none =>
    rw [World.modifyNode, hx]
    exact N
  | some n =>
    rw [World.modifyNode, hx]
    exact N.setNode (h n (N.node hx))

theorem renamed (N : Named b w) {n : SSTNode} (h : n.Names b w.rest.root n.id) :
    Named b (w.renamed n) := by
  have hgrow : ∀ y, (∃ m, (w.cell y).file = some m) → ∃ m, ((w.renamed n).cell y).file = some m :=
    fun y hy => by
      rw [World.cell_renamed]
      split
      · exact ⟨n, rfl⟩
      · exact hy
  refine N.of_cells rfl le_rfl rfl (fun {y m} hm => ?_) (fun {y m} hm => ?_) (fun {y r} hr => ?_)
    hgrow
  · rw [World.cell_renamed] at hm
    split at hm <;> exact N.node hm
  · rw [World.cell_renamed] at hm
    split at hm
    · rename_i hy
      cases hm
      exact hy ▸ h
    · exact N.file hm
  · have hr : (w.cell y).record = some r := by
      rw [World.cell_renamed] at hr
      split at hr <;> exact hr
    exact ⟨(N.record hr).1, fun hv => hgrow y ((N.record hr).2 hv)⟩

theorem takeId (N : Named b w) : Named b w.takeId :=
  N.of_cells rfl (Nat.le_succ _) rfl N.node N.file N.record fun _ h => h

theorem splitting (N : Named b w) (x : NodeId) (path : List NodeId) :
    Named b (w.splitting x path) :=
  N.of_cells rfl le_rfl rfl N.node N.file N.record fun _ h => h

/-- A record of a node whose file is there. -/
theorem registerNode (N : Named b w) {x : NodeId} (level : Nat)
    (h : ∃ n, (w.cell x).file = some n) : Named b (w.registerNode x level ⟨x⟩) := by
  have hcell : ∀ y, ((w.registerNode x level ⟨x⟩).cell y).node = (w.cell y).node ∧
      ((w.registerNode x level ⟨x⟩).cell y).file = (w.cell y).file := fun y => by
    rw [World.cell_registerNode]
    split <;> exact ⟨rfl, rfl⟩
  refine N.of_cells rfl le_rfl rfl (fun {y m} hm => N.node ((hcell y).1 ▸ hm))
    (fun {y m} hm => N.file ((hcell y).2 ▸ hm)) (fun {y r} hr => ?_) fun y hy => ?_
  · rw [(hcell y).2]
    rw [World.cell_registerNode] at hr
    split at hr
    · rename_i hyx
      subst hyx
      cases hr
      exact ⟨rfl, fun _ => h⟩
    · exact N.record hr
  · rw [(hcell y).2]
    exact hy

theorem invalidateNode (N : Named b w) (x : NodeId) : Named b (w.invalidateNode x) := by
  have hcell : ∀ y, ((w.invalidateNode x).cell y).node = (w.cell y).node ∧
      ((w.invalidateNode x).cell y).file = (w.cell y).file := fun y => by
    rw [World.cell_invalidateNode]
    split <;> exact ⟨rfl, rfl⟩
  have hrest := World.rest_invalidateNode w x
  refine N.of_cells (by rw [hrest]) (by rw [hrest]) (by rw [hrest])
    (fun {y m} hm => N.node ((hcell y).1 ▸ hm)) (fun {y m} hm => N.file ((hcell y).2 ▸ hm))
    (fun {y r} hr => ?_) fun y hy => ?_
  · rw [(hcell y).2]
    rw [World.cell_invalidateNode] at hr
    split at hr
    · obtain ⟨r', hr', rfl⟩ := Option.map_eq_some_iff.mp hr
      exact ⟨(N.record hr').1, fun hv => nomatch hv⟩
    · exact N.record hr
  · rw [(hcell y).2]
    exact hy

/-- The new root is an id that no node has for a child. -/
theorem setRoot {x : NodeId} (N : Named x w) (hx : w.rest.root < x) (h : x < w.rest.next) :
    Named x (w.setRoot x) where
  pos := N.pos.trans hx
  lt := h
  le := N.le
  node hx := ⟨(N.node hx).id, (N.node hx).path, fun c hc =>
    ⟨((N.node hx).kids c hc).1, ((N.node hx).kids c hc).1.ne⟩⟩
  file hx := ⟨(N.file hx).id, (N.file hx).path, fun c hc =>
    ⟨((N.file hx).kids c hc).1, ((N.file hx).kids c hc).1.ne⟩⟩
  record := N.record
  stored := N.stored

/-- The manifest is written while the root has a valid record. -/
theorem saved (N : Named b w) (h : (w.cell w.rest.root).Valid) : Named b w.saved where
  pos := N.pos
  lt := N.lt
  le := N.le
  node := N.node
  file := N.file
  record := N.record
  stored := ⟨w.manifest, rfl, N.pos, h, fun {x _} hx hv =>
    ⟨(N.record (x := x) hx).1, (N.record (x := x) hx).2 hv⟩⟩

end Named

/-! ## Reading nodes and writing files -/

/-- What is done without touching a record: nodes are read, files written and ids taken. -/
structure Writing (b : NodeId) (w u : World) : Prop where
  named : Named b u
  root : u.rest.root = w.rest.root
  next : w.rest.next ≤ u.rest.next
  record : ∀ x, (u.cell x).record = (w.cell x).record
  grow : ∀ x, (∃ n, (w.cell x).file = some n) → ∃ n, (u.cell x).file = some n
  gone : ∀ x, (w.cell x).node = none → ¬ (w.cell x).Valid → (u.cell x).node = none

/-- A program that does no more than that, however it ends. -/
abbrev Writes {α : Type} (b : NodeId) (x : M α) (w : World) (A : α → World → Prop) : Prop :=
  Act.Leads (Writing b) (Writing b) x w A

namespace Writing

variable {b : NodeId} {w u v : World}

theorem refl (N : Named b w) : Writing b w w :=
  ⟨N, rfl, le_rfl, fun _ => rfl, fun _ h => h, fun _ h _ => h⟩

theorem valid (h : Writing b w u) {x : NodeId} : (u.cell x).Valid ↔ (w.cell x).Valid := by
  rw [Cell.Valid, Cell.Valid, h.record]

theorem trans (h : Writing b w u) (h' : Writing b u v) : Writing b w v where
  named := h'.named
  root := h'.root.trans h.root
  next := h.next.trans h'.next
  record x := (h'.record x).trans (h.record x)
  grow x hx := h'.grow x (h.grow x hx)
  gone x hx hv := h'.gone x (h.gone x hx hv) fun hu => hv (h.valid.mp hu)

instance (b : NodeId) : Act.Course (Writing b) (Writing b) := ⟨trans, trans⟩

/-- A node goes into the cache under an id that is cached or recorded. -/
theorem setNode (N : Named b w) {x : NodeId} {n : SSTNode} (h : n.Names b w.rest.root x)
    (hx : (∃ m, (w.cell x).node = some m) ∨ (w.cell x).Valid) : Writing b w (w.setNode x n) := by
  refine ⟨N.setNode h, rfl, le_rfl, fun y => ?_, fun y hy => ?_, fun y hy hv => ?_⟩
  · rw [World.cell_setNode]
    split <;> rfl
  · rw [World.cell_setNode]
    split <;> exact hy
  · rw [World.cell_setNode, if_neg]
    · exact hy
    · intro hyx
      subst hyx
      rcases hx with ⟨m, hm⟩ | hx
      · rw [hy] at hm
        cases hm
      · exact hv hx

theorem modifyNode (N : Named b w) {x : NodeId} {f : SSTNode → SSTNode}
    (h : ∀ n, n.Names b w.rest.root x → (f n).Names b w.rest.root x) :
    Writing b w (w.modifyNode x f) := by
  cases hx : w.cache.lookup x with
  | none =>
    rw [World.modifyNode, hx]
    exact refl N
  | some n =>
    rw [World.modifyNode, hx]
    exact setNode N (h n (N.node hx)) (.inl ⟨n, hx⟩)

theorem renamed (N : Named b w) {n : SSTNode} (h : n.Names b w.rest.root n.id) :
    Writing b w (w.renamed n) := by
  refine ⟨N.renamed h, rfl, le_rfl, fun y => ?_, fun y hy => ?_, fun y hy _ => ?_⟩
  · rw [World.cell_renamed]
    split <;> rfl
  · rw [World.cell_renamed]
    split
    · exact ⟨n, rfl⟩
    · exact hy
  · rw [World.cell_renamed]
    split <;> exact hy

end Writing

section Writes

variable {b : NodeId} {w : World} (N : Named b w)

include N

theorem writes_nextNodeId :
    Writes b nextNodeId w fun id u => id = w.rest.next ∧ id < u.rest.next :=
  .world_bind <| .update_bind 
    ⟨N.takeId, rfl, Nat.le_succ _, fun _ => rfl, fun _ h => h, fun _ h _ => h⟩ <|
    .pure (.refl N.takeId) ⟨rfl, Nat.lt_succ_self _⟩

theorem writes_writeFile {n : SSTNode} (h : n.Names b w.rest.root n.id) :
    Writes b n.writeFile w fun path u => path = ⟨n.id⟩ ∧ ∃ m, (u.cell n.id).file = some m :=
  .bind (.op _ (.refl N) (.refl N)) fun _ u _ hu => by
    subst hu
    exact .update_bind (.renamed N h) <| .pure (.refl (N.renamed h))
      ⟨rfl, n, by rw [World.cell_renamed, if_pos rfl]⟩

theorem writes_readFile (x : NodeId) (entries : Bool) :
    Writes b (readFile ⟨x⟩ entries) w fun n u => u = w ∧ n.Names b w.rest.root x :=
  .bind (.op _ (.refl N) (.refl N)) fun _ u _ hu => by
    subst hu
    refine .world_bind ?_
    split
    · exact .fail _ (.refl N)
    · rename_i n hn
      have hfile := N.file (x := x) hn
      exact .pure (.refl N) ⟨rfl, hfile.congr rfl (by rw [hfile.id]) rfl⟩

theorem writes_loadEntries {x : NodeId} {n : SSTNode} (h : n.Names b w.rest.root x) :
    Writes b n.loadEntries w fun m u => u = w ∧ m.Names b w.rest.root x := by
  unfold SSTNode.loadEntries
  split
  · exact .pure (.refl N) ⟨rfl, h⟩
  · rw [h.path]
    refine .bind (writes_readFile N x true) fun full u _ hu => ?_
    obtain ⟨rfl, -⟩ := hu
    exact .pure (.refl N) ⟨rfl, h.congr rfl (by rw [h.id]) rfl⟩

theorem writes_create {id level : Nat} {es : List Entry} {cs : List NodeId}
    (h : ∀ c ∈ cs, c < b ∧ c ≠ w.rest.root) :
    Writes b (SSTNode.create id level es cs) w fun n u =>
      n.Names b u.rest.root id ∧ ∃ m, (u.cell id).file = some m := by
  have hb : (SSTNode.build w.sizing id level es cs).Names b w.rest.root id := .build h _ _ _ _
  refine .world_bind <| .bind (writes_writeFile N hb) fun path u hu hp => ?_
  obtain ⟨rfl, hfile⟩ := hp
  refine .pure (.refl hu.named) ⟨?_, hfile⟩
  rw [hu.root]
  exact hb.congr rfl rfl rfl

theorem writes_flushToDisk {x : NodeId} {n : SSTNode} (h : n.Names b w.rest.root x) :
    Writes b n.flushToDisk w fun m u =>
      m.Names b u.rest.root x ∧ ∃ m, (u.cell x).file = some m := by
  obtain rfl : n.id = x := h.id
  have hp := h.prepare w.sizing
  refine .world_bind <| .bind (writes_writeFile N hp) fun path u hu hpath => ?_
  obtain ⟨rfl, hfile⟩ := hpath
  refine .pure (.refl hu.named) ⟨?_, hfile⟩
  rw [hu.root]
  exact hp.congr rfl rfl rfl

/-- What `get_node` returns is in the cache. -/
theorem writes_getNode (id : NodeId) :
    Writes b (getNode id) w fun n u => n.Names b u.rest.root id ∧ (u.cell id).node = some n := by
  refine .world_bind ?_
  split
  · rename_i n hn
    exact .pure (.refl N) ⟨N.node (x := id) hn, hn⟩
  · refine .world_bind ?_
    split
    · exact .fail _ (.refl N)
    · rename_i path hpath
      obtain ⟨r, hr, hv, hp⟩ : ∃ r, (w.cell id).record = some r ∧ r.valid = true ∧
          r.filePath = path := by
        rw [Manifest.nodePath] at hpath
        cases hr : w.manifest.nodes.lookup id with
        | none => simp [hr] at hpath
        | some r =>
          rw [hr] at hpath
          by_cases hv : r.valid = true
          · exact ⟨r, hr, hv, by simpa [hv] using hpath⟩
          · simp [hv] at hpath
      obtain rfl : path = ⟨id⟩ := hp ▸ (N.record hr).1
      refine .bind (writes_readFile N id false) fun n u _ hu => ?_
      obtain ⟨rfl, hn⟩ := hu
      refine .bind (writes_loadEntries N hn) fun n v _ hv => ?_
      obtain ⟨rfl, hn⟩ := hv
      refine .update_bind (.setNode N hn (.inr ⟨r, hr, hv⟩)) ?_
      exact .pure (.refl (N.setNode hn)) ⟨hn, by rw [World.cell_setNode, if_pos rfl]⟩

/-- `flush_to_disk` on a cached node leaves a file of that node. -/
theorem writes_flushNode (id : NodeId) :
    Writes b (flushNode id) w fun _ u => ∃ m, (u.cell id).file = some m := by
  refine .world_bind <| .update_bind (.modifyNode N fun n h => h.prepare _) ?_
  refine .bind (writes_getNode (N.modifyNode fun n h => h.prepare _) id)
    fun n u hu hn => ?_
  obtain ⟨hn, -⟩ := hn
  obtain rfl : n.id = id := hn.id
  refine .bind (writes_writeFile hu.named hn) fun path v hv hpath => ?_
  obtain ⟨rfl, m, hm⟩ := hpath
  have h : Writing b v (v.modifyNode n.id fun k =>
      { k with filePath := ⟨n.id⟩, entriesLoaded := true }) :=
    .modifyNode hv.named fun k hk => hk.congr rfl (by rw [hk.id]) rfl
  exact .update h (h.grow _ ⟨m, hm⟩)

theorem writes_spanKeyRange (n : SSTNode) : Writes b (spanKeyRange n) w fun _ _ => True :=
  .bind (writes_getNode N _) fun _ _ hu _ =>
    .bind (writes_getNode hu.named _) fun _ _ hv _ => .pure (.refl hv.named) trivial

end Writes

/-! ## Lookups -/

section Lookup

variable {b : NodeId} {w : World}

theorem fetches_writing (b : NodeId) : Fetches (Named b) (Writing b) where
  refl := .refl
  next h := h.named
  get id _ N := (writes_getNode N id).mono (fun _ h => h) (fun _ h => h) fun _ _ _ _ => trivial

theorem writes_getFromTree (N : Named b w) (key : Bytes) :
    Writes b (getFromTree key) w fun _ _ => True := (fetches_writing b).getFromTree key N

theorem writes_firstPath {dfs : NodeId → M (Option (List NodeId))}
    (h : ∀ id {w : World}, Named b w → Writes b (dfs id) w fun r _ => ∀ p, r = some p → p ≠ []) :
    ∀ (ids : List NodeId) {w : World}, Named b w →
      Writes b (firstPath dfs ids) w fun r _ => ∀ p, r = some p → p ≠ []
  | [], _, N => .pure (.refl N) fun _ hp => nomatch hp
  | id :: ids, _, N => by
    refine .bind (h id N) fun r _ hu hr => ?_
    cases r with
    | some path => exact .pure (.refl hu.named) hr
    | none => exact writes_firstPath h ids hu.named

/-- A path to another node is longer than one. -/
theorem writes_dfs (target : NodeId) : ∀ (fuel : Nat) (id : NodeId) {w : World}, Named b w →
    Writes b (dfs target fuel id) w fun r _ =>
      (∀ p, r = some p → p ≠ []) ∧ ((r.getD []).length = 1 ↔ id = target)
  | 0, _, _, N => .fail _ (.refl N)
  | fuel + 1, id, _, N => by
    unfold dfs
    split
    · rename_i hid
      refine .pure (.refl N) ⟨fun p hp => ?_, by simp [hid]⟩
      obtain rfl := Option.some.inj hp
      simp
    · rename_i hid
      refine .bind (writes_getNode N id) fun n u hu _ => ?_
      have hdfs : ∀ id {w : World}, Named b w →
          Writes b (dfs target fuel id) w fun r _ => ∀ p, r = some p → p ≠ [] := fun id _ N =>
        (writes_dfs target fuel id N).mono (fun _ h => h) (fun _ h => h) fun _ _ _ h => h.1
      refine .bind (writes_firstPath hdfs _ hu.named) fun r v hv hr => .pure (.refl hv.named) ?_
      cases r with
      | none =>
        refine ⟨fun p hp => ?_, by simp [hid]⟩
        cases hp
      | some q =>
        have hpos : q ≠ [] := hr q rfl
        refine ⟨fun p hp => ?_, by simp [hid, hpos]⟩
        obtain rfl := Option.some.inj hp
        simp

/-- The path to the root, and to it alone, has one node. -/
theorem writes_pathTo (N : Named b w) (target : NodeId) :
    Writes b (pathTo target) w fun path _ => path.length = 1 ↔ w.rest.root = target :=
  .world_bind <| .bind (writes_dfs target w.height w.manifest.rootId N) fun _ _ hu hr =>
    .pure (.refl hu.named) hr.2

/-- The children are what their ids say. -/
theorem writes_loadChildren : ∀ (ids : List NodeId) {w : World}, Named b w →
    Writes b (loadChildren ids) w fun cs u => ∀ c ∈ cs, c.id ∈ ids ∧ c.Names b u.rest.root c.id
  | [], _, N => .pure (.refl N) (by simp)
  | id :: ids, _, N => by
    unfold loadChildren
    refine .bind (writes_getNode N id) fun child u hu hc => ?_
    refine .bind (writes_loadEntries hu.named hc.1) fun n v _ hv => ?_
    obtain ⟨rfl, hn⟩ := hv
    have hrest : ∀ {v' : World}, Writing b v v' → Writes b
        (loadChildren ids >>= fun rest => pure (n :: rest)) v' fun cs u =>
          ∀ c ∈ cs, c.id ∈ id :: ids ∧ c.Names b u.rest.root c.id := fun hv' =>
      .bind (writes_loadChildren ids hv'.named) fun rest u' hu' hr => by
        refine .pure (.refl hu'.named) (List.forall_mem_cons.mpr ⟨?_, fun c hc => ?_⟩)
        · rw [hu'.root, hv'.root]
          obtain rfl := hn.id
          exact ⟨List.mem_cons_self, hn⟩
        · exact ⟨List.mem_cons_of_mem _ (hr c hc).1, (hr c hc).2⟩
    split
    · -- `get_node` has just put it into the cache
      have h := Writing.setNode hu.named hn (.inl ⟨child, hc.2⟩)
      exact .update_bind h (hrest h)
    · exact hrest (.refl hu.named)

end Lookup

end GravTree
