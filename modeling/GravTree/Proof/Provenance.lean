import GravTree.Proof.Buffer
import GravTree.Proof.Seen
import GravTree.Tree

/-!
# Provenance

The tree code makes no entries of its own: whatever it does, and wherever it is
stopped, an entry in the cache or in a node file was there before or was among the
entries that were drained. It never gives a node more than `MAX_FANOUT` children, and no
part of it but `insert_child` gives a node more children than there are already. It does
not take back calls of `split_leaf`.
-/

namespace GravTree

/-- Every entry of the node has `P`, and every number with `F` bounds its children. -/
structure SSTNode.From (F : Nat → Prop) (P : Entry → Prop) (n : SSTNode) : Prop where
  entries : ∀ e ∈ n.buffer, P e
  fanout : ∀ N, F N → n.childIds.length ≤ N

/-- Every node in the cache and in the node files has entries with `P` only and no more
children than `F` allows, and the log of calls continues `log`. -/
structure Sourced (F : Nat → Prop) (P : Entry → Prop) (log : List SplitCall) (w : World) :
    Prop where
  node : ∀ {x n}, (w.cell x).node = some n → n.From F P
  file : ∀ {x n}, (w.cell x).file = some n → n.From F P
  log : ∃ l, w.rest.splits = l ++ log

/-- A program of the tree that returns values with `A`. -/
abbrev Traces {α : Type} (F : Nat → Prop) (P : Entry → Prop) (log : List SplitCall) (x : M α)
    (A : α → Prop) : Prop := Act.Keeps (Sourced F P log) x A

variable {F : Nat → Prop} {P : Entry → Prop} {log : List SplitCall} {w : World}

/-! ## Nodes -/

namespace SSTNode.From

variable {n m : SSTNode} {es bs : List Entry}

theorem sortBuffer (h : ∀ e ∈ es, P e) : ∀ e ∈ sortBuffer es, P e :=
  fun e he => h e (mem_of_mem_sortBuffer he)

theorem merge (h : ∀ e ∈ es, P e) (h' : ∀ e ∈ bs, P e) : ∀ e ∈ mergeSortedEntries es bs, P e :=
  fun e he => (mem_of_mem_merge he).elim (h e) (h' e)

theorem prepare (h : n.From F P) (sizing : Sizing) : (n.prepare sizing).From F P :=
  ⟨sortBuffer h.entries, h.fanout⟩

theorem build {cs : List NodeId} (h : ∀ e ∈ es, P e)
    (hcs : ∀ N, F N → min cs.length maxFanout ≤ N) (sizing : Sizing) (id level : Nat) :
    (SSTNode.build sizing id level es cs).From F P :=
  ⟨sortBuffer h, fun N hN => (List.length_take_le _ _).trans (hcs N hN)⟩

/-- Only the range or the file changes. -/
theorem congr (h : n.From F P) (hb : m.buffer = n.buffer) (hk : m.childIds = n.childIds) :
    m.From F P := ⟨hb ▸ h.entries, hk ▸ h.fanout⟩

theorem mono {Q : Entry → Prop} (h : n.From F P) (hPQ : ∀ e, P e → Q e) : n.From F Q :=
  ⟨fun e he => hPQ e (h.entries e he), h.fanout⟩

end SSTNode.From

/-! ## Worlds -/

namespace Sourced

theorem mono {Q : Entry → Prop} (S : Sourced F P log w) (h : ∀ e, P e → Q e) :
    Sourced F Q log w :=
  ⟨fun hx => (S.node hx).mono h, fun hx => (S.file hx).mono h, S.log⟩

/-- Of the entries nothing is asked. -/
theorem self (w : World) : Sourced (fun _ => False) (fun _ => True) w.rest.splits w :=
  ⟨fun _ => ⟨fun _ _ => trivial, fun _ h => h.elim⟩,
    fun _ => ⟨fun _ _ => trivial, fun _ h => h.elim⟩, [], rfl⟩

theorem of_cells (S : Sourced F P log w) {u : World}
    (hnode : ∀ {x n}, (u.cell x).node = some n → n.From F P)
    (hfile : ∀ {x n}, (u.cell x).file = some n → n.From F P)
    (hlog : u.rest.splits = w.rest.splits) : Sourced F P log u :=
  ⟨hnode, hfile, hlog ▸ S.log⟩

theorem setNode (S : Sourced F P log w) (x : NodeId) {n : SSTNode} (h : n.From F P) :
    Sourced F P log (w.setNode x n) := by
  refine S.of_cells (fun {y m} hm => ?_) (fun {y m} hm => ?_) rfl
  · rw [World.cell_setNode] at hm
    split at hm
    · cases hm
      exact h
    · exact S.node hm
  · rw [World.cell_setNode] at hm
    split at hm <;> exact S.file hm

theorem eraseNode (S : Sourced F P log w) (x : NodeId) : Sourced F P log (w.eraseNode x) := by
  refine S.of_cells (fun {y m} hm => ?_) (fun {y m} hm => ?_) rfl
  · rw [World.cell_eraseNode] at hm
    split at hm
    · cases hm
    · exact S.node hm
  · rw [World.cell_eraseNode] at hm
    split at hm <;> exact S.file hm

theorem modifyNode (S : Sourced F P log w) (x : NodeId) {f : SSTNode → SSTNode}
    (h : ∀ n, n.From F P → (f n).From F P) : Sourced F P log (w.modifyNode x f) := by
  refine S.of_cells (fun {y m} hm => ?_) (fun {y m} hm => ?_) (by rw [World.rest_modifyNode])
  · rw [World.cell_modifyNode] at hm
    split at hm
    · obtain ⟨k, hk, rfl⟩ := Option.map_eq_some_iff.mp hm
      exact h k (S.node hk)
    · exact S.node hm
  · rw [World.cell_modifyNode] at hm
    split at hm <;> exact S.file hm

/-- A write through a reference to a node that is known. -/
theorem modifyAt (S : Sourced F P log w) {x : NodeId} {n : SSTNode} {f : SSTNode → SSTNode}
    (hx : (w.cell x).node = some n) (h : (f n).From F P) : Sourced F P log (w.modifyNode x f) := by
  have hw : w.modifyNode x f = w.setNode x (f n) := by
    have hx : w.cache.lookup x = some n := hx
    rw [World.modifyNode, hx]
  exact hw ▸ S.setNode x h

theorem renamed (S : Sourced F P log w) {n : SSTNode} (h : n.From F P) :
    Sourced F P log (w.renamed n) := by
  refine S.of_cells (fun {y m} hm => ?_) (fun {y m} hm => ?_) rfl
  · rw [World.cell_renamed] at hm
    split at hm <;> exact S.node hm
  · rw [World.cell_renamed] at hm
    split at hm
    · cases hm
      exact h
    · exact S.file hm

theorem collected (S : Sourced F P log w) (x : NodeId) (r : NodeMeta) :
    Sourced F P log (w.collected x r) := by
  refine S.of_cells (fun {y m} hm => S.node (x := y) hm) (fun {y m} hm => ?_) rfl
  have hm : (w.disk.node.erase r.filePath.nodeId).lookup y = some m := hm
  rw [lookup_erase] at hm
  split at hm
  · cases hm
  · exact S.file (x := y) hm

theorem splitting (S : Sourced F P log w) (x : NodeId) (path : List NodeId) :
    Sourced F P log (w.splitting x path) := by
  obtain ⟨l, hl⟩ := S.log
  exact ⟨S.node, S.file, _ :: l, by rw [World.rest_splitting, hl]; rfl⟩

theorem invalidateNode (S : Sourced F P log w) (x : NodeId) :
    Sourced F P log (w.invalidateNode x) := by
  refine S.of_cells (fun {y m} hm => ?_) (fun {y m} hm => ?_) (by rw [World.rest_invalidateNode])
  · rw [World.cell_invalidateNode] at hm
    split at hm <;> exact S.node hm
  · rw [World.cell_invalidateNode] at hm
    split at hm <;> exact S.file hm

end Sourced

/-! ## The store -/

section Store

theorem traces_nextNodeId : Traces F P log nextNodeId fun _ => True :=
  .bind .world fun _ _ => .bind (.update fun _ S => ⟨S.node, S.file, S.log⟩) fun _ _ =>
    .pure trivial

theorem traces_registerNode (id level : Nat) (path : FilePath) :
    Traces F P log (registerNode id level path) fun _ => True :=
  .update fun _ S => ⟨S.node, S.file, S.log⟩

theorem traces_invalidateNode (id : NodeId) : Traces F P log (invalidateNode id) fun _ => True :=
  .update fun _ S => S.invalidateNode id

theorem traces_setRoot (id : NodeId) : Traces F P log (setRoot id) fun _ => True :=
  .update fun _ S => ⟨S.node, S.file, S.log⟩

theorem traces_save : Traces F P log save fun _ => True :=
  .bind (.op _) fun _ _ => .update fun _ S => ⟨S.node, S.file, S.log⟩

theorem traces_gcLoop : ∀ ids, Traces F P log (gcLoop ids) fun _ => True
  | [] => .pure trivial
  | id :: ids => by
    unfold gcLoop
    refine .bind .world fun w _ => ?_
    split
    · split
      · exact .bind (.op _) fun _ _ => .bind (.update fun _ S => S.collected _ _) fun _ _ =>
          traces_gcLoop ids
      · exact traces_gcLoop ids
    · exact traces_gcLoop ids

theorem traces_gc : Traces F P log gc fun _ => True := .bind .world fun _ _ => traces_gcLoop _

theorem traces_writeFile {n : SSTNode} (h : n.From F P) :
    Traces F P log n.writeFile fun _ => True :=
  .bind (.op _) fun _ _ => .bind (.update fun _ S => S.renamed h) fun _ _ => .pure trivial

theorem traces_readFile (path : FilePath) (entries : Bool) :
    Traces F P log (readFile path entries) (SSTNode.From F P) := by
  refine .bind (.op _) fun _ _ => .bind .world fun w S => ?_
  split
  · exact .fail _
  · rename_i n hn
    have hfile := S.file (x := path.nodeId) hn
    refine .pure ⟨fun e he => ?_, hfile.fanout⟩
    cases entries with
    | false => simp at he
    | true => exact hfile.entries e he

theorem traces_loadEntries {n : SSTNode} (h : n.From F P) :
    Traces F P log n.loadEntries (SSTNode.From F P) := by
  unfold SSTNode.loadEntries
  split
  · exact .pure h
  · exact .bind (traces_readFile _ _) fun full hf => .pure ⟨hf.entries, h.fanout⟩

theorem traces_create {id level : Nat} {es : List Entry} {cs : List NodeId}
    (h : ∀ e ∈ es, P e) (hcs : ∀ N, F N → min cs.length maxFanout ≤ N) :
    Traces F P log (SSTNode.create id level es cs) (SSTNode.From F P) := by
  have hb : ∀ sizing, (SSTNode.build sizing id level es cs).From F P := fun sizing =>
    .build h hcs sizing id level
  exact .bind .world fun w _ => .bind (traces_writeFile (hb w.sizing)) fun _ _ =>
    .pure ((hb w.sizing).congr rfl rfl)

theorem traces_flushToDisk {n : SSTNode} (h : n.From F P) :
    Traces F P log n.flushToDisk (SSTNode.From F P) :=
  .bind .world fun w _ => .bind (traces_writeFile (h.prepare w.sizing)) fun _ _ =>
    .pure ((h.prepare w.sizing).congr rfl rfl)

theorem traces_setNode (id : NodeId) {n : SSTNode} (h : n.From F P) :
    Traces F P log (setNode id n) fun _ => True := .update fun _ S => S.setNode id h

theorem traces_eraseNode (id : NodeId) : Traces F P log (eraseNode id) fun _ => True :=
  .update fun _ S => S.eraseNode id

theorem traces_modifyNode (id : NodeId) {f : SSTNode → SSTNode}
    (h : ∀ n, n.From F P → (f n).From F P) : Traces F P log (modifyNode id f) fun _ => True :=
  .update fun _ S => S.modifyNode id h

theorem traces_getNode (id : NodeId) : Traces F P log (getNode id) (SSTNode.From F P) := by
  refine .bind .world fun w S => ?_
  split
  · rename_i n hn
    exact .pure (S.node (x := id) hn)
  · refine .bind .world fun w _ => ?_
    split
    · exact .fail _
    · exact .bind (traces_readFile _ _) fun n hn => .bind (traces_loadEntries hn) fun n hn =>
        .bind (traces_setNode _ hn) fun _ _ => .pure hn

theorem traces_flushNode (id : NodeId) : Traces F P log (flushNode id) fun _ => True :=
  .bind .world fun _ _ => .bind (traces_modifyNode id fun _ h => h.prepare _) fun _ _ =>
    .bind (traces_getNode id) fun _ h => .bind (traces_writeFile h) fun _ _ =>
      traces_modifyNode id fun _ h => h.congr rfl rfl

theorem traces_registerCached (id : NodeId) : Traces F P log (registerCached id) fun _ => True :=
  .bind (traces_getNode id) fun _ _ => traces_registerNode _ _ _

end Store

/-! ## Lookups -/

section Lookup

theorem traces_spanKeyRange (n : SSTNode) : Traces F P log (spanKeyRange n) fun _ => True :=
  .bind (traces_getNode _) fun _ _ => .bind (traces_getNode _) fun _ _ => .pure trivial

theorem traces_nextChild (key : Bytes) : ∀ next ids,
    Traces F P log (nextChild key next ids) fun _ => True
  | _, [] => .pure trivial
  | next, id :: ids => by
    refine .bind (traces_getNode id) fun _ _ => ?_
    split
    · exact traces_nextChild key id ids
    · exact .pure trivial

theorem traces_findPathFrom (key : Bytes) : ∀ fuel cur,
    Traces F P log (findPathFrom key fuel cur) fun _ => True
  | 0, _ => .fail _
  | fuel + 1, cur => by
    refine .bind (traces_getNode cur) fun _ _ => ?_
    split
    · exact .pure trivial
    · exact .bind (traces_nextChild key _ _) fun _ _ =>
        .bind (traces_findPathFrom key fuel _) fun _ _ => .pure trivial

theorem traces_findPath (key : Bytes) : Traces F P log (findPath key) fun _ => True :=
  .bind .world fun _ _ => traces_findPathFrom _ _ _

theorem traces_searchPath (key : Bytes) : ∀ path,
    Traces F P log (searchPath key path) fun _ => True
  | [] => .pure trivial
  | nid :: rest => by
    refine .bind (traces_getNode nid) fun _ _ => ?_
    split
    · exact traces_searchPath key rest
    · split
      · exact .pure trivial
      · exact traces_searchPath key rest

theorem traces_getFromTree (key : Bytes) : Traces F P log (getFromTree key) fun _ => True :=
  .bind (traces_findPath key) fun _ _ => traces_searchPath key _

theorem traces_firstPath {dfs : NodeId → M (Option (List NodeId))}
    (h : ∀ id, Traces F P log (dfs id) fun _ => True) :
    ∀ ids, Traces F P log (firstPath dfs ids) fun _ => True
  | [] => .pure trivial
  | id :: ids => by
    refine .bind (h id) fun r _ => ?_
    cases r with
    | some path => exact .pure trivial
    | none => exact traces_firstPath h ids

theorem traces_dfs (target : NodeId) : ∀ fuel id, Traces F P log (dfs target fuel id) fun _ => True
  | 0, _ => .fail _
  | fuel + 1, id => by
    unfold dfs
    split
    · exact .pure trivial
    · exact .bind (traces_getNode id) fun _ _ =>
        .bind (traces_firstPath (traces_dfs target fuel) _) fun _ _ => .pure trivial

theorem traces_pathTo (target : NodeId) : Traces F P log (pathTo target) fun _ => True :=
  .bind .world fun _ _ => .bind (traces_dfs _ _ _) fun _ _ => .pure trivial

end Lookup

/-! ## The code up to the point where it goes up -/

/-- `split_leaf`, until the leaf is replaced. -/
def cutLeaf (leafId : NodeId) (path : List NodeId) : M (NodeId × NodeId) := do
  let _ ← getNode leafId
  Act.update (·.splitting leafId path)
  modifyNode leafId fun leaf => { leaf with buffer := stableSort leaf.buffer }
  let leaf ← getNode leafId
  let mid := leaf.buffer.length / 2
  let leftId ← nextNodeId
  let rightId ← nextNodeId
  let leftNode ← SSTNode.create leftId 0 (leaf.buffer.take mid) []
  let rightNode ← SSTNode.create rightId 0 (leaf.buffer.drop mid) []
  registerNode leftId 0 leftNode.filePath
  registerNode rightId 0 rightNode.filePath
  invalidateNode leafId
  setNode leftId leftNode
  setNode rightId rightNode
  eraseNode leafId
  return (leftId, rightId)

/-- `insert_child` on a full parent, until the parent is replaced. Returns the halves and
the path to the parent. -/
def cutParent (parent : SSTNode) (oldChildId leftId rightId : NodeId) :
    M (NodeId × NodeId × List NodeId) := do
  let kids := replaceChild oldChildId leftId rightId parent.childIds
  let half := kids.length / 2
  let lk := kids.take half
  let rk := kids.drop half
  let rightMin := (← getNode (rk.headD invalidNodeId)).keyRange.minKey
  let lbuf := parent.buffer.filter fun e => e.key < rightMin
  let rbuf := parent.buffer.filter fun e => ¬ e.key < rightMin
  let lid2 ← nextNodeId
  let rid2 ← nextNodeId
  let ln ← SSTNode.create lid2 parent.level lbuf lk
  let rn ← SSTNode.create rid2 parent.level rbuf rk
  let lrange ← spanKeyRange ln
  let rrange ← spanKeyRange rn
  let ln ← SSTNode.flushToDisk { ln with keyRange := lrange }
  let rn ← SSTNode.flushToDisk { rn with keyRange := rrange }
  let path ← pathTo parent.id
  invalidateNode parent.id
  registerNode lid2 parent.level ln.filePath
  registerNode rid2 parent.level rn.filePath
  setNode lid2 ln
  setNode rid2 rn
  eraseNode parent.id
  return (lid2, rid2, path)

theorem splitLeaf_eq (x : NodeId) (path : List NodeId) : splitLeaf x path =
    cutLeaf x path >>= fun h =>
      if path.length = 1 then growRoot 1 h.1 h.2 >>= fun _ => save >>= fun _ => gc
      else Act.world >>= fun w =>
        insertChild w.height (path.getD (path.length - 2) invalidNodeId) x h.1 h.2 >>= fun _ =>
          save >>= fun _ => gc := by
  simp only [splitLeaf, cutLeaf, bind_assoc, pure_bind]

theorem insertChild_succ (fuel : Nat) (p x l r : NodeId) : insertChild (fuel + 1) p x l r =
    getNode p >>= fun parent =>
      if parent.childIds.length < maxFanout then
        modifyNode p (fun p => { p with childIds := replaceChild x l r p.childIds }) >>= fun _ =>
          finishParent p
      else if x ∉ parent.childIds then finishParent p
      else cutParent parent x l r >>= fun h =>
        if h.2.2.length = 1 then
          growRoot (parent.level + 1) h.1 h.2.1 >>= fun _ => save >>= fun _ => gc
        else insertChild fuel (h.2.2.getD (h.2.2.length - 2) invalidNodeId) parent.id h.1 h.2.1 >>=
          fun _ => save >>= fun _ => gc := by
  simp only [insertChild, cutParent, bind_assoc, pure_bind]

/-! ## Splits -/

section Split

theorem traces_growRoot (hF : ∀ N, F N → 2 ≤ N) (level l r : Nat) :
    Traces F P log (growRoot level l r) fun _ => True := by
  have hnil : ∀ e ∈ ([] : List Entry), P e := fun _ he => nomatch he
  unfold growRoot
  refine .bind traces_nextNodeId fun _ _ => .bind (traces_create hnil hF) fun n h =>
    .bind (traces_spanKeyRange n) fun _ _ => ?_
  refine .bind (traces_flushToDisk (n := { n with keyRange := _ }) (h.congr rfl rfl)) fun n h => ?_
  exact .bind (traces_registerNode _ _ _) fun _ _ => .bind (traces_setRoot _) fun _ _ =>
    traces_setNode _ h

theorem traces_finishParent (id : NodeId) : Traces F P log (finishParent id) fun _ => True := by
  refine .bind (traces_getNode id) fun n _ => ?_
  have hend : Traces F P log (flushNode id >>= fun _ => registerCached id) fun _ => True :=
    .bind (traces_flushNode id) fun _ _ => traces_registerCached id
  split
  · exact .bind (traces_spanKeyRange _) fun _ _ =>
      .bind (traces_modifyNode id fun _ h => h.congr rfl rfl) fun _ _ => hend
  · exact hend

theorem length_replaceChild_le (old left right : NodeId) : ∀ ids : List NodeId,
    (replaceChild old left right ids).length ≤ ids.length + 1
  | [] => Nat.zero_le _
  | id :: ids => by
    have := length_replaceChild_le old left right ids
    unfold replaceChild
    split
    · simp
    · simpa using this

theorem traces_cutParent (hF : ∀ N, F N → maxFanout ≤ N) {parent : SSTNode} {x l r : NodeId}
    (hp : parent.From F P) : Traces F P log (cutParent parent x l r) fun _ => True := by
  have hfull : ∀ cs : List NodeId, ∀ N, F N → min cs.length maxFanout ≤ N := fun cs N hN =>
    (min_le_right _ _).trans (hF N hN)
  unfold cutParent
  exact .bind (traces_getNode _) fun _ _ => .bind traces_nextNodeId fun _ _ =>
    .bind traces_nextNodeId fun _ _ =>
    .bind (traces_create (fun e he => hp.entries e (List.mem_of_mem_filter he)) (hfull _))
      fun ln hln =>
    .bind (traces_create (fun e he => hp.entries e (List.mem_of_mem_filter he)) (hfull _))
      fun rn hrn =>
    .bind (traces_spanKeyRange _) fun _ _ => .bind (traces_spanKeyRange _) fun _ _ =>
    .bind (traces_flushToDisk (hln.congr rfl rfl)) fun ln hln =>
    .bind (traces_flushToDisk (hrn.congr rfl rfl)) fun rn hrn =>
    .bind (traces_pathTo _) fun path _ => .bind (traces_invalidateNode _) fun _ _ =>
    .bind (traces_registerNode _ _ _) fun _ _ => .bind (traces_registerNode _ _ _) fun _ _ =>
    .bind (traces_setNode _ hln) fun _ _ => .bind (traces_setNode _ hrn) fun _ _ =>
    .bind (traces_eraseNode _) fun _ _ => .pure trivial

theorem traces_cutLeaf (x : NodeId) (path : List NodeId) :
    Traces F P log (cutLeaf x path) fun _ => True := by
  unfold cutLeaf
  refine .bind (traces_getNode x) fun _ _ => .bind (.update fun _ S => S.splitting x path)
    fun _ _ => ?_
  refine .bind (traces_modifyNode x fun n h => ⟨fun e he => h.entries e (mem_stableSort.mp he),
    h.fanout⟩) fun _ _ => ?_
  refine .bind (traces_getNode x) fun leaf hleaf => ?_
  exact .bind traces_nextNodeId fun _ _ => .bind traces_nextNodeId fun _ _ =>
    .bind (traces_create (fun e he => hleaf.entries e (List.mem_of_mem_take he))
      fun N _ => Nat.zero_le N) fun ln hln =>
    .bind (traces_create (fun e he => hleaf.entries e (List.mem_of_mem_drop he))
      fun N _ => Nat.zero_le N) fun rn hrn =>
    .bind (traces_registerNode _ _ _) fun _ _ => .bind (traces_registerNode _ _ _) fun _ _ =>
    .bind (traces_invalidateNode _) fun _ _ =>
    .bind (traces_setNode _ hln) fun _ _ => .bind (traces_setNode _ hrn) fun _ _ =>
    .bind (traces_eraseNode _) fun _ _ => .pure trivial

theorem replaceChild_eq_self {x a b : NodeId} : ∀ {ids : List NodeId}, x ∉ ids →
    replaceChild x a b ids = ids
  | [], _ => rfl
  | id :: ids, h => by
    obtain ⟨hne, hids⟩ := not_or.mp (List.mem_cons.not.mp h)
    rw [replaceChild, if_neg (Ne.symm hne), replaceChild_eq_self hids]

/-- `insert_child` on a full parent, given what it does further up. -/
theorem traces_full (hF : ∀ N, F N → maxFanout ≤ N) {fuel : Nat}
    (ih : ∀ p x l r, Traces F P log (insertChild fuel p x l r) fun _ => True) {p x l r : NodeId}
    {parent : SSTNode} (hp : parent.From F P) :
    Traces F P log (if x ∉ parent.childIds then finishParent p
      else cutParent parent x l r >>= fun h =>
        if h.2.2.length = 1 then
          growRoot (parent.level + 1) h.1 h.2.1 >>= fun _ => save >>= fun _ => gc
        else insertChild fuel (h.2.2.getD (h.2.2.length - 2) invalidNodeId) parent.id h.1 h.2.1 >>=
          fun _ => save >>= fun _ => gc) fun _ => True := by
  have hcommit : Traces F P log (save >>= fun _ => gc) fun _ => True :=
    .bind traces_save fun _ _ => traces_gc
  split
  · exact traces_finishParent p
  · refine .bind (traces_cutParent hF hp) fun h _ => ?_
    split
    · exact .bind (traces_growRoot (fun N hN => le_trans (by decide) (hF N hN)) _ _ _)
        fun _ _ => hcommit
    · exact .bind (ih _ _ _ _) fun _ _ => hcommit

/-- **`insert_child`** on a parent that has room for what it gets. -/
theorem insertChild_sourced {fuel : Nat} {p x l r : NodeId} (S : Sourced F P log w)
    (hroom : ∀ n, w.seen p = some n → n.childIds.length < maxFanout →
      ∀ N, F N → (replaceChild x l r n.childIds).length ≤ N)
    (ih : (∀ N, F N → maxFanout ≤ N) →
      ∀ p x l r, Traces F P log (insertChild fuel p x l r) fun _ => True) :
    Act.Spec (insertChild (fuel + 1) p x l r) w (fun _ u => Sourced F P log u ∧ True)
      fun _ u => Sourced F P log u := by
  rw [insertChild_succ]
  have hget := Act.Spec.and (getNode_sees p w) (traces_getNode p w S)
  refine Act.Spec.bind hget fun parent u hu => ?_
  obtain ⟨⟨hseen, rfl⟩, Su, hp⟩ := hu
  split
  · rename_i hlt
    exact .update_bind (traces_finishParent p _ (Su.modifyAt (node_loading hseen)
      ⟨hp.entries, hroom parent hseen hlt⟩))
  · rename_i hfull
    -- what has as many children as fit has no more than any bound allows
    have hF : ∀ N, F N → maxFanout ≤ N := fun N hN => (not_lt.mp hfull).trans (hp.fanout N hN)
    exact traces_full hF (ih hF) hp _ Su

theorem traces_insertChild (hF : ∀ N, F N → maxFanout ≤ N) : ∀ fuel p x l r,
    Traces F P log (insertChild fuel p x l r) fun _ => True
  | 0, _, _, _, _ => .fail _
  | fuel + 1, _, _, _, _ => fun _ S => insertChild_sourced S
      (fun _ _ hlt N hN => ((length_replaceChild_le _ _ _ _).trans hlt).trans (hF N hN))
      fun hF => traces_insertChild hF fuel

/-- **`split_leaf`**, given what it does to the parent. -/
theorem traces_splitLeaf (hF : ∀ N, F N → maxFanout ≤ N) (x : NodeId) (path : List NodeId) :
    Traces F P log (splitLeaf x path) fun _ => True := by
  have hcommit : Traces F P log (save >>= fun _ => gc) fun _ => True :=
    .bind traces_save fun _ _ => traces_gc
  rw [splitLeaf_eq]
  refine .bind (traces_cutLeaf x path) fun h _ => ?_
  split
  · exact .bind (traces_growRoot (fun N hN => le_trans (by decide) (hF N hN)) _ _ _)
      fun _ _ => hcommit
  · exact .bind .world fun _ _ => .bind (traces_insertChild hF _ _ _ _ _) fun _ _ => hcommit

end Split

/-! ## Flushes -/

section Flush

theorem traces_localFlushLoop : ∀ (cs : List (SSTNode × List Entry)),
    (∀ c ∈ cs, c.1.From F P ∧ ∀ e ∈ c.2, P e) →
    Traces F P log (localFlushLoop cs) fun r => ∀ c ∈ r.1, c.From F P
  | [], _ => .pure (by simp)
  | (child, part) :: cs, h => by
    obtain ⟨⟨hchild, hpart⟩, hcs⟩ := List.forall_mem_cons.mp h
    unfold localFlushLoop
    split
    · exact .bind (traces_localFlushLoop cs hcs) fun r hr =>
        .pure (List.forall_mem_cons.mpr ⟨hchild, hr⟩)
    · exact .bind (traces_loadEntries hchild) fun c hc => .bind traces_nextNodeId fun _ _ =>
        .bind (traces_create (SSTNode.From.merge hpart hc.entries)
          fun N hN => (min_le_left _ _).trans (hc.fanout N hN)) fun n hn =>
        .bind (traces_registerNode _ _ _) fun _ _ => .bind (traces_invalidateNode _) fun _ _ =>
        .bind (traces_localFlushLoop cs hcs) fun r hr =>
          .pure (List.forall_mem_cons.mpr ⟨hn, hr⟩)

theorem mem_partitionEntries {es : List Entry} {cs : List SSTNode} {part : List Entry}
    (h : part ∈ partitionEntries es cs) : part ⊆ es := by
  obtain ⟨i, hi, rfl⟩ := List.mem_iff_getElem.mp h
  have hi' : i < cs.length := by simpa [length_partitionEntries] using hi
  have hp := getElem?_partitionEntries es cs hi'
  obtain ⟨_, hp⟩ := List.getElem?_eq_some_iff.mp hp
  rw [hp]
  exact List.filter_subset_self ..

theorem traces_localFlush (p : NodeId) {cs : List SSTNode} (h : ∀ c ∈ cs, c.From F P) :
    Traces F P log (localFlush p cs) fun r => ∀ c ∈ r.1, c.From F P := by
  refine .bind (traces_modifyNode p fun n h => ⟨fun e he => h.entries e (mem_stableSort.mp he),
      h.fanout⟩) fun _ _ => .bind (traces_getNode p) fun parent hp =>
        traces_localFlushLoop _ fun c hc => ?_
  obtain ⟨h₁, h₂⟩ := List.of_mem_zip (a := c.1) (b := c.2) hc
  exact ⟨h c.1 h₁, fun e he => hp.entries e (mem_partitionEntries h₂ he)⟩

theorem traces_loadChildren : ∀ ids,
    Traces F P log (loadChildren ids) fun cs => ∀ c ∈ cs, c.From F P
  | [] => .pure (by simp)
  | id :: ids => by
    unfold loadChildren
    refine .bind (traces_getNode id) fun child hc => .bind (traces_loadEntries hc) fun n hn => ?_
    have hrest : Traces F P log (loadChildren ids >>= fun rest => pure (n :: rest))
        fun cs => ∀ c ∈ cs, c.From F P :=
      .bind (traces_loadChildren ids) fun rest hr => .pure (List.forall_mem_cons.mpr ⟨hn, hr⟩)
    split
    · exact .bind (traces_setNode id hn) fun _ _ => hrest
    · exact hrest

theorem traces_refreshChild {c : SSTNode} (h : c.From F P) :
    Traces F P log (refreshChild c) (SSTNode.From F P) := by
  unfold refreshChild
  split
  · exact .bind (traces_spanKeyRange c) fun _ _ =>
      .bind (traces_flushToDisk (n := { c with keyRange := _ }) (h.congr rfl rfl)) fun n hn =>
      .bind (traces_registerNode _ _ _) fun _ _ => .pure hn
  · exact .pure h

theorem traces_refreshCache : ∀ (cs : List SSTNode) olds, (∀ c ∈ cs, c.From F P) →
    Traces F P log (refreshCache cs olds) fun _ => True
  | [], _, _ => .pure trivial
  | c :: cs, olds, h => by
    obtain ⟨hc, hcs⟩ := List.forall_mem_cons.mp h
    have hrest : Traces F P log (refreshChild c >>= fun c => setNode c.id c >>= fun _ =>
        refreshCache cs olds.tail) fun _ => True :=
      .bind (traces_refreshChild hc) fun n hn => .bind (traces_setNode _ hn) fun _ _ =>
        traces_refreshCache cs _ hcs
    unfold refreshCache
    cases olds with
    | nil => exact hrest
    | cons old olds => exact .bind (traces_eraseNode old) fun _ _ => hrest

theorem traces_pushDown (p : NodeId) : Traces F P log (pushDown p) fun _ => True := by
  unfold pushDown
  refine .bind (traces_getNode p) fun parent hp => .bind (traces_loadChildren _) fun cs hcs =>
    .bind (traces_localFlush p hcs) fun r hr => .bind (traces_modifyNode p fun _ h =>
      ⟨h.entries, fun N hN => le_trans (by rw [List.length_zipWith]; exact min_le_left _ _)
        (h.fanout N hN)⟩)
    fun _ _ => .bind (traces_refreshCache _ _ hr) fun _ _ =>
    .bind (traces_modifyNode p fun _ h => ⟨fun _ he => (nomatch he), h.fanout⟩) fun _ _ =>
    .bind (traces_getNode p) fun n hn => ?_
  have hend : Traces F P log (flushNode p >>= fun _ => registerCached p >>= fun _ => save >>= fun _ =>
      gc >>= fun _ => pure r.2.newChildIds) fun _ => True :=
    .bind (traces_flushNode p) fun _ _ => .bind (traces_registerCached p) fun _ _ =>
      .bind traces_save fun _ _ => .bind traces_gc fun _ _ => .pure trivial
  split
  · exact .bind (traces_spanKeyRange n) fun _ _ =>
      .bind (traces_modifyNode p fun _ h => h.congr rfl rfl) fun _ _ => hend
  · exact hend

/-- What the steps of `do_flush` keep, it keeps. -/
theorem keeps_checkChildren {I : World → Prop}
    (hsplit : ∀ x path, Act.Keeps I (splitLeaf x path) fun _ => True) {flushChild : NodeId → M Unit}
    (h : ∀ id, Act.Keeps I (flushChild id) fun _ => True) (p : NodeId) :
    ∀ ids, Act.Keeps I (checkChildren flushChild p ids) fun _ => True
  | [] => .pure trivial
  | id :: ids => by
    have hrest := keeps_checkChildren hsplit h p ids
    refine .bind .world fun w _ => ?_
    split
    · split
      · split
        · exact .bind (hsplit _ _) fun _ _ => hrest
        · split
          · exact .bind (h id) fun _ _ => hrest
          · exact hrest
      · exact hrest
    · exact hrest

theorem keeps_doFlush {I : World → Prop}
    (hsplit : ∀ x path, Act.Keeps I (splitLeaf x path) fun _ => True)
    (hpush : ∀ p, Act.Keeps I (pushDown p) fun _ => True) :
    ∀ fuel p, Act.Keeps I (doFlush fuel p) fun _ => True
  | 0, _ => .fail _
  | fuel + 1, p => .bind (hpush p) fun _ _ =>
      keeps_checkChildren hsplit (keeps_doFlush hsplit hpush fuel) p _

theorem keeps_flushPending {I : World → Prop}
    (hsplit : ∀ x path, Act.Keeps I (splitLeaf x path) fun _ => True)
    (hpush : ∀ p, Act.Keeps I (pushDown p) fun _ => True)
    (hpath : ∀ k, Act.Keeps I (findPath k) fun _ => True) {es : List Entry}
    (hmerge : Act.Keeps I (mergeIntoRoot es) fun _ => True) :
    Act.Keeps I (flushPending es) fun _ => True := by
  refine .bind .world fun w _ => .bind hmerge fun root _ => ?_
  split
  · split
    · exact .bind (hpath _) fun _ _ => hsplit _ _
    · split
      · exact keeps_doFlush hsplit hpush _ _
      · exact .pure trivial
  · exact .pure trivial

/-- Only here do entries come in. -/
theorem traces_mergeIntoRoot {es : List Entry} (h : ∀ e ∈ es, P e) :
    Traces F P log (mergeIntoRoot es) (SSTNode.From F P) := by
  refine .bind .world fun w _ => .bind (traces_getNode _) fun _ _ =>
    .bind (traces_modifyNode _ fun n hn => ⟨fun e he => ?_, hn.fanout⟩) fun _ _ => traces_getNode _
  exact (List.mem_append.mp (mem_stableSort.mp he)).elim (hn.entries e) (h e)

/-- **A background cycle.** -/
theorem traces_flushPending (hF : ∀ N, F N → maxFanout ≤ N) {es : List Entry}
    (h : ∀ e ∈ es, P e) : Traces F P log (flushPending es) fun _ => True :=
  keeps_flushPending (traces_splitLeaf hF) traces_pushDown traces_findPath
    ((traces_mergeIntoRoot h).mono fun _ _ => trivial)

/-- **`flush()`.** -/
theorem traces_persistRoot {es : List Entry} (h : ∀ e ∈ es, P e) :
    Traces F P log (persistRoot es) fun _ => True := by
  refine .bind .world fun w _ => .bind (traces_mergeIntoRoot h) fun root _ => ?_
  split
  · exact .bind (traces_flushNode _) fun _ _ => .bind (traces_getNode _) fun _ _ =>
      .bind (traces_registerNode _ _ _) fun _ _ => traces_save
  · exact .pure trivial

/-- **The destructor.** -/
theorem traces_destroyTree {es : List Entry} (h : ∀ e ∈ es, P e) :
    Traces F P log (destroyTree es) fun _ => True := by
  refine .bind .world fun w _ => ?_
  split
  · exact traces_persistRoot h
  · exact .pure trivial

theorem traces_ensureRoot : Traces F P log ensureRoot fun _ => True := by
  have hnil : ∀ e ∈ ([] : List Entry), P e := fun _ he => nomatch he
  refine .bind .world fun w _ => ?_
  dsimp only
  split
  · refine .bind .world fun w _ => ?_
    split
    · exact .fail _
    · exact .bind (traces_readFile _ _) fun n hn => .bind (traces_loadEntries hn) fun n hn =>
        traces_setNode _ hn
  · exact .bind traces_nextNodeId fun _ _ => .bind (traces_create hnil fun N _ => Nat.zero_le N) fun n hn =>
      .bind (traces_registerNode _ _ _) fun _ _ => .bind (traces_setRoot _) fun _ _ =>
      .bind traces_save fun _ _ => traces_setNode _ hn

/-- **`open`.** -/
theorem traces_openTree : Traces F P log openTree fun _ => True :=
  .bind (.update fun _ S => ⟨S.node, S.file, S.log⟩) fun _ _ => traces_ensureRoot

end Flush

end GravTree
