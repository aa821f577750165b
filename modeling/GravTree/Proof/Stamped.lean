import GravTree.Proof.Image
import GravTree.Proof.Lookups
import GravTree.Proof.Provenance

/-!
# What the files are to hold

The formats give every number a width and every string a length. That they suffice follows from
where the contents come from: entries and the bounds of key ranges were written by a client, ids
were given out by the manifest, and a level is less than the number of ids given out, since a
higher one takes a new root. And a file is only written with its buffer in order and its filter
built. All of this every fault leaves as it was.
-/

namespace GravTree

/-- The key of one of the entries, or no key. -/
def Marked (P : Entry → Prop) (k : Bytes) : Prop := k = .empty ∨ ∃ e, P e ∧ e.key = k

/-- A range between such keys. -/
structure KeyRange.Marked (P : Entry → Prop) (r : KeyRange) : Prop where
  minKey : GravTree.Marked P r.minKey
  maxKey : GravTree.Marked P r.maxKey

/-- The node's numbers are below `b`, and its entries have `P`. -/
structure SSTNode.Stamped (b : Nat) (P : Entry → Prop) (n : SSTNode) : Prop where
  id : n.id < b
  level : n.level < b
  entries : ∀ e ∈ n.buffer, P e
  range : n.keyRange.Marked P

/-- The node is as `create` and `flush_to_disk` write it. -/
structure SSTNode.Pressed (sizing : Sizing) (n : SSTNode) : Prop where
  unique : UniqueKeys n.buffer
  bloom : n.bloom = (n.buildBloom sizing).bloom

variable {P Q : Entry → Prop} {b c : Nat} {n m : SSTNode} {w u v : World}

theorem KeyRange.Marked.mono {r : KeyRange} (h : r.Marked P) (hPQ : ∀ e, P e → Q e) :
    r.Marked Q :=
  ⟨h.minKey.imp_right fun ⟨e, he, hk⟩ => ⟨e, hPQ e he, hk⟩,
    h.maxKey.imp_right fun ⟨e, he, hk⟩ => ⟨e, hPQ e he, hk⟩⟩

/-- The bounds of a buffer are keys of it. -/
theorem marked_expandRange {r : KeyRange} {es : List Entry} (hr : r.Marked P)
    (h : ∀ e ∈ es, P e) : (SSTNode.expandRange r es).Marked P := by
  unfold SSTNode.expandRange
  split
  · rename_i front back hf hb
    have hfront := h front (List.mem_of_mem_head? hf)
    have hback := h back (List.mem_of_mem_getLast? hb)
    constructor
    · dsimp only
      split
      · exact .inr ⟨front, hfront, rfl⟩
      · exact hr.minKey
    · dsimp only
      split
      · exact .inr ⟨back, hback, rfl⟩
      · exact hr.maxKey
  · exact hr

namespace SSTNode.Stamped

theorem mono (h : n.Stamped b P) (hbc : b ≤ c) : n.Stamped c P :=
  ⟨lt_of_lt_of_le h.id hbc, lt_of_lt_of_le h.level hbc, h.entries, h.range⟩

theorem weaken (h : n.Stamped b P) (hPQ : ∀ e, P e → Q e) : n.Stamped b Q :=
  ⟨h.id, h.level, fun e he => hPQ e (h.entries e he), h.range.mono hPQ⟩

/-- The buffer loses entries or is put in order. -/
theorem thin (h : n.Stamped b P) (hid : m.id = n.id) (hl : m.level = n.level)
    (hb : ∀ e ∈ m.buffer, e ∈ n.buffer) (hr : m.keyRange.Marked P) : m.Stamped b P :=
  ⟨hid ▸ h.id, hl ▸ h.level, fun e he => h.entries e (hb e he), hr⟩

theorem prepare (h : n.Stamped b P) (sizing : Sizing) : (n.prepare sizing).Stamped b P :=
  h.thin rfl rfl (fun _ he => mem_of_mem_sortBuffer he)
    (marked_expandRange h.range fun e he => h.entries e (mem_of_mem_sortBuffer he))

theorem build {id level : Nat} {es : List Entry} (hid : id < b) (hl : level < b)
    (h : ∀ e ∈ es, P e) (sizing : Sizing) (cs : List NodeId) :
    (SSTNode.build sizing id level es cs).Stamped b P := by
  have h' : ∀ e ∈ GravTree.sortBuffer es, P e := fun e he => h e (mem_of_mem_sortBuffer he)
  refine ⟨hid, hl, h', ?_⟩
  unfold SSTNode.build SSTNode.buildBloom
  dsimp only
  split
  · rename_i front back hf hb
    exact ⟨.inr ⟨front, h' front (List.mem_of_mem_head? hf), rfl⟩,
      .inr ⟨back, h' back (List.mem_of_mem_getLast? hb), rfl⟩⟩
  · exact ⟨.inl rfl, .inl rfl⟩

end SSTNode.Stamped

theorem SSTNode.pressed_prepare (sizing : Sizing) (n : SSTNode) :
    (n.prepare sizing).Pressed sizing := ⟨uniqueKeys_sortBuffer _, rfl⟩

theorem SSTNode.pressed_build (sizing : Sizing) (id level : Nat) (es : List Entry)
    (cs : List NodeId) : (SSTNode.build sizing id level es cs).Pressed sizing :=
  ⟨uniqueKeys_sortBuffer _, rfl⟩

/-! ## Worlds -/

/-- Every node and every record is of an id that was given out, and so is the root. -/
structure World.Stamped (P : Entry → Prop) (w : World) : Prop where
  root : w.rest.root < w.rest.next
  node : ∀ {x n}, (w.cell x).node = some n → n.Stamped w.rest.next P
  file : ∀ {x n}, (w.cell x).file = some n → n.Stamped w.rest.next P ∧ n.Pressed w.rest.sizing
  record : ∀ {x r}, (w.cell x).record = some r → r.id = x ∧ x < w.rest.next
  stored : ∀ {m}, w.rest.stored = some m →
    m.Keyed ∧ ∀ {x r}, m.nodes.lookup x = some r → x < m.nextId
  /-- What happened to the directory in bytes is what happened to it. -/
  played : ∀ dir, Encodes dir w.disk (replay dir w.rest.effects)

theorem World.Stamped.weaken (S : w.Stamped P) (h : ∀ e, P e → Q e) : w.Stamped Q :=
  ⟨S.root, fun hx => (S.node hx).weaken h, fun hx => ⟨(S.file hx).1.weaken h, (S.file hx).2⟩,
    S.record, S.stored, S.played⟩

/-- The empty world. -/
theorem stamped_empty (sizing : Sizing) : World.Stamped P { sizing } :=
  ⟨Nat.one_pos, fun hx => (nomatch hx), fun hx => (nomatch hx), fun hx => (nomatch hx),
    fun hm => (nomatch hm), Encodes.empty⟩

/-- What the tree code does to such a world. -/
structure Stamping (P : Entry → Prop) (w u : World) : Prop where
  stamped : u.Stamped P
  next : w.rest.next ≤ u.rest.next
  sizing : u.rest.sizing = w.rest.sizing

/-- A program that does no more than that, however it ends. -/
abbrev Stamps {α : Type} (P : Entry → Prop) (x : M α) (w : World) (A : α → World → Prop) : Prop :=
  Act.Leads (Stamping P) (Stamping P) x w A

theorem Stamping.trans (h : Stamping P w u) (h' : Stamping P u v) : Stamping P w v :=
  ⟨h'.stamped, h.next.trans h'.next, h'.sizing.trans h.sizing⟩

instance : Act.Course (Stamping P) (Stamping P) := ⟨Stamping.trans, Stamping.trans⟩

namespace World.Stamped

variable (S : w.Stamped P)

include S

theorem stamping : Stamping P w w := ⟨S, le_rfl, rfl⟩

/-- The cache, the records and the files change. -/
theorem of_cells (hroot : u.rest.root = w.rest.root) (hnext : w.rest.next ≤ u.rest.next)
    (hstored : u.rest.stored = w.rest.stored) (hsizing : u.rest.sizing = w.rest.sizing)
    (hnode : ∀ {x n}, (u.cell x).node = some n → n.Stamped u.rest.next P)
    (hfile : ∀ {x n}, (u.cell x).file = some n →
      n.Stamped u.rest.next P ∧ n.Pressed w.rest.sizing)
    (hrecord : ∀ {x r}, (u.cell x).record = some r → r.id = x ∧ x < u.rest.next)
    (hplayed : ∀ dir, Encodes dir u.disk (replay dir u.rest.effects)) :
    Stamping P w u where
  stamped := {
    root := by
      rw [hroot]
      exact lt_of_lt_of_le S.root hnext
    node := hnode
    file := hsizing.symm ▸ hfile
    record := hrecord
    stored := hstored.symm ▸ S.stored
    played := hplayed }
  next := hnext
  sizing := hsizing

theorem setNode (x : NodeId) (h : n.Stamped w.rest.next P) : Stamping P w (w.setNode x n) := by
  refine S.of_cells rfl le_rfl rfl rfl (fun {y m} hm => ?_) (fun {y m} hm => ?_)
    (fun {y r} hr => ?_) S.played
  · rw [World.cell_setNode] at hm
    split at hm
    · cases hm
      exact h
    · exact S.node hm
  · rw [World.cell_setNode] at hm
    split at hm <;> exact S.file hm
  · rw [World.cell_setNode] at hr
    split at hr <;> exact S.record hr

theorem eraseNode (x : NodeId) : Stamping P w (w.eraseNode x) := by
  refine S.of_cells rfl le_rfl rfl rfl (fun {y m} hm => ?_) (fun {y m} hm => ?_)
    (fun {y r} hr => ?_) S.played
  · rw [World.cell_eraseNode] at hm
    split at hm
    · cases hm
    · exact S.node hm
  · rw [World.cell_eraseNode] at hm
    split at hm <;> exact S.file hm
  · rw [World.cell_eraseNode] at hr
    split at hr <;> exact S.record hr

theorem modifyNode (x : NodeId) {f : SSTNode → SSTNode}
    (h : ∀ n, n.Stamped w.rest.next P → (f n).Stamped w.rest.next P) :
    Stamping P w (w.modifyNode x f) := by
  cases hx : w.cache.lookup x with
  | none =>
    rw [World.modifyNode, hx]
    exact S.stamping
  | some n =>
    rw [World.modifyNode, hx]
    exact S.setNode x (h n (S.node (x := x) hx))

/-- A file is written. -/
theorem renamed (h : n.Stamped w.rest.next P) (hp : n.Pressed w.rest.sizing) :
    Stamping P w (w.renamed n) := by
  refine S.of_cells rfl le_rfl rfl rfl (fun {y m} hm => ?_) (fun {y m} hm => ?_)
    (fun {y r} hr => ?_) fun dir => (S.played dir).renamed n
  · rw [World.cell_renamed] at hm
    split at hm <;> exact S.node hm
  · rw [World.cell_renamed] at hm
    split at hm
    · cases hm
      exact ⟨h, hp⟩
    · exact S.file hm
  · rw [World.cell_renamed] at hr
    split at hr <;> exact S.record hr

theorem takeId : Stamping P w w.takeId :=
  S.of_cells rfl (Nat.le_succ _) rfl rfl (fun hx => (S.node hx).mono (Nat.le_succ _))
    (fun hx => ⟨(S.file hx).1.mono (Nat.le_succ _), (S.file hx).2⟩)
    (fun hx => ⟨(S.record hx).1, Nat.lt_succ_of_lt (S.record hx).2⟩) S.played

theorem splitting (x : NodeId) (path : List NodeId) : Stamping P w (w.splitting x path) :=
  S.of_cells rfl le_rfl rfl rfl S.node S.file S.record S.played

theorem registerNode {x : NodeId} (hx : x < w.rest.next) (level : Nat) (path : FilePath) :
    Stamping P w (w.registerNode x level path) := by
  refine S.of_cells rfl le_rfl rfl rfl (fun {y m} hm => ?_) (fun {y m} hm => ?_)
    (fun {y r} hr => ?_) S.played
  · rw [World.cell_registerNode] at hm
    split at hm <;> exact S.node hm
  · rw [World.cell_registerNode] at hm
    split at hm <;> exact S.file hm
  · rw [World.cell_registerNode] at hr
    split at hr
    · rename_i hyx
      cases hr
      exact ⟨hyx.symm, hyx ▸ hx⟩
    · exact S.record hr

theorem invalidateNode (x : NodeId) : Stamping P w (w.invalidateNode x) := by
  have hrest := World.rest_invalidateNode w x
  refine S.of_cells (by rw [hrest]) (by rw [hrest]) (by rw [hrest]) (by rw [hrest])
    (fun {y m} hm => ?_) (fun {y m} hm => ?_)
    (fun {y r} hr => ?_) S.played
  · rw [World.cell_invalidateNode] at hm
    rw [hrest]
    split at hm <;> exact S.node hm
  · rw [World.cell_invalidateNode] at hm
    rw [hrest]
    split at hm <;> exact S.file hm
  · rw [World.cell_invalidateNode] at hr
    rw [hrest]
    split at hr
    · obtain ⟨r', hr', rfl⟩ := Option.map_eq_some_iff.mp hr
      exact ⟨(S.record hr').1, (S.record hr').2⟩
    · exact S.record hr

theorem setRoot {x : NodeId} (hx : x < w.rest.next) : Stamping P w (w.setRoot x) :=
  ⟨⟨hx, S.node, S.file, S.record, S.stored, S.played⟩, le_rfl, rfl⟩

/-- The manifest is written. -/
theorem saved : Stamping P w w.saved := by
  refine ⟨⟨S.root, S.node, S.file, S.record, fun {m} hm => ?_, fun dir => (S.played dir).saved⟩,
    le_rfl, rfl⟩
  obtain rfl := Option.some.inj hm
  exact ⟨⟨fun {x _} hr => (S.record (x := x) hr).1, Nat.one_le_of_lt S.root⟩,
    fun {x _} hr => (S.record (x := x) hr).2⟩

/-- `gc` drops a record and removes its file. -/
theorem collected (x : NodeId) (r : NodeMeta) : Stamping P w (w.collected x r) := by
  refine S.of_cells rfl le_rfl rfl rfl (fun {y m} hm => S.node (x := y) hm) (fun {y m} hm => ?_)
    (fun {y r'} hr => ?_) fun dir => (S.played dir).collected x r
  · have hm : (w.disk.node.erase r.filePath.nodeId).lookup y = some m := hm
    rw [lookup_erase] at hm
    split at hm
    · cases hm
    · exact S.file (x := y) hm
  · have hr : (w.manifest.nodes.erase x).lookup y = some r' := hr
    rw [lookup_erase] at hr
    split at hr
    · cases hr
    · exact S.record (x := y) hr

end World.Stamped

/-! ## The store -/

section Store

variable (S : w.Stamped P)

include S

theorem stamps_op (counts : Stop → Bool) :
    Stamps P (Act.op counts : M Unit) w fun _ u => u = w := .op counts S.stamping S.stamping

theorem stamps_nextNodeId : Stamps P nextNodeId w fun id u =>
    w.rest.next < u.rest.next ∧ id < u.rest.next :=
  .world_bind <| .update_bind S.takeId <| .pure S.takeId.stamped.stamping
    ⟨Nat.lt_succ_self _, Nat.lt_succ_self _⟩

theorem stamps_save : Stamps P save w fun _ _ => True :=
  .bind (stamps_op S _) fun _ u _ hu => by
    subst hu
    exact .update S.saved trivial

end Store

theorem stamps_gcLoop : ∀ (ids : List NodeId) {w : World}, w.Stamped P →
    Stamps P (gcLoop ids) w fun _ _ => True
  | [], _, S => .pure S.stamping trivial
  | id :: ids, w, S => by
    unfold gcLoop
    refine .world_bind ?_
    split
    · rename_i r _
      split
      · refine .bind (stamps_op S _) fun _ u _ hu => ?_
        subst hu
        exact .update_bind (S.collected id r) (stamps_gcLoop ids (S.collected id r).stamped)
      · exact stamps_gcLoop ids S
    · exact stamps_gcLoop ids S

/-- The end of a restructuring. -/
theorem stamps_commit (S : w.Stamped P) : Stamps P (save >>= fun _ => gc) w fun _ _ => True :=
  .bind (stamps_save S) fun _ _ h _ => .world_bind (stamps_gcLoop _ h.stamped)

section Nodes

variable (S : w.Stamped P)

include S

theorem stamps_writeFile (h : n.Stamped w.rest.next P) (hp : n.Pressed w.rest.sizing) :
    Stamps P n.writeFile w fun _ _ => True :=
  .bind (stamps_op S _) fun _ u _ hu => by
    subst hu
    exact .update_bind (S.renamed h hp) (.pure (S.renamed h hp).stamped.stamping trivial)

theorem stamps_readFile (path : FilePath) (entries : Bool) :
    Stamps P (readFile path entries) w fun n u => u = w ∧
      ∃ k, (w.cell path.nodeId).file = some k ∧ n = { k with
        filePath := path, buffer := if entries then k.buffer else [], entriesLoaded := entries } :=
  .bind (stamps_op S _) fun _ u _ hu => by
    subst hu
    refine .world_bind ?_
    split
    · exact .fail _ S.stamping
    · rename_i k hk
      exact .pure S.stamping ⟨rfl, k, hk, rfl⟩

theorem stamps_loadEntries (h : n.Stamped w.rest.next P) :
    Stamps P n.loadEntries w fun m u => u = w ∧ m.Stamped w.rest.next P ∧
      (n.entriesLoaded = false → ∃ k, (w.cell n.filePath.nodeId).file = some k ∧
        m = { n with buffer := k.buffer, entriesLoaded := true }) := by
  unfold SSTNode.loadEntries
  split
  · rename_i hl
    exact .pure S.stamping ⟨rfl, h, fun hl' => by rw [hl] at hl'; cases hl'⟩
  · refine .bind (stamps_readFile S n.filePath true) fun full u _ hu => ?_
    obtain ⟨rfl, k, hk, rfl⟩ := hu
    exact .pure S.stamping ⟨rfl, ⟨h.id, h.level, (S.file hk).1.entries, h.range⟩, fun _ =>
      ⟨k, hk, rfl⟩⟩

theorem stamps_create {id level : Nat} {es : List Entry} {cs : List NodeId}
    (hid : id < w.rest.next) (hl : level < w.rest.next) (h : ∀ e ∈ es, P e) :
    Stamps P (SSTNode.create id level es cs) w fun n u =>
      n.Stamped u.rest.next P ∧ n.level = level := by
  have hb := SSTNode.Stamped.build hid hl h w.sizing cs
  refine .world_bind <| .bind (stamps_writeFile S hb (SSTNode.pressed_build ..)) fun _ u hu _ => ?_
  exact .pure hu.stamped.stamping ⟨(hb.mono hu.next).thin rfl rfl (fun _ he => he) hb.range, rfl⟩

theorem stamps_flushToDisk (h : n.Stamped w.rest.next P) :
    Stamps P n.flushToDisk w fun m u => m.Stamped u.rest.next P := by
  have hp := h.prepare w.sizing
  refine .world_bind <| .bind (stamps_writeFile S hp (SSTNode.pressed_prepare ..))
    fun _ u hu _ => ?_
  exact .pure hu.stamped.stamping ((hp.mono hu.next).thin rfl rfl (fun _ he => he) hp.range)

/-- What is not in the cache comes from a file. -/
theorem stamps_getNode_or (id : NodeId) :
    Stamps P (getNode id) w fun n u => n.Stamped u.rest.next P ∧
      (u = w ∧ (w.cell id).node = some n ∨ (w.cell id).node = none ∧ n.Pressed w.rest.sizing) := by
  refine .world_bind ?_
  split
  · rename_i n hn
    exact .pure S.stamping ⟨S.node (x := id) hn, .inl ⟨rfl, hn⟩⟩
  · rename_i hnone
    refine .world_bind ?_
    split
    · exact .fail _ S.stamping
    · rename_i path _
      refine .bind (stamps_readFile S path false) fun n u _ hu => ?_
      obtain ⟨rfl, k, hk, rfl⟩ := hu
      obtain ⟨hstamp, hpress⟩ := S.file hk
      refine .bind (stamps_loadEntries S (hstamp.thin rfl rfl (fun _ he => nomatch he)
        hstamp.range)) fun n v _ hv => ?_
      obtain ⟨rfl, hn, hload⟩ := hv
      obtain ⟨k', hk', rfl⟩ := hload rfl
      obtain rfl : k = k' := Option.some.inj (hk.symm.trans hk')
      exact .update_bind (S.setNode id hn)
        (.pure (S.setNode id hn).stamped.stamping ⟨hn, .inr ⟨hnone, hpress.unique, hpress.bloom⟩⟩)

theorem stamps_getNode (id : NodeId) :
    Stamps P (getNode id) w fun n u => n.Stamped u.rest.next P :=
  (stamps_getNode_or S id).mono (fun _ h => h) (fun _ h => h) fun _ _ _ h => h.1

/-- `flush_to_disk` on a cached node. -/
theorem stamps_flushNode (id : NodeId) : Stamps P (flushNode id) w fun _ _ => True := by
  have h := S.modifyNode id (f := (·.prepare w.sizing)) fun n hn => hn.prepare _
  refine .world_bind <| .update_bind h <| .bind (stamps_getNode_or h.stamped id) fun n u hu hn => ?_
  obtain ⟨hn, hor⟩ := hn
  have hp : n.Pressed u.rest.sizing := by
    rw [hu.sizing, h.sizing]
    rcases hor with ⟨-, hor⟩ | ⟨-, hor⟩
    · rw [World.cell_modifyNode, if_pos rfl] at hor
      obtain ⟨k, -, rfl⟩ := Option.map_eq_some_iff.mp hor
      exact SSTNode.pressed_prepare _ k
    · exact h.sizing ▸ hor
  refine .bind (stamps_writeFile hu.stamped hn hp) fun path v hv _ => ?_
  exact .update (hv.stamped.modifyNode id fun k hk =>
    hk.thin rfl rfl (fun _ he => he) hk.range) trivial

theorem stamps_registerCached (id : NodeId) : Stamps P (registerCached id) w fun _ _ => True :=
  .bind (stamps_getNode S id) fun n _ hu hn =>
    .update (hu.stamped.registerNode hn.id n.level n.filePath) trivial

theorem stamps_spanKeyRange (n : SSTNode) :
    Stamps P (spanKeyRange n) w fun r _ => r.Marked P :=
  .bind (stamps_getNode S _) fun _ _ hu hfront =>
    .bind (stamps_getNode hu.stamped _) fun _ _ hv hback =>
      .pure hv.stamped.stamping ⟨hfront.range.minKey, hback.range.maxKey⟩

end Nodes

theorem fetches_stamping (P : Entry → Prop) : Fetches (World.Stamped P) (Stamping P) where
  refl := World.Stamped.stamping
  next h := h.stamped
  get id _ S := (stamps_getNode S id).mono (fun _ h => h) (fun _ h => h) fun _ _ _ _ => trivial

/-! ## Splits -/

/-- The new root is higher than a node that was there before it got its id. -/
theorem stamps_growRoot (S : w.Stamped P) {level : Nat} (hl : level ≤ w.rest.next)
    (l r : NodeId) : Stamps P (growRoot level l r) w fun _ _ => True := by
  unfold growRoot
  refine .bind (stamps_nextNodeId S) fun id u₁ h₁ hid => ?_
  refine .bind (stamps_create h₁.stamped hid.2 (lt_of_le_of_lt hl hid.1) fun _ he => nomatch he)
    fun n u₂ h₂ hn => ?_
  refine .bind (stamps_spanKeyRange h₂.stamped n) fun range u₃ h₃ hr => ?_
  have hn₃ := hn.1.mono h₃.next
  refine .bind (stamps_flushToDisk h₃.stamped (n := { n with keyRange := range })
    (hn₃.thin rfl rfl (fun _ he => he) hr)) fun m u₄ h₄ hm => ?_
  have hid₄ : id < u₄.rest.next := lt_of_lt_of_le hid.2 (h₂.trans (h₃.trans h₄)).next
  have h₅ := h₄.stamped.registerNode hid₄ level m.filePath
  have h₆ := h₅.stamped.setRoot (x := id) hid₄
  exact .update_bind h₅ (.update_bind h₆ (.update (h₆.stamped.setNode id hm) trivial))

/-- A cached node is written and recorded. -/
theorem stamps_rewrite (S : w.Stamped P) (id : NodeId) :
    Stamps P (flushNode id >>= fun _ => registerCached id) w fun _ _ => True :=
  .bind (stamps_flushNode S id) fun _ _ hu _ => stamps_registerCached hu.stamped id

theorem stamps_finishParent (S : w.Stamped P) (id : NodeId) :
    Stamps P (finishParent id) w fun _ _ => True := by
  refine .bind (stamps_getNode S id) fun n u hu _ => ?_
  split
  · refine .bind (stamps_spanKeyRange hu.stamped n) fun range v hv hr => ?_
    have h := hv.stamped.modifyNode id (f := fun p => { p with keyRange := range })
      fun k hk => hk.thin rfl rfl (fun _ he => he) hr
    exact .update_bind h (stamps_rewrite h.stamped id)
  · exact stamps_rewrite hu.stamped id

theorem stamps_insertChild : ∀ (fuel : Nat) (p x l r : NodeId) {w : World}, w.Stamped P →
    Stamps P (insertChild fuel p x l r) w fun _ _ => True
  | 0, _, _, _, _, _, S => .fail _ S.stamping
  | fuel + 1, p, x, l, r, w, S => by
    unfold insertChild
    refine .bind (stamps_getNode S p) fun parent u₀ h₀ hp => ?_
    split
    · have h := h₀.stamped.modifyNode p (f := fun p =>
        { p with childIds := replaceChild x l r p.childIds })
        fun k hk => hk.thin rfl rfl (fun _ he => he) hk.range
      exact .update_bind h (stamps_finishParent h.stamped p)
    split
    · exact stamps_finishParent h₀.stamped p
    refine .bind (stamps_getNode h₀.stamped _) fun _ u₁ h₁ _ => ?_
    refine .bind (stamps_nextNodeId h₁.stamped) fun lid u₂ h₂ hlid => ?_
    refine .bind (stamps_nextNodeId h₂.stamped) fun rid u₃ h₃ hrid => ?_
    have hp₃ := hp.mono (h₁.trans (h₂.trans h₃)).next
    refine .bind (stamps_create h₃.stamped (lt_of_lt_of_le hlid.2 h₃.next) hp₃.level
      fun e he => hp.entries e (List.mem_of_mem_filter he)) fun ln u₄ h₄ hln => ?_
    refine .bind (stamps_create h₄.stamped (lt_of_lt_of_le hrid.2 h₄.next)
      (lt_of_lt_of_le hp₃.level h₄.next)
      fun e he => hp.entries e (List.mem_of_mem_filter he)) fun rn u₅ h₅ hrn => ?_
    refine .bind (stamps_spanKeyRange h₅.stamped _) fun lrange u₆ h₆ hlr => ?_
    refine .bind (stamps_spanKeyRange h₆.stamped _) fun rrange u₇ h₇ hrr => ?_
    refine .bind (stamps_flushToDisk h₇.stamped ((hln.1.mono (h₅.trans (h₆.trans h₇)).next).thin
      rfl rfl (fun _ he => he) hlr)) fun ln u₈ h₈ hln => ?_
    refine .bind (stamps_flushToDisk h₈.stamped ((hrn.1.mono (h₆.trans (h₇.trans h₈)).next).thin
      rfl rfl (fun _ he => he) hrr)) fun rn u₉ h₉ hrn => ?_
    refine .bind ((fetches_stamping P).pathTo _ h₉.stamped) fun path u h _ => ?_
    have h₃' := h₄.trans (h₅.trans (h₆.trans (h₇.trans (h₈.trans (h₉.trans h)))))
    -- the records and the cache
    have g₁ := h.stamped.invalidateNode parent.id
    have g₂ := g₁.stamped.registerNode (x := lid) (lt_of_lt_of_le hlid.2
      (h₃.trans (h₃'.trans g₁)).next) parent.level ln.filePath
    have g₃ := g₂.stamped.registerNode (x := rid) (lt_of_lt_of_le hrid.2
      (h₃'.trans (g₁.trans g₂)).next) parent.level rn.filePath
    have g₄ := g₃.stamped.setNode lid
      (hln.mono (h₉.trans (h.trans (g₁.trans (g₂.trans g₃)))).next)
    have g₅ := g₄.stamped.setNode rid
      (hrn.mono (h.trans (g₁.trans (g₂.trans (g₃.trans g₄)))).next)
    have g₆ := g₅.stamped.eraseNode parent.id
    refine .update_bind g₁ (.update_bind g₂ (.update_bind g₃ ?_))
    refine .update_bind g₄ (.update_bind g₅ (.update_bind g₆ ?_))
    have hlevel : parent.level < (World.rest _).next := lt_of_lt_of_le hp₃.level
      (h₃'.trans (g₁.trans (g₂.trans (g₃.trans (g₄.trans (g₅.trans g₆)))))).next
    split
    · exact .bind (stamps_growRoot g₆.stamped hlevel lid rid) fun _ _ hv _ =>
        stamps_commit hv.stamped
    · exact .bind (stamps_insertChild fuel _ _ _ _ g₆.stamped) fun _ _ hv _ =>
        stamps_commit hv.stamped

theorem stamps_splitLeaf (S : w.Stamped P) (x : NodeId) (path : List NodeId) :
    Stamps P (splitLeaf x path) w fun _ _ => True := by
  unfold splitLeaf
  refine .bind (stamps_getNode S x) fun _ u₁ h₁ _ => ?_
  have h₂ := h₁.stamped.splitting x path
  have h₃ := h₂.stamped.modifyNode x (f := fun leaf =>
    { leaf with buffer := stableSort leaf.buffer })
    fun k hk => hk.thin rfl rfl (fun _ he => mem_stableSort.mp he) hk.range
  refine .update_bind h₂ (.update_bind h₃ ?_)
  refine .bind (stamps_getNode h₃.stamped x) fun leaf u₄ h₄ hleaf => ?_
  refine .bind (stamps_nextNodeId h₄.stamped) fun lid u₅ h₅ hlid => ?_
  refine .bind (stamps_nextNodeId h₅.stamped) fun rid u₆ h₆ hrid => ?_
  have hpos : 0 < u₆.rest.next := lt_of_le_of_lt (Nat.zero_le _) hrid.2
  refine .bind (stamps_create h₆.stamped (lt_of_lt_of_le hlid.2 h₆.next) hpos
    fun e he => hleaf.entries e (List.mem_of_mem_take he)) fun ln u₇ h₇ hln => ?_
  refine .bind (stamps_create h₇.stamped (lt_of_lt_of_le hrid.2 h₇.next)
    (lt_of_lt_of_le hpos h₇.next)
    fun e he => hleaf.entries e (List.mem_of_mem_drop he)) fun rn u h hrn => ?_
  have g₁ := h.stamped.registerNode (x := lid) (lt_of_lt_of_le hlid.2
    (h₆.trans (h₇.trans h)).next) 0 ln.filePath
  have g₂ := g₁.stamped.registerNode (x := rid) (lt_of_lt_of_le hrid.2
    (h₇.trans (h.trans g₁)).next) 0 rn.filePath
  have g₃ := g₂.stamped.invalidateNode x
  have g₄ := g₃.stamped.setNode lid (hln.1.mono (h.trans (g₁.trans (g₂.trans g₃))).next)
  have g₅ := g₄.stamped.setNode rid (hrn.1.mono (g₁.trans (g₂.trans (g₃.trans g₄))).next)
  have g₆ := g₅.stamped.eraseNode x
  refine .update_bind g₁ (.update_bind g₂ (.update_bind g₃ ?_))
  refine .update_bind g₄ (.update_bind g₅ (.update_bind g₆ ?_))
  split
  · have hlevel := lt_of_lt_of_le hpos
      (h₇.trans (h.trans (g₁.trans (g₂.trans (g₃.trans (g₄.trans (g₅.trans g₆))))))).next
    exact .bind (stamps_growRoot g₆.stamped hlevel lid rid) fun _ _ hv _ =>
      stamps_commit hv.stamped
  · exact .world_bind <| .bind (stamps_insertChild _ _ _ _ _ g₆.stamped) fun _ _ hv _ =>
      stamps_commit hv.stamped

/-! ## Flushes -/

theorem stamps_localFlushLoop : ∀ (cs : List (SSTNode × List Entry)) {w : World}, w.Stamped P →
    (∀ c ∈ cs, c.1.Stamped w.rest.next P ∧ ∀ e ∈ c.2, P e) →
    Stamps P (localFlushLoop cs) w fun r u => ∀ c ∈ r.1, c.Stamped u.rest.next P
  | [], _, S, _ => .pure S.stamping fun _ h => nomatch h
  | (child, part) :: cs, w, S, h => by
    obtain ⟨⟨hchild, hpart⟩, hcs⟩ := List.forall_mem_cons.mp h
    have hlater : ∀ {u : World}, Stamping P w u →
        ∀ c ∈ cs, c.1.Stamped u.rest.next P ∧ ∀ e ∈ c.2, P e := fun hu c hc =>
      ⟨(hcs c hc).1.mono hu.next, (hcs c hc).2⟩
    unfold localFlushLoop
    split
    · exact .bind (stamps_localFlushLoop cs S hcs) fun r u hu hr =>
        .pure hu.stamped.stamping (List.forall_mem_cons.mpr ⟨hchild.mono hu.next, hr⟩)
    · refine .bind (stamps_loadEntries S hchild) fun c u _ hu => ?_
      obtain ⟨rfl, hc, -⟩ := hu
      refine .bind (stamps_nextNodeId S) fun id u₁ h₁ hid => ?_
      refine .bind (stamps_create h₁.stamped hid.2 (hc.mono h₁.next).level
        (SSTNode.From.merge hpart hc.entries)) fun n u₂ h₂ hn => ?_
      have h₃ := h₂.stamped.registerNode (lt_of_lt_of_le hid.2 h₂.next) c.level n.filePath
      have h₄ := h₃.stamped.invalidateNode c.id
      refine .update_bind h₃ (.update_bind h₄ ?_)
      refine .bind (stamps_localFlushLoop cs h₄.stamped
        (hlater (h₁.trans (h₂.trans (h₃.trans h₄))))) fun r v hv hr => ?_
      exact .pure hv.stamped.stamping (List.forall_mem_cons.mpr
        ⟨hn.1.mono (h₃.trans (h₄.trans hv)).next, hr⟩)

theorem stamps_localFlush (S : w.Stamped P) (p : NodeId) {cs : List SSTNode}
    (h : ∀ c ∈ cs, c.Stamped w.rest.next P) :
    Stamps P (localFlush p cs) w fun r u => ∀ c ∈ r.1, c.Stamped u.rest.next P := by
  have h₁ := S.modifyNode p (f := fun p => { p with buffer := stableSort p.buffer })
    fun k hk => hk.thin rfl rfl (fun _ he => mem_stableSort.mp he) hk.range
  refine .update_bind h₁ <| .bind (stamps_getNode h₁.stamped p) fun parent u hu hp =>
    stamps_localFlushLoop _ hu.stamped fun c hc => ?_
  obtain ⟨hmem, hpart⟩ := List.of_mem_zip (a := c.1) (b := c.2) hc
  exact ⟨(h c.1 hmem).mono (h₁.trans hu).next, fun e he =>
    hp.entries e (mem_partitionEntries hpart he)⟩

theorem stamps_loadChildren : ∀ (ids : List NodeId) {w : World}, w.Stamped P →
    Stamps P (loadChildren ids) w fun cs u => ∀ c ∈ cs, c.Stamped u.rest.next P
  | [], _, S => .pure S.stamping fun _ h => nomatch h
  | id :: ids, w, S => by
    unfold loadChildren
    refine .bind (stamps_getNode S id) fun child u hu hc => ?_
    refine .bind (stamps_loadEntries hu.stamped hc) fun n v _ hv => ?_
    obtain ⟨rfl, hn, -⟩ := hv
    have hrest : ∀ {v' : World}, Stamping P v v' → Stamps P
        (loadChildren ids >>= fun rest => pure (n :: rest)) v' fun cs u =>
          ∀ c ∈ cs, c.Stamped u.rest.next P := fun hv' =>
      .bind (stamps_loadChildren ids hv'.stamped) fun rest u' hu' hr =>
        .pure hu'.stamped.stamping (List.forall_mem_cons.mpr ⟨hn.mono (hv'.trans hu').next, hr⟩)
    split
    · exact .update_bind (hu.stamped.setNode id hn) (hrest (hu.stamped.setNode id hn))
    · exact hrest hu.stamped.stamping

theorem stamps_refreshChild (S : w.Stamped P) {c : SSTNode} (h : c.Stamped w.rest.next P) :
    Stamps P (refreshChild c) w fun m u => m.Stamped u.rest.next P := by
  unfold refreshChild
  split
  · refine .bind (stamps_spanKeyRange S c) fun span u hu hspan => ?_
    have hc := h.mono hu.next
    refine .bind (stamps_flushToDisk hu.stamped (n := { c with keyRange := _ })
      (hc.thin rfl rfl (fun _ he => he) ⟨?_, ?_⟩)) fun m v hv hm => ?_
    · dsimp only
      split
      · exact hspan.minKey
      · exact hc.range.minKey
    · dsimp only
      split
      · exact hspan.maxKey
      · exact hc.range.maxKey
    · have h' := hv.stamped.registerNode hm.id m.level m.filePath
      exact .update_bind h' (.pure h'.stamped.stamping (hm.mono h'.next))
  · exact .pure S.stamping h

theorem stamps_refreshCache : ∀ (cs : List SSTNode) (olds : List NodeId) {w : World},
    w.Stamped P → (∀ c ∈ cs, c.Stamped w.rest.next P) →
    Stamps P (refreshCache cs olds) w fun _ _ => True
  | [], _, _, S, _ => .pure S.stamping trivial
  | c :: cs, olds, w, S, h => by
    obtain ⟨hc, hcs⟩ := List.forall_mem_cons.mp h
    have hrest : ∀ {w' : World}, Stamping P w w' → Stamps P (refreshChild c >>= fun c =>
        setNode c.id c >>= fun _ => refreshCache cs olds.tail) w' fun _ _ => True := fun h' =>
      .bind (stamps_refreshChild h'.stamped (hc.mono h'.next)) fun m u hu hm =>
        have hs := hu.stamped.setNode m.id hm
        .update_bind hs (stamps_refreshCache cs _ hs.stamped fun c hc =>
          (hcs c hc).mono (h'.trans (hu.trans hs)).next)
    unfold refreshCache
    cases olds with
    | nil => exact hrest S.stamping
    | cons old olds => exact .update_bind (S.eraseNode old) (hrest (S.eraseNode old))

theorem stamps_pushDown (S : w.Stamped P) (p : NodeId) :
    Stamps P (pushDown p) w fun _ _ => True := by
  have hclear : ∀ {v : World}, v.Stamped P →
      Stamping P v (v.modifyNode p fun p => { p with buffer := [] }) := fun Sv =>
    Sv.modifyNode p fun k hk => hk.thin rfl rfl (fun _ he => nomatch he) hk.range
  unfold pushDown
  refine .bind (stamps_getNode S p) fun parent u₁ h₁ _ => ?_
  refine .bind (stamps_loadChildren _ h₁.stamped) fun cs u₂ h₂ hcs => ?_
  refine .bind (stamps_localFlush h₂.stamped p hcs) fun r u₃ h₃ hr => ?_
  have h₄ := h₃.stamped.modifyNode p (f := fun p => { p with
    childIds := List.zipWith (fun old new => if old ∈ r.2.oldChildIds then new else old)
      p.childIds r.2.newChildIds }) fun k hk => hk.thin rfl rfl (fun _ he => he) hk.range
  refine .update_bind h₄ <| .bind (stamps_refreshCache _ _ h₄.stamped fun c hc =>
    (hr c hc).mono h₄.next) fun _ u₅ h₅ _ => ?_
  have h₆ := hclear h₅.stamped
  refine .update_bind h₆ <| .bind (stamps_getNode h₆.stamped p) fun n u₇ h₇ _ => ?_
  have hend : ∀ {v : World}, v.Stamped P → Stamps P (flushNode p >>= fun _ =>
      registerCached p >>= fun _ => save >>= fun _ => gc >>= fun _ => pure r.2.newChildIds) v
        fun _ _ => True := fun Sv =>
    .bind (stamps_flushNode Sv p) fun _ _ hu _ => .bind (stamps_registerCached hu.stamped p)
      fun _ _ hu _ => .bind (stamps_save hu.stamped) fun _ _ hu _ =>
      .bind (.world_bind (stamps_gcLoop _ hu.stamped)) fun _ _ hu _ =>
      .pure hu.stamped.stamping trivial
  split
  · refine .bind (stamps_spanKeyRange h₇.stamped n) fun range v hv hrange => ?_
    have h₈ := hv.stamped.modifyNode p (f := fun p => { p with keyRange := range })
      fun k hk => hk.thin rfl rfl (fun _ he => he) hrange
    exact .update_bind h₈ (hend h₈.stamped)
  · exact hend h₇.stamped

theorem stamps_checkChildren {flushChild : NodeId → M Unit}
    (h : ∀ id {w : World}, w.Stamped P → Stamps P (flushChild id) w fun _ _ => True) (p : NodeId) :
    ∀ (ids : List NodeId) {w : World}, w.Stamped P →
      Stamps P (checkChildren flushChild p ids) w fun _ _ => True
  | [], _, S => .pure S.stamping trivial
  | id :: ids, w, S => by
    refine .world_bind ?_
    split
    · split
      · split
        · exact .bind (stamps_splitLeaf S _ _) fun _ _ hu _ =>
            stamps_checkChildren h p ids hu.stamped
        · split
          · exact .bind (h id S) fun _ _ hu _ => stamps_checkChildren h p ids hu.stamped
          · exact stamps_checkChildren h p ids S
      · exact stamps_checkChildren h p ids S
    · exact stamps_checkChildren h p ids S

theorem stamps_doFlush : ∀ (fuel : Nat) (p : NodeId) {w : World}, w.Stamped P →
    Stamps P (doFlush fuel p) w fun _ _ => True
  | 0, _, _, S => .fail _ S.stamping
  | fuel + 1, p, _, S => .bind (stamps_pushDown S p) fun ids _ hu _ =>
      stamps_checkChildren (stamps_doFlush fuel) p ids hu.stamped

/-! ## The operations -/

section Operations

variable (S : w.Stamped P) {es : List Entry} (h : ∀ e ∈ es, P e)

include S

theorem stamps_getFromTree (key : Bytes) : Stamps P (getFromTree key) w fun _ _ => True :=
  (fetches_stamping P).getFromTree key S

include h

/-- Only here do entries come in. -/
theorem stamps_mergeIntoRoot : Stamps P (mergeIntoRoot es) w fun _ _ => True := by
  refine .world_bind <| .bind (stamps_getNode S _) fun _ u hu _ => ?_
  have h' := hu.stamped.modifyNode w.manifest.rootId (f := fun root =>
    { root with buffer := stableSort (root.buffer ++ es) }) fun k hk =>
      ⟨hk.id, hk.level, fun e he => ?_, hk.range⟩
  · exact .update_bind h' ((stamps_getNode h'.stamped _).mono (fun _ h => h) (fun _ h => h)
      fun _ _ _ _ => trivial)
  · exact (List.mem_append.mp (mem_stableSort.mp he)).elim (hk.entries e) (h e)

theorem stamps_flushPending : Stamps P (flushPending es) w fun _ _ => True := by
  refine .world_bind <| .bind (stamps_mergeIntoRoot S h) fun root u hu _ => ?_
  split
  · split
    · exact .bind ((fetches_stamping P).findPath _ hu.stamped) fun _ _ hv _ =>
        stamps_splitLeaf hv.stamped _ _
    · split
      · exact stamps_doFlush _ _ hu.stamped
      · exact .pure hu.stamped.stamping trivial
  · exact .pure hu.stamped.stamping trivial

theorem stamps_persistRoot : Stamps P (persistRoot es) w fun _ _ => True := by
  refine .world_bind <| .bind (stamps_mergeIntoRoot S h) fun root u hu _ => ?_
  split
  · refine .bind (stamps_flushNode hu.stamped _) fun _ u₁ h₁ _ => ?_
    refine .bind (stamps_getNode h₁.stamped _) fun n u₂ h₂ _ => ?_
    have hroot : w.manifest.rootId < u₂.rest.next :=
      lt_of_lt_of_le S.root (hu.trans (h₁.trans h₂)).next
    have h₃ := h₂.stamped.registerNode hroot n.level n.filePath
    exact .update_bind h₃ (stamps_save h₃.stamped)
  · exact .pure hu.stamped.stamping trivial

theorem stamps_destroyTree : Stamps P (destroyTree es) w fun _ _ => True := by
  refine .world_bind ?_
  split
  · exact stamps_persistRoot S h
  · exact .pure S.stamping trivial

end Operations

/-- **`ensure_root`.** -/
theorem stamps_ensureRoot (S : w.Stamped P) : Stamps P ensureRoot w fun _ _ => True := by
  refine .world_bind ?_
  dsimp only
  split
  · refine .world_bind ?_
    split
    · exact .fail _ S.stamping
    · rename_i path _
      refine .bind (stamps_readFile S path false) fun n u _ hu => ?_
      obtain ⟨rfl, k, hk, rfl⟩ := hu
      have hstamp := (S.file hk).1
      refine .bind (stamps_loadEntries S (hstamp.thin rfl rfl (fun _ he => nomatch he)
        hstamp.range)) fun n v _ hv => ?_
      obtain ⟨rfl, hn, -⟩ := hv
      exact .update (S.setNode _ hn) trivial
  · refine .bind (stamps_nextNodeId S) fun id u hu hid => ?_
    refine .bind (stamps_create hu.stamped hid.2 (lt_of_le_of_lt (Nat.zero_le _) hid.2)
      fun _ he => nomatch he) fun n v hv hn => ?_
    have hlt := lt_of_lt_of_le hid.2 hv.next
    have h₁ := hv.stamped.registerNode hlt 0 n.filePath
    have h₂ := h₁.stamped.setRoot (x := id) hlt
    refine .update_bind h₁ (.update_bind h₂ ?_)
    exact .bind (stamps_save h₂.stamped) fun _ _ hx _ =>
      .update (hx.stamped.setNode id (hn.1.mono (h₁.trans (h₂.trans hx)).next)) trivial

end GravTree
