import GravTree.Proof.Frost
import GravTree.Proof.Provenance

/-!
# Restructuring with nodes that are not loaded yet

Every function of the tree asks `get_node` for a node before it writes to it, so it returns
what it would return if everything was loaded. One lemma for each function says so, together
with what the function has loaded or written when it returns.
-/

namespace GravTree

/-- Whatever `x` returns when everything is loaded it returns with less loaded as well. -/
abbrev Melts {α : Type} (F : Frost) (x : M α) (A : Frost → α → Prop) : Prop :=
  ∀ w v, Thaws F w v → Act.Follows x w x v fun a w' v' =>
    ∃ G : Frost, G.Thinner F ∧ Thaws G w' v' ∧ A G a

variable {F : Frost} {α β : Type}

namespace Melts

variable {A : Frost → α → Prop} {B : Frost → β → Prop}

theorem pure {a : α} (h : A F a) : Melts F (Pure.pure a) A :=
  fun _ _ T => Act.Follows.pure ⟨F, .refl F, T, h⟩

theorem fail (e : Error) : Melts F (Act.fail e) A := fun _ _ _ => Act.Follows.fail e

theorem update {G : Frost} {A : Frost → Unit → Prop} {g : World → World} (hG : G.Thinner F)
    (h : ∀ {w v}, Thaws F w v → Thaws G (g w) (g v)) (hA : A G ()) :
    Melts F (Act.update g) A := fun _ _ T => Act.Follows.update ⟨G, hG, h T, hA⟩

theorem bind {x : M α} {f : α → M β} (hx : Melts F x A)
    (hf : ∀ G : Frost, G.Thinner F → ∀ a, A G a → Melts G (f a) B) : Melts F (x >>= f) B := by
  intro w v T
  refine Act.Follows.bind (hx w v T) fun a w' v' h => ?_
  obtain ⟨G, hG, TG, ha⟩ := h
  refine (hf G hG a ha w' v' TG).mono fun b w'' v'' h => ?_
  obtain ⟨H, hH, TH, hb⟩ := h
  exact ⟨H, hG.trans hH, TH, hb⟩

theorem op_bind {counts : Stop → Bool} {f : Unit → M β} (hf : Melts F (f ()) B) :
    Melts F (Act.op counts >>= f) B := fun _ _ T =>
  Act.Follows.bind (R := fun _ w' v' => Thaws F w' v') (Act.Follows.op counts T)
    fun _ w' v' T' => hf w' v' T'

theorem update_bind {G : Frost} {g : World → World} {f : Unit → M β} (hG : G.Thinner F)
    (h : ∀ {w v}, Thaws F w v → Thaws G (g w) (g v)) (hf : Melts G (f ()) B) :
    Melts F (Act.update g >>= f) B :=
  (update (A := fun H _ => H = G) hG h rfl).bind fun _ _ _ hH => hH ▸ hf

/-- What is read is the same in both worlds. -/
theorem read {γ : Type} {g : World → γ} {f : γ → M β} (hg : ∀ {w v}, Thaws F w v → g w = g v)
    (h : ∀ c, Melts F (f c) B) : Melts F (Act.world >>= fun w => f (g w)) B := fun w v T =>
  Act.Follows.world_bind (hg T ▸ h (g v) w v T)

end Melts

/-! ## The store -/

section Store

theorem melts_getNode (x : NodeId) :
    Melts F (getNode x) fun G n => G.Clear x ∧ n.Called x := by
  intro w v T a m h
  cases hs : v.seen x with
  | none =>
    obtain ⟨m', hm⟩ := getNode_unseen hs
    rw [hm] at h
    cases h
  | some n =>
    rw [getNode_seen hs] at h
    cases h
    obtain ⟨hn, hodd⟩ := T.called hs
    exact ⟨rfl, _, getNode_seen ((T.seen x).trans hs), F.load x, Frost.thinner_load F x,
      T.loading x, Frost.clear_load hodd, hn⟩

/-- A new identifier is not that of a node that is still to be loaded. -/
theorem melts_nextNodeId : Melts F nextNodeId fun G id => id ∉ G.cold := by
  intro w v T
  refine Act.Follows.world_bind ?_
  rw [T.manifest]
  exact Act.Follows.bind (Act.Follows.update T.takeId) fun _ _ _ T' => Act.Follows.pure
    ⟨F, .refl F, T', fun h => lt_irrefl _ (T.fresh h)⟩

theorem melts_registerNode {id : NodeId} (h : F.Clear id) (level : Nat) :
    Melts F (registerNode id level ⟨id⟩) fun _ _ => True :=
  .update (.refl F) (fun T => T.registerNode h level) trivial

theorem melts_setRoot {id : NodeId} (h : F.Clear id) : Melts F (setRoot id) fun _ _ => True :=
  .update (.refl F) (fun T => T.setRoot h.cold) trivial

theorem melts_setNode {id : NodeId} {n : SSTNode} (h : F.Clear id) (hn : n.Called id) :
    Melts F (setNode id n) fun _ _ => True :=
  .update (.refl F) (fun T => T.setNode h hn) trivial

theorem melts_modifyNode {id : NodeId} {f : SSTNode → SSTNode} (h : F.Clear id)
    (hf : ∀ n, n.Called id → (f n).Called id) : Melts F (modifyNode id f) fun _ _ => True :=
  .update (.refl F) (fun T => T.modifyNode h.cold hf) trivial

theorem melts_save : Melts F save fun _ _ => True :=
  .op_bind (.update (.refl F) (fun T => T.saved) trivial)

theorem melts_gcLoop : ∀ ids, Melts F (gcLoop ids) fun _ _ => True
  | [] => .pure trivial
  | id :: ids => by
    intro w v T
    refine Act.Follows.world_bind ?_
    rw [T.manifest]
    cases hr : v.manifest.nodes.lookup id with
    | none => exact melts_gcLoop ids w v T
    | some r =>
      dsimp only
      cases hv : r.valid with
      | true => exact melts_gcLoop ids w v T
      | false =>
        refine Act.Follows.bind (R := fun _ w' v' => w' = w ∧ v' = v) (Act.Follows.op _ ⟨rfl, rfl⟩)
          fun _ w' v' h => ?_
        obtain ⟨rfl, rfl⟩ := h
        exact Act.Follows.bind (Act.Follows.update (T.collected hr hv)) fun _ w' v' T' =>
          melts_gcLoop ids w' v' T'

theorem melts_gc : Melts F gc fun _ _ => True :=
  .read (g := fun w => w.manifest.nodes.keys) (fun T => by rw [T.manifest]) melts_gcLoop

theorem melts_writeFile {n : SSTNode} (h : n.id ∉ F.cold) :
    Melts F n.writeFile fun G path => path = ⟨n.id⟩ ∧ G.Clear n.id :=
  .op_bind (.update_bind (Frost.thinner_write F n.id) (fun T => T.renamed h)
    (.pure ⟨rfl, Frost.clear_write h⟩))

theorem melts_readFile (path : FilePath) (b : Bool) :
    Melts F (readFile path b) fun _ _ => True := by
  refine .op_bind ?_
  intro w v T
  refine Act.Follows.world_bind ?_
  rw [T.disk]
  split
  · exact Act.Follows.fail _
  · exact Act.Follows.pure ⟨F, .refl F, T, trivial⟩

theorem melts_loadEntries {n : SSTNode} {x : NodeId} (h : n.Called x) :
    Melts F n.loadEntries fun _ m => m.Called x := by
  unfold SSTNode.loadEntries
  split
  · exact .pure h
  · exact (melts_readFile _ _).bind fun _ _ _ _ => .pure ⟨h.id, h.path⟩

theorem melts_create {id : NodeId} (level : Nat) (es : List Entry) (cs : List NodeId)
    (h : id ∉ F.cold) :
    Melts F (SSTNode.create id level es cs) fun G n => G.Clear id ∧ n.Called id := by
  intro w v T
  refine Act.Follows.world_bind ?_
  rw [T.sizing]
  refine (?_ : Melts F _ _) w v T
  exact .bind (melts_writeFile h) fun _ _ _ hp => .pure ⟨hp.2, rfl, hp.1⟩

theorem melts_flushToDisk {n : SSTNode} {x : NodeId} (hn : n.Called x) (h : x ∉ F.cold) :
    Melts F n.flushToDisk fun G m => G.Clear x ∧ m.Called x := by
  obtain rfl := hn.id
  intro w v T
  refine Act.Follows.world_bind ?_
  rw [T.sizing]
  refine (?_ : Melts F _ _) w v T
  exact .bind (melts_writeFile h) fun _ _ _ hp => .pure ⟨hp.2, rfl, hp.1⟩

theorem melts_flushNode {id : NodeId} (h : F.Clear id) :
    Melts F (flushNode id) fun _ _ => True := by
  intro w v T
  refine Act.Follows.world_bind ?_
  rw [T.sizing]
  refine (?_ : Melts F _ _) w v T
  refine .bind (melts_modifyNode h fun _ hn => ⟨hn.id, hn.path⟩) fun _ _ _ _ =>
    .bind (melts_getNode id) fun _ _ n hn => ?_
  obtain ⟨hid, hn⟩ := hn
  obtain rfl := hn.id
  exact .bind (melts_writeFile hid.cold) fun _ _ _ hp =>
    melts_modifyNode hp.2 fun _ hm => ⟨hm.id, hp.1⟩

theorem melts_registerCached (id : NodeId) : Melts F (registerCached id) fun _ _ => True :=
  .bind (melts_getNode id) fun _ _ n hn => by
    rw [hn.2.id, hn.2.path]
    exact melts_registerNode hn.1 n.level

end Store

/-! ## Lookups -/

section Lookup

theorem melts_spanKeyRange (n : SSTNode) : Melts F (spanKeyRange n) fun _ _ => True :=
  .bind (melts_getNode _) fun _ _ _ _ => .bind (melts_getNode _) fun _ _ _ _ => .pure trivial

theorem melts_nextChild (key : Bytes) : ∀ {F : Frost} ids next,
    Melts F (nextChild key next ids) fun _ _ => True
  | _, [], _ => .pure trivial
  | _, id :: ids, next => .bind (melts_getNode id) fun _ _ _ _ => by
    split
    · exact melts_nextChild key ids id
    · exact .pure trivial

theorem melts_findPathFrom (key : Bytes) : ∀ {F : Frost} fuel cur,
    Melts F (findPathFrom key fuel cur) fun _ _ => True
  | _, 0, _ => .fail _
  | _, fuel + 1, cur => .bind (melts_getNode cur) fun _ _ _ _ => by
    split
    · exact .pure trivial
    · exact .bind (melts_nextChild key _ _) fun _ _ _ _ =>
        .bind (melts_findPathFrom key fuel _) fun _ _ _ _ => .pure trivial

theorem melts_findPath (key : Bytes) : Melts F (findPath key) fun _ _ => True := by
  intro w v T
  refine Act.Follows.world_bind ?_
  rw [T.height, T.manifest]
  exact melts_findPathFrom key _ _ w v T

theorem melts_entryOnPath (key : Bytes) : ∀ {F : Frost} path,
    Melts F (entryOnPath key path) fun _ _ => True
  | _, [] => .pure trivial
  | _, nid :: rest => .bind (melts_getNode nid) fun _ _ _ _ => by
    split
    · exact .pure trivial
    · exact melts_entryOnPath key rest

/-- **Reading.** -/
theorem melts_findEntry (key : Bytes) : Melts F (findEntry key) fun _ _ => True :=
  .bind (melts_findPath key) fun _ _ _ _ => melts_entryOnPath key _

theorem melts_firstPath {dfs : NodeId → M (Option (List NodeId))}
    (h : ∀ {F : Frost} id, Melts F (dfs id) fun _ _ => True) :
    ∀ {F : Frost} ids, Melts F (firstPath dfs ids) fun _ _ => True
  | _, [] => .pure trivial
  | _, id :: ids => .bind (h id) fun _ _ path _ => by
    cases path with
    | some path => exact .pure trivial
    | none => exact melts_firstPath h ids

theorem melts_dfs (target : NodeId) : ∀ {F : Frost} fuel id,
    Melts F (dfs target fuel id) fun _ _ => True
  | _, 0, _ => .fail _
  | _, fuel + 1, id => by
    unfold dfs
    split
    · exact .pure trivial
    · exact .bind (melts_getNode id) fun _ _ _ _ =>
        .bind (melts_firstPath (melts_dfs target fuel) _) fun _ _ _ _ => .pure trivial

theorem melts_pathTo (target : NodeId) : Melts F (pathTo target) fun _ _ => True := by
  intro w v T
  refine Act.Follows.world_bind ?_
  rw [T.height, T.manifest]
  refine (?_ : Melts F _ _) w v T
  exact .bind (melts_dfs target _ _) fun _ _ _ _ => .pure trivial

end Lookup

/-! ## Splits -/

section Split

theorem melts_growRoot (level l r : Nat) : Melts F (growRoot level l r) fun _ _ => True := by
  unfold growRoot
  refine .bind melts_nextNodeId fun _ _ id hid =>
    .bind (melts_create level _ _ hid) fun _ _ n hn =>
    .bind (melts_spanKeyRange n) fun _ h₁ _ _ => ?_
  refine .bind (melts_flushToDisk (n := { n with keyRange := _ }) ⟨hn.2.id, hn.2.path⟩
    (hn.1.mono h₁).cold) fun _ _ m hm => ?_
  rw [hm.2.path]
  exact .bind (melts_registerNode hm.1 _) fun _ h₂ _ _ =>
    .bind (melts_setRoot (hm.1.mono h₂)) fun _ h₃ _ _ =>
      melts_setNode ((hm.1.mono h₂).mono h₃) hm.2

theorem melts_finishParent (id : NodeId) : Melts F (finishParent id) fun _ _ => True := by
  refine .bind (melts_getNode id) fun _ _ n hn => ?_
  have hend : ∀ {G : Frost}, G.Clear id →
      Melts G (flushNode id >>= fun _ => registerCached id) fun _ _ => True := fun h =>
    .bind (melts_flushNode h) fun _ _ _ _ => melts_registerCached id
  split
  · exact .bind (melts_spanKeyRange n) fun _ h₁ _ _ =>
      .bind (melts_modifyNode (hn.1.mono h₁) fun _ hm => ⟨hm.id, hm.path⟩) fun _ h₂ _ _ =>
        hend ((hn.1.mono h₁).mono h₂)
  · exact hend hn.1

theorem melts_cutLeaf (x : NodeId) (path : List NodeId) :
    Melts F (cutLeaf x path) fun _ _ => True := by
  unfold cutLeaf
  refine .bind (melts_getNode x) fun _ _ _ hx => .update_bind (.refl _)
    (fun T => T.splitting x path) ?_
  refine .bind (melts_modifyNode hx.1 fun _ hn => ⟨hn.id, hn.path⟩) fun _ _ _ _ =>
    .bind (melts_getNode x) fun _ _ leaf hleaf => ?_
  refine .bind melts_nextNodeId fun _ h₁ l hl => .bind melts_nextNodeId fun _ h₂ r hr => ?_
  refine .bind (melts_create 0 _ _ fun h => hl (h₂.cold h)) fun _ h₃ ln hln => ?_
  refine .bind (melts_create 0 _ _ fun h => hr (h₃.cold h)) fun _ h₄ rn hrn => ?_
  rw [hln.2.path, hrn.2.path]
  -- the leaf and its halves are all in the cache or new, whatever was loaded on the way
  have hx : Frost.Clear _ x := (((hleaf.1.mono h₁).mono h₂).mono h₃).mono h₄
  have hl := hln.1.mono h₄
  refine .update_bind (.refl _) (fun T => T.registerNode hl 0) ?_
  refine .update_bind (.refl _) (fun T => T.registerNode hrn.1 0) ?_
  refine .update_bind (.refl _) (fun T => T.invalidateNode hx.cold) ?_
  refine .update_bind (.refl _) (fun T => T.setNode hl hln.2) ?_
  refine .update_bind (.refl _) (fun T => T.setNode hrn.1 hrn.2) ?_
  exact .update_bind (.refl _) (fun T => T.eraseNode hx.cold) (.pure trivial)

theorem melts_cutParent {parent : SSTNode} {p : NodeId} (hp : parent.Called p) (hF : F.Clear p)
    (x l r : NodeId) : Melts F (cutParent parent x l r) fun _ _ => True := by
  unfold cutParent
  obtain rfl := hp.id
  refine .bind (melts_getNode _) fun _ h₁ _ _ => .bind melts_nextNodeId fun _ h₂ a ha =>
    .bind melts_nextNodeId fun _ h₃ b hb => ?_
  refine .bind (melts_create parent.level _ _ fun h => ha (h₃.cold h)) fun _ h₄ na hna => ?_
  refine .bind (melts_create parent.level _ _ fun h => hb (h₄.cold h)) fun _ h₅ nb hnb => ?_
  refine .bind (melts_spanKeyRange na) fun _ h₆ _ _ =>
    .bind (melts_spanKeyRange nb) fun _ h₇ _ _ => ?_
  have ha : Frost.Clear _ a := ((hna.1.mono h₅).mono h₆).mono h₇
  have hb : Frost.Clear _ b := (hnb.1.mono h₆).mono h₇
  have hF : Frost.Clear _ parent.id :=
    ((((((hF.mono h₁).mono h₂).mono h₃).mono h₄).mono h₅).mono h₆).mono h₇
  refine .bind (melts_flushToDisk (n := { na with keyRange := _ }) ⟨hna.2.id, hna.2.path⟩ ha.cold)
    fun _ h₁ na hna => ?_
  refine .bind (melts_flushToDisk (n := { nb with keyRange := _ }) ⟨hnb.2.id, hnb.2.path⟩
    (hb.mono h₁).cold) fun _ h₂ nb hnb => .bind (melts_pathTo _) fun _ h₃ path _ => ?_
  have ha := (ha.mono h₁).mono h₂ |>.mono h₃
  have hb := (hb.mono h₁).mono h₂ |>.mono h₃
  have hF := (hF.mono h₁).mono h₂ |>.mono h₃
  rw [hna.2.path, hnb.2.path]
  refine .update_bind (.refl _) (fun T => T.invalidateNode hF.cold) ?_
  refine .update_bind (.refl _) (fun T => T.registerNode ha parent.level) ?_
  refine .update_bind (.refl _) (fun T => T.registerNode hb parent.level) ?_
  refine .update_bind (.refl _) (fun T => T.setNode ha hna.2) ?_
  refine .update_bind (.refl _) (fun T => T.setNode hb hnb.2) ?_
  exact .update_bind (.refl _) (fun T => T.eraseNode hF.cold) (.pure trivial)

theorem melts_commit : Melts F (save >>= fun _ => gc) fun _ _ => True :=
  .bind melts_save fun _ _ _ _ => melts_gc

/-- **`insert_child`.** -/
theorem melts_insertChild : ∀ {F : Frost} fuel p x l r,
    Melts F (insertChild fuel p x l r) fun _ _ => True
  | _, 0, _, _, _, _ => .fail _
  | _, fuel + 1, p, x, l, r => by
    rw [insertChild_succ]
    refine .bind (melts_getNode p) fun _ _ parent hp => ?_
    split
    · exact .bind (melts_modifyNode hp.1 fun _ hn => ⟨hn.id, hn.path⟩) fun _ _ _ _ =>
        melts_finishParent p
    · split
      · exact melts_finishParent p
      · refine .bind (melts_cutParent hp.2 hp.1 x l r) fun _ _ h _ => ?_
        split
        · exact .bind (melts_growRoot _ _ _) fun _ _ _ _ => melts_commit
        · exact .bind (melts_insertChild fuel _ _ _ _) fun _ _ _ _ => melts_commit

/-- **`split_leaf`.** -/
theorem melts_splitLeaf (x : NodeId) (path : List NodeId) :
    Melts F (splitLeaf x path) fun _ _ => True := by
  rw [splitLeaf_eq]
  refine .bind (melts_cutLeaf x path) fun _ _ h _ => ?_
  split
  · exact .bind (melts_growRoot _ _ _) fun _ _ _ _ => melts_commit
  · intro w v T
    refine Act.Follows.world_bind ?_
    rw [T.height]
    refine (?_ : Melts _ _ _) w v T
    exact .bind (melts_insertChild _ _ _ _ _) fun _ _ _ _ => melts_commit

end Split

/-! ## Flushes -/

section Flush

/-- The nodes of a list, each under its own identifier. -/
def Frost.Holds (F : Frost) (cs : List SSTNode) : Prop := ∀ c ∈ cs, F.Clear c.id ∧ c.Called c.id

theorem Frost.Holds.mono {G : Frost} {cs : List SSTNode} (h : F.Holds cs) (hG : G.Thinner F) :
    G.Holds cs := fun c hc => ⟨(h c hc).1.mono hG, (h c hc).2⟩

theorem Frost.Holds.cons {c : SSTNode} {cs : List SSTNode} (h : F.Clear c.id) (hc : c.Called c.id)
    (hcs : F.Holds cs) : F.Holds (c :: cs) := List.forall_mem_cons.mpr ⟨⟨h, hc⟩, hcs⟩

/-- The children and the identifiers that `local_flush` returns. -/
structure Frost.Clears (F : Frost) (r : List SSTNode × FlushResult) : Prop where
  children : F.Holds r.1
  new : ∀ id ∈ r.2.newChildIds, F.Clear id
  old : ∀ id ∈ r.2.oldChildIds, F.Clear id

theorem melts_localFlushLoop : ∀ {F : Frost} (cs : List (SSTNode × List Entry)),
    F.Holds (cs.map Prod.fst) → Melts F (localFlushLoop cs) Frost.Clears
  | _, [], _ => .pure ⟨fun _ h => (nomatch h), fun _ h => (nomatch h), fun _ h => (nomatch h)⟩
  | F, (child, part) :: cs, h => by
    obtain ⟨⟨hid, hchild⟩, hcs⟩ := List.forall_mem_cons.mp h
    unfold localFlushLoop
    split
    · refine .bind (melts_localFlushLoop cs hcs) fun G hG r hr => .pure ?_
      exact ⟨.cons (hid.mono hG) hchild hr.children,
        List.forall_mem_cons.mpr ⟨hid.mono hG, hr.new⟩, hr.old⟩
    · -- a child that receives entries gets a new identifier
      refine .bind (melts_loadEntries hchild) fun _ h₁ c hc => .bind melts_nextNodeId
        fun _ h₂ id hnew => .bind (melts_create c.level _ _ hnew) fun G h₃ n hn => ?_
      rw [hn.2.path, hc.id]
      refine .update_bind (.refl _) (fun T => T.registerNode hn.1 c.level) ?_
      have hid := ((hid.mono h₁).mono h₂).mono h₃
      refine .update_bind (.refl _) (fun T => T.invalidateNode hid.cold) ?_
      have hcs : G.Holds (cs.map Prod.fst) :=
        ((Frost.Holds.mono (F := F) hcs h₁).mono h₂).mono h₃
      refine .bind (melts_localFlushLoop cs hcs) fun H hH r hr => .pure ?_
      have hn' : n.Called n.id := hn.2.id ▸ hn.2
      exact ⟨.cons (hn.2.id ▸ hn.1.mono hH) hn' hr.children,
        List.forall_mem_cons.mpr ⟨hn.1.mono hH, hr.new⟩,
        List.forall_mem_cons.mpr ⟨hid.mono hH, hr.old⟩⟩

theorem melts_localFlush {p : NodeId} (hp : F.Clear p) {cs : List SSTNode} (hcs : F.Holds cs) :
    Melts F (localFlush p cs) Frost.Clears := by
  refine .bind (melts_modifyNode hp fun _ hn => ⟨hn.id, hn.path⟩) fun _ h₁ _ _ =>
    .bind (melts_getNode p) fun G h₂ parent _ => melts_localFlushLoop _ ?_
  intro c hc
  obtain ⟨q, hq, rfl⟩ := List.mem_map.mp hc
  obtain ⟨hmem, -⟩ := List.of_mem_zip (a := q.1) (b := q.2) hq
  exact (hcs.mono h₁).mono h₂ _ hmem

theorem melts_loadChildren : ∀ {F : Frost} ids, Melts F (loadChildren ids) Frost.Holds
  | _, [] => .pure fun _ h => nomatch h
  | _, id :: ids => by
    unfold loadChildren
    refine .bind (melts_getNode id) fun _ _ child hchild =>
      .bind (melts_loadEntries hchild.2) fun G h₁ n hn => ?_
    have hid := hchild.1.mono h₁
    have hrest : ∀ {H : Frost}, H.Thinner G →
        Melts H (loadChildren ids >>= fun rest => pure (n :: rest)) Frost.Holds := fun hH =>
      .bind (melts_loadChildren ids) fun _ hK rest hr => .pure
        (.cons (hn.id ▸ (hid.mono hH).mono hK) (hn.id ▸ hn) hr)
    split
    · exact .bind (melts_setNode hid hn) fun _ h₂ _ _ => hrest h₂
    · exact hrest (.refl G)

theorem melts_refreshChild {c : SSTNode} (h : F.Clear c.id) (hc : c.Called c.id) :
    Melts F (refreshChild c) fun G n => G.Clear n.id ∧ n.Called n.id := by
  unfold refreshChild
  split
  · refine .bind (melts_spanKeyRange c) fun _ h₁ _ _ => .bind (melts_flushToDisk
      (n := { c with keyRange := _ }) ⟨rfl, hc.path⟩ (h.mono h₁).cold) fun G _ n hn => ?_
    rw [hn.2.path, hn.2.id]
    refine .update_bind (.refl _) (fun T => T.registerNode hn.1 n.level) (.pure ?_)
    exact hn.2.id.symm ▸ hn
  · exact .pure ⟨h, hc⟩

theorem melts_refreshCache : ∀ {F : Frost} (cs : List SSTNode) (olds : List NodeId), F.Holds cs →
    (∀ id ∈ olds, F.Clear id) → Melts F (refreshCache cs olds) fun _ _ => True
  | _, [], _, _, _ => .pure trivial
  | F, c :: cs, olds, h, ho => by
    obtain ⟨⟨hid, hc⟩, hcs⟩ := List.forall_mem_cons.mp h
    have htail : ∀ id ∈ olds.tail, F.Clear id := fun id hid => ho id (List.mem_of_mem_tail hid)
    have hrest : Melts F (refreshChild c >>= fun c => setNode c.id c >>= fun _ =>
        refreshCache cs olds.tail) fun _ _ => True :=
      .bind (melts_refreshChild hid hc) fun _ h₁ n hn =>
        .update_bind (.refl _) (fun T => T.setNode hn.1 hn.2)
          (melts_refreshCache cs _ (Frost.Holds.mono hcs h₁) fun id hid => (htail id hid).mono h₁)
    unfold refreshCache
    cases olds with
    | nil => exact hrest
    | cons old olds =>
      exact .update_bind (.refl _) (fun T => T.eraseNode (ho old List.mem_cons_self).cold) hrest

theorem melts_pushDown (p : NodeId) :
    Melts F (pushDown p) fun G ids => ∀ id ∈ ids, G.Clear id := by
  unfold pushDown
  refine .bind (melts_getNode p) fun _ _ parent hp =>
    .bind (melts_loadChildren _) fun _ h₁ cs hcs =>
    .bind (melts_localFlush (hp.1.mono h₁) hcs) fun _ h₂ r hr => ?_
  have hp₂ := (hp.1.mono h₁).mono h₂
  refine .update_bind (.refl _) (fun T => T.modifyNode hp₂.cold fun _ hn => ⟨hn.id, hn.path⟩) ?_
  refine .bind (melts_refreshCache _ _ hr.children hr.old) fun _ h₃ _ _ => ?_
  have hp₃ := hp₂.mono h₃
  refine .update_bind (.refl _) (fun T => T.modifyNode hp₃.cold fun _ hn => ⟨hn.id, hn.path⟩) ?_
  refine .bind (melts_getNode p) fun G h₄ n hn => ?_
  -- the flush of the node's file loads nothing, so the new children stay clear
  have hnew : ∀ {H : Frost}, H.Thinner G → ∀ id ∈ r.2.newChildIds, H.Clear id := fun hH id hid =>
    (((hr.new id hid).mono h₃).mono h₄).mono hH
  have hend : ∀ {H : Frost}, H.Thinner G → Melts H (flushNode p >>= fun _ => registerCached p >>=
      fun _ => save >>= fun _ => gc >>= fun _ => pure r.2.newChildIds)
      fun G ids => ∀ id ∈ ids, G.Clear id := fun hH =>
    .bind (melts_flushNode (hn.1.mono hH)) fun _ k₁ _ _ => .bind (melts_registerCached p)
      fun _ k₂ _ _ => .bind melts_save fun _ k₃ _ _ => .bind melts_gc fun _ k₄ _ _ =>
      .pure (hnew ((((hH.trans k₁).trans k₂).trans k₃).trans k₄))
  split
  · exact .bind (melts_spanKeyRange n) fun _ h₅ _ _ => .update_bind (.refl _)
      (fun T => T.modifyNode (hn.1.mono h₅).cold fun _ hm => ⟨hm.id, hm.path⟩) (hend h₅)
  · exact hend (.refl G)

theorem melts_checkChildren {flushChild : NodeId → M Unit}
    (h : ∀ {F : Frost} id, Melts F (flushChild id) fun _ _ => True) (p : NodeId) :
    ∀ {F : Frost} ids, (∀ id ∈ ids, F.Clear id) →
      Melts F (checkChildren flushChild p ids) fun _ _ => True
  | _, [], _ => .pure trivial
  | F, id :: ids, hids => by
    obtain ⟨hid, hids⟩ := List.forall_mem_cons.mp hids
    have hrest : ∀ {G : Frost}, G.Thinner F →
        Melts G (checkChildren flushChild p ids) fun _ _ => True := fun hG =>
      melts_checkChildren h p ids fun id hid => (hids id hid).mono hG
    -- the cache is asked directly here: the child is not cold
    intro w v T
    refine Act.Follows.world_bind ?_
    rw [T.warm hid.cold]
    refine (?_ : Melts _ _ _) w v T
    split
    · split
      · split
        · exact .bind (melts_splitLeaf _ _) fun _ hG _ _ => hrest hG
        · split
          · exact .bind (h id) fun _ hG _ _ => hrest hG
          · exact hrest (.refl F)
      · exact hrest (.refl F)
    · exact hrest (.refl F)

/-- **`do_flush`.** -/
theorem melts_doFlush : ∀ {F : Frost} fuel p, Melts F (doFlush fuel p) fun _ _ => True
  | _, 0, _ => .fail _
  | _, fuel + 1, p => .bind (melts_pushDown p) fun _ _ ids hids =>
      melts_checkChildren (melts_doFlush fuel) p ids hids

end Flush

end GravTree
