import GravTree.Termination

/-!
# Splits go up through empty buffers

`insert_child` shares out the buffer of a full parent over the halves, but gives them the
ranges of their children, and `flush_to_disk` leaves a range alone only if the buffer is
empty. The source takes it that "internal-node buffers are empty on all reachable paths".
Between flushes they are not. But `do_flush` empties a node before it looks at the
children, so whenever a split reaches `insert_child`, the node and all nodes above it have
been emptied in the same cycle, and earlier splits have moved empty nodes only.

This does not need every earlier split to have gone well. One that names a parent that is
gone ends its cycle by an exception and leaves nodes behind that are in nobody's reach.
What is within reach is still a tree.
-/

namespace GravTree

open Graded

/-! ## Between two cycles -/

/-- What is within reach. -/
noncomputable def Outline.trim (K : Outline) : Outline where
  graph := Graded.trim K.graph K.root
  root := K.root
  next := K.next
  known := Reach K.graph K.root
  stale _ := False
  held x := x = K.root
  dry _ := False

/-- The world holds a tree in which no node has two parents, and perhaps more. -/
def Standing (w : World) : Prop := ∃ K : Outline, K.Full True ∧ (∀ x, ¬ K.dry x) ∧ Shows K w

section Standing

variable {o : Prop} {K : Outline} {w : World} {x : NodeId}

theorem Outline.Loose.reach_known (L : K.Loose o) (h : Reach K.graph K.root x) : K.known x := by
  induction h with
  | refl =>
    obtain ⟨n, hn⟩ := L.graded.root
    exact (L.knows hn).1
  | tail _ hyc _ =>
    obtain ⟨n, hn, hc⟩ := hyc
    exact (L.knows hn).2 _ hc

theorem Outline.Loose.trim (L : K.Loose o) : K.trim.Full o where
  graded := L.graded.trim.toIsGraded
  once ho := Once.trim (L.once ho)
  known x hx := L.known x (L.reach_known hx)
  knows hx := by
    obtain ⟨hreach, hx⟩ := trim_some.mp hx
    exact ⟨hreach, fun c hc => hreach.tail ⟨_, hx, hc⟩⟩
  held := rfl
  dry _ := False.elim
  reach := L.graded.trim.reach
  fresh _ := id

theorem Shows.trim (S : Shows K w) (L : K.Loose o) : Shows K.trim w :=
  S.weaken rfl rfl (fun _ hx => S.held (hx ▸ L.held))
    (fun _ hx => ⟨L.reach_known hx, if_pos hx⟩) (fun _ => False.elim) fun _ => False.elim

theorem Outline.Loose.standing (L : K.Loose True) (S : Shows K w) : Standing w :=
  ⟨K.trim, L.trim, fun _ => id, S.trim L⟩

/-- However it ends, the program leaves a tree. -/
theorem Standing.exec {x : M Unit} (h : Act.Spec x w (fun _ u => ∃ K', K'.Full True ∧ Shows K' u)
    (Finishes True)) : Standing (Act.exec x ⟨w, none⟩) := by
  unfold Act.exec
  rcases Act.Spec.undisturbed h with ⟨_, u, hx, K', F, S⟩ | ⟨e, u, s, hx, -, he⟩
  · rw [hx]
    exact F.toLoose.standing S
  · rw [hx]
    obtain ⟨K', L, S⟩ := he trivial e rfl
    exact L.standing S

theorem Tidy.standing {lag : Option NodeId} (T : Tidy w lag) : Standing w := by
  have U : Once w.outline.graph := by
    intro x y c k m hx hy hcx hcy
    obtain ⟨n, hn, rfl⟩ := World.outline_some hx
    obtain ⟨n', hn', rfl⟩ := World.outline_some hy
    rw [T.fetch] at hn hn'
    exact T.sound.shape.parent_unique hn hn' hcx hcy
  exact ⟨w.outline, T.wellFormed.full fun _ => U, fun _ => id, T.wellFormed.shows⟩

/-- **`flush()`** changes buffers and files only. -/
theorem leaves_persistRoot (F : K.Full o) (hd : ¬ K.dry K.root) (es : List Entry) :
    Leaves o K (persistRoot es) K fun _ => True := by
  obtain ⟨m, hm⟩ := F.tree.root
  have hk := (F.knows hm).1
  have hlt := (F.below hm).1
  intro w S
  have hr : w.manifest.rootId = K.root := S.root
  refine Act.Spec.world_bind ?_
  rw [hr]
  refine Act.Spec.bind (leaves_mergeIntoRoot F.toLoose hk hd es w S) fun root u hu => ?_
  split
  · refine Act.Spec.bind (flushNode_caches (fun _ => F.toLoose) hk hlt hu.1) fun _ v hv => ?_
    obtain ⟨Sv, n, hn, hid, hpath⟩ := hv
    refine (getNode_reads hn).spec_bind (Act.Spec.update_bind ?_)
    rw [hpath]
    exact leaves_save _ (Sv.listed hlt (F.fresh _) hn n.level)
  · exact Act.Spec.pure ⟨hu.1, trivial⟩

/-- **A step of a session** leaves a tree. -/
theorem Db.step_standing (db : Db) (op : Op) (h : Standing db.world) :
    Standing (db.step op).world := by
  obtain ⟨K, F, hd, S⟩ := h
  cases op with
  | insert k v => exact ⟨K, F, hd, S⟩
  | remove k => exact ⟨K, F, hd, S⟩
  | flush =>
    exact Standing.exec ((leaves_persistRoot F (hd _) _ _ S).mono (fun _ _ h => ⟨K, F, h.1⟩)
      fun _ _ h => h)
  | cycle =>
    show Standing (Act.exec (catchAll (flushPending db.writeBuf.entries)) ⟨db.world, none⟩)
    unfold catchAll
    rw [Act.exec_swallow]
    exact Standing.exec (flushPending_settles F (hd _) _ _ S)

/-- **Every run** leaves a tree. -/
theorem standing_run (sizing : Sizing) (ops : List Op) :
    Standing ((Db.start sizing).run ops).world := by
  induction ops using List.reverseRecOn with
  | nil =>
    rw [Db.run_nil, start_world]
    exact (tidy_opened sizing).standing
  | append_singleton ops op ih =>
    rw [Db.run_append]
    exact Db.step_standing _ op ih

end Standing

/-! ## The calls of a cycle -/

/-- The background cycle of `db` merges the write buffer into the root and calls `do_flush` on
it. In the course of that it makes the call `a`. -/
inductive Db.Invokes (db : Db) (a : TreeCall × World) : Prop
  | intro {root w}
      (hmerge : mergeIntoRoot db.writeBuf.entries ⟨db.world, none⟩ = .ok root ⟨w, none⟩)
      (hfull : root.bufferFull = true) (hkids : root.childIds ≠ [])
      (hcalls : Relation.ReflTransGen Calls (.flush db.world.manifest.rootId, w) a)

section Invokes

variable {o : Prop} {K : Outline} {db : Db} {w u : World} {p x l r : NodeId}

theorem Db.Invokes.begun {a : TreeCall × World} (h : db.Invokes a) (hst : Standing db.world) :
    Begun True a := by
  obtain ⟨hmerge, -, hkids, hcalls⟩ := h
  obtain ⟨K, F, hd, S⟩ := hst
  obtain ⟨m, hm⟩ := F.tree.root
  obtain ⟨Sw, hfit⟩ := Act.Spec.ok (leaves_mergeIntoRoot F.toLoose (F.knows hm).1 (hd _)
    db.writeBuf.entries db.world S) hmerge
  have hr : db.world.manifest.rootId = K.root := S.root
  rw [hr] at hcalls
  exact (Begun.flush F Sw hfit.knot (F.level_ne hfit hkids) fun _ => .refl).run hcalls

/-! ## Empty buffers -/

theorem World.walk_concat {path : List Nat} {i : Nat} (h : u.walk (path ++ [i]) = some x) :
    ∃ y n, u.walk path = some y ∧ u.fetch y = some n ∧ x ∈ n.childIds := by
  unfold World.walk at h
  rw [Forest.descend_append] at h
  obtain ⟨y, hy, hx⟩ := Option.bind_eq_some_iff.mp h
  obtain ⟨c, hc, hx⟩ := Option.bind_eq_some_iff.mp hx
  obtain rfl := Option.some.inj hx
  have hmem := List.mem_of_getElem? hc
  unfold World.kids at hmem
  cases hn : u.fetch y with
  | none =>
    rw [hn] at hmem
    exact absurd hmem List.not_mem_nil
  | some n =>
    rw [hn] at hmem
    exact ⟨y, n, hy, hn, hmem⟩

theorem Shows.walk_known (S : Shows K u) (L : K.Loose o) {path : List Nat} :
    ∀ {x}, u.walk path = some x → K.known x := by
  induction path using List.reverseRecOn with
  | nil =>
    intro x hx
    have hr : u.manifest.rootId = K.root := S.root
    obtain rfl : u.manifest.rootId = x := Option.some.inj hx
    obtain ⟨n, hn⟩ := L.graded.root
    exact hr ▸ (L.knows hn).1
  | append_singleton path i ih =>
    intro x hx
    obtain ⟨y, n, hy, hn, hmem⟩ := World.walk_concat hx
    exact (L.knows ((S.fetch hn).under (ih hy)).knot).2 x hmem

/-- All nodes on the way to a node that is clear have empty buffers. The way does not come through
the parent that has yet to name the halves, for that is no higher. -/
theorem Shows.drained (S : Shows K u) (L : K.Loose True) (F : (K.link p x l r).Full True)
    {level : Nat}
    (hp : ∀ k, K.graph p = some k → k.level = level) {path : List Nat} : ∀ {y m},
      u.walk path = some y → u.fetch y = some m → level ≤ m.level → K.dry y →
      (K.link p x l r).Clear y → ∀ path', path' <+: path →
        ∃ z k, u.walk path' = some z ∧ u.fetch z = some k ∧ k.buffer = [] := by
  induction path using List.reverseRecOn with
  | nil =>
    intro y m hy hm _ hd _ path' hpre
    rw [List.prefix_nil.mp hpre]
    exact ⟨y, m, hy, hm, (S.fetch hm).dry hd⟩
  | append_singleton path i ih =>
    intro y m hy hm hlev hd hclear path' hpre
    rcases List.prefix_concat_iff.mp hpre with rfl | hpre
    · exact ⟨y, m, hy, hm, (S.fetch hm).dry hd⟩
    obtain ⟨z, k, hz, hk, hmem⟩ := World.walk_concat hy
    have hzk := ((S.fetch hk).under (S.walk_known L hz)).knot
    have hym := ((S.fetch hm).under (S.walk_known L hy)).knot
    have hl : m.level + 1 = k.level := L.graded.level hzk hmem hym
    have hlt : level < k.level := by omega
    have hzp : z ≠ p := by
      rintro rfl
      exact hlt.ne' (hp _ hzk)
    obtain ⟨hdz, hcz⟩ := hclear.parent F.tree (F.once trivial)
      ⟨_, (Outline.link_ne hzp).trans hzk, hmem⟩
    exact ih hz hk hlt.le hdz hcz path' hpre

/-! ## Ranges -/

/-- The node's range spans its children. -/
def World.Spans (w : World) (n : SSTNode) : Prop :=
  ∃ front back, w.fetch (n.childIds.headD invalidNodeId) = some front ∧
    w.fetch (n.childIds.getLastD invalidNodeId) = some back ∧
    n.keyRange = ⟨front.keyRange.minKey, back.keyRange.maxKey⟩

/-- Between the two worlds nodes were loaded. -/
structure Loads (w u : World) : Prop where
  rest : u.rest = w.rest
  node : ∀ {y n}, (w.cell y).node = some n → (u.cell y).node = some n
  file : ∀ y, (u.cell y).file = (w.cell y).file

namespace Loads

theorem refl (w : World) : Loads w w := ⟨rfl, fun h => h, fun _ => rfl⟩

theorem trans {v : World} (h : Loads w u) (h' : Loads u v) : Loads w v :=
  ⟨h'.rest.trans h.rest, fun hn => h'.node (h.node hn), fun y => (h'.file y).trans (h.file y)⟩

theorem setNode {y : NodeId} {n : SSTNode} (h : (w.cell y).node = none) :
    Loads w (w.setNode y n) := by
  refine ⟨rfl, fun {z m} hm => ?_, fun z => ?_⟩
  · rw [World.cell_setNode, if_neg]
    · exact hm
    · rintro rfl
      exact nomatch h.symm.trans hm
  · rw [World.cell_setNode]
    split <;> rfl

end Loads

/-- A program that only loads nodes. -/
abbrev Loading {α : Type} (x : M α) : Prop :=
  ∀ w, Act.Spec x w (fun _ u => Loads w u) fun _ _ => True

theorem Loading.bind {α β : Type} {x : M α} {f : α → M β} (hx : Loading x)
    (hf : ∀ a, Loading (f a)) :
    Loading (x >>= f) := fun w =>
  Act.Spec.bind (hx w) fun a u hu => (hf a u).mono (fun _ _ h => hu.trans h) fun _ _ h => h

theorem readFile_loads (path : FilePath) (b : Bool) (w : World) :
    Act.Spec (readFile path b) w (fun _ u => u = w) fun _ _ => True := by
  refine Act.Spec.bind (R := fun _ u => u = w) (Act.Spec.op rfl fun _ _ => trivial) ?_
  rintro _ _ rfl
  refine Act.Spec.world_bind ?_
  split
  · exact Act.Spec.fail trivial
  · exact Act.Spec.pure rfl

/-- **`get_node`** leaves what it returns in the cache. -/
theorem getNode_loading (y : NodeId) (w : World) : Act.Spec (getNode y) w
    (fun n u => Loads w u ∧ (u.cell y).node = some n) fun _ _ => True := by
  refine Act.Spec.world_bind ?_
  split
  · rename_i n hn
    exact Act.Spec.pure ⟨.refl w, hn⟩
  · rename_i hnone
    refine Act.Spec.world_bind ?_
    split
    · exact Act.Spec.fail trivial
    · refine Act.Spec.bind (readFile_loads _ false w) ?_
      rintro n u rfl
      refine Act.Spec.bind (R := fun _ v => v = u) ?_ ?_
      · unfold SSTNode.loadEntries
        split
        · exact Act.Spec.pure rfl
        · refine Act.Spec.bind (readFile_loads _ true u) ?_
          rintro _ _ rfl
          exact Act.Spec.pure rfl
      · rintro m _ rfl
        exact Act.Spec.update_bind (Act.Spec.pure ⟨.setNode hnone, by simp⟩)

theorem loading_getNode (y : NodeId) : Loading (getNode y) := fun w =>
  (getNode_loading y w).mono (fun _ _ h => h.1) fun _ _ h => h

theorem loading_firstPath {f : NodeId → M (Option (List NodeId))} (hf : ∀ c, Loading (f c)) :
    ∀ ids, Loading (firstPath f ids)
  | [] => fun w => Act.Spec.pure (.refl w)
  | id :: ids => .bind (hf id) fun path => by
    cases path with
    | some path => exact fun w => Act.Spec.pure (.refl w)
    | none => exact loading_firstPath hf ids

theorem loading_dfs (target : NodeId) : ∀ (fuel : Nat) (id : NodeId), Loading (dfs target fuel id)
  | 0, _ => fun _ => Act.Spec.fail trivial
  | fuel + 1, id => by
    unfold dfs
    split
    · exact fun w => Act.Spec.pure (.refl w)
    · exact .bind (loading_getNode id) fun node =>
        .bind (loading_firstPath (loading_dfs target fuel) node.childIds) fun _ w =>
          Act.Spec.pure (.refl w)

theorem loading_pathTo (target : NodeId) : Loading (pathTo target) := fun w =>
  Act.Spec.world_bind (Loading.bind (loading_dfs target _ _) (fun _ w => Act.Spec.pure (.refl w)) w)

/-- The first and the last child are cached, and the range spans the children. -/
structure Span (w : World) (ks : List NodeId) (range : KeyRange) (front back : SSTNode) : Prop where
  first : (w.cell (ks.headD invalidNodeId)).node = some front
  last : (w.cell (ks.getLastD invalidNodeId)).node = some back
  range : range = ⟨front.keyRange.minKey, back.keyRange.maxKey⟩

theorem Span.mono {ks : List NodeId} {range : KeyRange} {front back : SSTNode}
    (h : Span w ks range front back)
    (hu : ∀ y ∈ ks, ∀ n, (w.cell y).node = some n → (u.cell y).node = some n) (hne : ks ≠ []) :
    Span u ks range front back := by
  refine ⟨hu _ ?_ _ h.first, hu _ ?_ _ h.last, h.range⟩
  · cases ks with
    | nil => exact absurd rfl hne
    | cons k ks => exact List.mem_cons_self
  · rw [List.getLastD_eq_getLast?, List.getLast?_eq_some_getLast hne]
    exact List.getLast_mem hne

theorem spanKeyRange_loads (n : SSTNode) (w : World) : Act.Spec (spanKeyRange n) w
    (fun range u => Loads w u ∧ ∃ front back, Span u n.childIds range front back)
    fun _ _ => True := by
  refine Act.Spec.bind (getNode_loading _ w) fun front u hu => ?_
  refine Act.Spec.bind (getNode_loading _ u) fun back v hv => ?_
  exact Act.Spec.pure ⟨hu.1.trans hv.1, front, back, hv.1.node hu.2, hv.2, rfl⟩

/-- `insert_child` puts the halves in the place of the parent. -/
def World.replace (w : World) (p level a b : NodeId) (na nb : SSTNode) : World :=
  (((((w.invalidateNode p).registerNode a level na.filePath).registerNode b level
    nb.filePath).setNode a na).setNode b nb).eraseNode p

section Replace

variable {level a b y : NodeId} {na nb : SSTNode}

theorem file_replace : ((w.replace p level a b na nb).cell y).file = (w.cell y).file := by
  simp only [World.replace, World.cell_eraseNode, World.cell_setNode, World.cell_registerNode,
    World.cell_invalidateNode]
  repeat' split
  all_goals rfl

theorem node_replace (hp : y ≠ p) (ha : y ≠ a) (hb : y ≠ b) :
    ((w.replace p level a b na nb).cell y).node = (w.cell y).node := by
  simp only [World.replace, World.cell_eraseNode, World.cell_setNode, World.cell_registerNode,
    World.cell_invalidateNode, if_neg hp, if_neg ha, if_neg hb]

end Replace

/-- A half without entries, before it gets its range. -/
theorem create_half {id level : NodeId} {cs : List NodeId} (hcs : cs.length ≤ maxFanout)
    (w : World) :
    Act.Spec (SSTNode.create id level [] cs) w
      (fun n u => n.id = id ∧ n.childIds = cs ∧ n.buffer = [] ∧
      u.rest.next = w.rest.next ∧ ∀ y, (u.cell y).node = (w.cell y).node) fun _ _ => True := by
  refine Act.Spec.mono (create_runs (H := fun _ => True) trivial) ?_ fun _ _ _ => trivial
  rintro _ _ ⟨rfl, rfl⟩
  refine ⟨rfl, created_childIds _ id level [] cs hcs, rfl, rfl, fun y => ?_⟩
  rw [World.cell_renamed]
  split <;> rfl

/-- **`flush_to_disk`** leaves the range of a node without entries alone. -/
theorem flushToDisk_half {n : SSTNode} (h : n.buffer = []) (w : World) : Act.Spec n.flushToDisk w
    (fun _ u => (∀ y, (u.cell y).node = (w.cell y).node) ∧
      (∃ half, (u.cell n.id).file = some half ∧ half.childIds = n.childIds ∧
        half.keyRange = n.keyRange) ∧
      ∀ y, y ≠ n.id → (u.cell y).file = (w.cell y).file) fun _ _ => True := by
  refine Act.Spec.mono (flushToDisk_runs (H := fun _ => True) trivial) ?_ fun _ _ _ => trivial
  rintro _ _ ⟨rfl, rfl⟩
  refine ⟨fun y => ?_, ⟨n.prepare w.rest.sizing, by simp, rfl, ?_⟩, fun y hy => ?_⟩
  · rw [World.cell_renamed]
    split <;> rfl
  · show SSTNode.expandRange n.keyRange (sortBuffer n.buffer) = n.keyRange
    rw [h]
    rfl
  · rw [World.cell_renamed, prepare_id, if_neg hy]

theorem le_length_replaceChild (x l r : NodeId) : ∀ ids : List NodeId,
    ids.length ≤ (replaceChild x l r ids).length
  | [] => Nat.zero_le _
  | id :: ids => by
    have := le_length_replaceChild x l r ids
    unfold replaceChild
    split
    · simp
    · simpa using this

/-- **The halves' files** hold the ranges of their children. -/
theorem cutParent_spans {parent : SSTNode} {ks : List NodeId}
    (hks : ks = replaceChild x l r parent.childIds) (hbuf : parent.buffer = [])
    (hlen : 2 ≤ ks.length ∧ ks.length ≤ maxFanout + 1)
    (hk : ∀ c ∈ ks, c < w.rest.next ∧ c ≠ parent.id) :
    Act.Spec (cutParent parent x l r) w (fun h v => ∀ y ∈ [h.1, h.2.1], ∃ half,
      (v.cell y).file = some half ∧ v.Spans half) fun _ _ => True := by
  obtain ⟨lk, rk, hlk, hrk⟩ :
      ∃ lk rk, lk = ks.take (ks.length / 2) ∧ rk = ks.drop (ks.length / 2) :=
    ⟨_, _, rfl, rfl⟩
  have hll : lk ≠ [] ∧ lk.length ≤ maxFanout := by
    rw [hlk, ← List.length_pos_iff, List.length_take]
    omega
  have hrl : rk ≠ [] ∧ rk.length ≤ maxFanout := by
    have hfan : maxFanout = 16 := rfl
    rw [hrk, ← List.length_pos_iff, List.length_drop]
    omega
  have hE : ∀ (k : Stop) (u : World), True → (fun (_ : Exc) (_ : World) => True) (.stopped k) u :=
    fun _ _ h => h
  unfold cutParent
  dsimp only
  rw [← hks, ← hlk, ← hrk, hbuf]
  simp only [List.filter_nil]
  refine Act.Spec.bind (loading_getNode _ w) fun _ w₁ h₁ => ?_
  refine nextNodeId_runs.spec_bind hE (nextNodeId_runs.spec_bind hE ?_)
  obtain ⟨a, ha⟩ : ∃ a, a = w₁.rest.next := ⟨_, rfl⟩
  obtain ⟨b, hb⟩ : ∃ b, b = w₁.takeId.rest.next := ⟨_, rfl⟩
  have hba : b = a + 1 := by rw [ha, hb]; rfl
  rw [← ha, ← hb]
  refine Act.Spec.bind (create_half hll.2 _) fun ln w₂ h₂ => ?_
  obtain ⟨hlid, hlkids, hlbuf, -, hnode₂⟩ := h₂
  refine Act.Spec.bind (create_half hrl.2 _) fun rn w₃ h₃ => ?_
  obtain ⟨hrid, hrkids, hrbuf, -, hnode₃⟩ := h₃
  refine Act.Spec.bind (spanKeyRange_loads _ _) fun lrange w₄ h₄ => ?_
  refine Act.Spec.bind (spanKeyRange_loads _ _) fun rrange w₅ h₅ => ?_
  obtain ⟨-, lf, lb, hl⟩ := h₄
  obtain ⟨hload₅, rf, rb, hr⟩ := h₅
  rw [hlkids] at hl
  rw [hrkids] at hr
  refine Act.Spec.bind (flushToDisk_half (n := { ln with keyRange := lrange }) hlbuf _)
    fun na w₆ h₆ => ?_
  obtain ⟨hnode₆, hfile₆, -⟩ := h₆
  refine Act.Spec.bind (flushToDisk_half (n := { rn with keyRange := rrange }) hrbuf _)
    fun nb w₇ h₇ => ?_
  obtain ⟨hnode₇, hfile₇, hother₇⟩ := h₇
  refine Act.Spec.bind (loading_pathTo _ _) fun path w₈ h₈ => ?_
  refine Act.Spec.update_bind (Act.Spec.update_bind (Act.Spec.update_bind (Act.Spec.update_bind
    (Act.Spec.update_bind (Act.Spec.update_bind (Act.Spec.pure ?_))))))
  show ∀ y ∈ [a, b], ∃ half,
    ((w₈.replace parent.id parent.level a b na nb).cell y).file = some half ∧
    (w₈.replace parent.id parent.level a b na nb).Spans half
  -- the children are cached to the end
  have hstay : ∀ c, c ∈ lk ∨ c ∈ rk → ∀ m, (w₅.cell c).node = some m →
      ((w₈.replace parent.id parent.level a b na nb).cell c).node = some m := by
    intro c hc m hm
    obtain ⟨hlt, hne⟩ := hk c (hc.elim (fun h => List.mem_of_mem_take (hlk ▸ h)) fun h =>
      List.mem_of_mem_drop (hrk ▸ h))
    rw [← h₁.rest, ← ha] at hlt
    rw [node_replace hne hlt.ne (hlt.trans (hba ▸ Nat.lt_succ_self a)).ne]
    exact h₈.node (by rw [hnode₇, hnode₆]; exact hm)
  have hspans : ∀ {half : SSTNode} {ks range front back}, half.childIds = ks →
      half.keyRange = range →
      Span (w₈.replace parent.id parent.level a b na nb) ks range front back →
      (w₈.replace parent.id parent.level a b na nb).Spans half := by
    rintro half _ _ front back rfl rfl h
    exact ⟨front, back, fetch_of_cached h.first, fetch_of_cached h.last, h.range⟩
  intro y hy
  rw [file_replace, h₈.file]
  rcases List.mem_pair.mp hy with rfl | rfl
  · obtain ⟨half, hfile, hkids, hrange⟩ := hfile₆
    rw [hlid] at hfile
    refine ⟨half, ?_, hspans (hkids.trans hlkids) hrange ((hl.mono (fun c _ m => hload₅.node) hll.1).mono
      (fun c hc => hstay c (.inl hc)) hll.1)⟩
    rw [hother₇ _ (by rw [hrid, hba]; exact (Nat.succ_ne_self _).symm)]
    exact hfile
  · obtain ⟨half, hfile, hkids, hrange⟩ := hfile₇
    rw [hrid] at hfile
    exact ⟨half, hfile, hspans (hkids.trans hrkids) hrange
      (hr.mono (fun c hc => hstay c (.inr hc)) hrl.1)⟩

/-- **The file of a parent with room** holds the range of its children once it names the halves. -/
theorem finishParent_spans {n : SSTNode} (hn : (w.cell p).node = some n) (hid : n.id = p)
    (hbuf : n.buffer = []) (hne : n.childIds ≠ []) (hk : ∀ c ∈ n.childIds, c ≠ p) :
    Act.Spec (finishParent p) w (fun _ v => ∃ m, (v.cell p).file = some m ∧ v.Spans m)
      fun _ _ => True := by
  refine (getNode_reads hn).spec_bind ?_
  rw [if_pos hne]
  refine Act.Spec.bind (spanKeyRange_loads n w) fun range u hu => Act.Spec.update_bind ?_
  obtain ⟨hload, front, back, hspan⟩ := hu
  have hn' : ((u.modifyNode p fun q => { q with keyRange := range }).cell p).node =
      some { n with keyRange := range } := by
    simp [hload.node hn]
  refine Act.Spec.mono (rewrite_runs (H := fun _ => True) hn' hid trivial) ?_ fun _ _ _ => trivial
  rintro _ _ ⟨-, rfl⟩
  have hstay : ∀ c ∈ n.childIds, ∀ m, (u.cell c).node = some m →
      (((u.modifyNode p fun q => { q with keyRange := range }).rewrite p
        { n with keyRange := range }).cell c).node = some m := by
    intro c hc m hm
    rw [cell_rewrite hn' hid, if_neg (hk c hc), World.cell_modifyNode, if_neg (hk c hc)]
    exact hm
  have hspan := hspan.mono hstay hne
  refine ⟨SSTNode.prepare _ { n with keyRange := range }, by rw [cell_rewrite hn' hid, if_pos rfl],
    front, back, fetch_of_cached hspan.first, fetch_of_cached hspan.last, ?_⟩
  rw [← hspan.range]
  show SSTNode.expandRange range (sortBuffer n.buffer) = range
  rw [hbuf]
  rfl

end Invokes

/-! ## Splits find the ancestors empty -/

/-- **Whenever a split reaches a node of the tree**, in any run, the buffers of the node and of all
its ancestors are empty. The ranges that the node, or its halves if it is full, are given after
that are those that are written to their files. -/
theorem ancestors_empty (sizing : Sizing) (ops : List Op) {p x l r : NodeId} {u : World}
    (h : ((Db.start sizing).run ops).Invokes (.insert p x l r, u)) :
    (∀ {path n}, u.walk path = some p → u.fetch p = some n → ∀ path', path' <+: path →
      ∃ y m, u.walk path' = some y ∧ u.fetch y = some m ∧ m.buffer = []) ∧
    (∀ {parent w a b path v}, getNode p ⟨u, none⟩ = .ok parent ⟨w, none⟩ →
      maxFanout ≤ parent.childIds.length →
      cutParent parent x l r ⟨w, none⟩ = .ok (a, b, path) ⟨v, none⟩ →
      ∀ y ∈ [a, b], ∃ half, v.disk.node.lookup y = some half ∧ v.Spans half) ∧
    ∀ {fuel parent w v}, getNode p ⟨u, none⟩ = .ok parent ⟨w, none⟩ →
      parent.childIds.length < maxFanout → parent.childIds ≠ [] →
      insertChild (fuel + 1) p x l r ⟨u, none⟩ = .ok () ⟨v, none⟩ →
      ∃ n, v.disk.node.lookup p = some n ∧ v.Spans n := by
  cases h.begun (standing_run sizing ops) with
  | @insert _ _ _ _ _ K S L hk hfull hclear _ =>
    have hget : ∀ {parent w}, getNode p ⟨u, none⟩ = .ok parent ⟨w, none⟩ → Shows K w ∧
        (w.cell p).node = some parent ∧ parent.Under K.graph p ∧ (K.link p x l r).Full True ∧
        parent.buffer = [] := by
      intro parent w hp
      obtain ⟨Sw, hfit, hcached⟩ := Act.Spec.ok (getNode_caches (o := True) (fun _ => L) p S) hp
      have hu := hfit.under hk
      exact ⟨Sw, hcached, hu, hfull _ hu.knot, hfit.dry (hclear trivial _ hu.knot).2⟩
    refine ⟨fun {path n} hpath hn => ?_, fun {parent w a b path v} hp hfan hcut y hy => ?_,
      fun {fuel parent w v} hp hroom hne hrun => ?_⟩
    · have hu := (S.fetch hn).under hk
      obtain ⟨hcl, hd⟩ := hclear trivial _ hu.knot
      have hlev : ∀ k, K.graph p = some k → k.level = n.level := fun k hk =>
        congrArg Knot.level (Option.some.inj (hk.symm.trans hu.knot))
      exact S.drained L (hfull _ hu.knot) hlev hpath hn le_rfl hd hcl
    · obtain ⟨Sw, -, hu, F, hbuf⟩ := hget hp
      have hlink := Outline.link_at (x := x) (l := l) (r := r) hu.knot
      have hlen := length_replaceChild_le x l r parent.childIds
      refine Act.Spec.ok (cutParent_spans rfl hbuf ⟨?_, ?_⟩ fun c hc => ?_) hcut y hy
      · exact le_trans (by decide) (hfan.trans (le_length_replaceChild x l r parent.childIds))
      · have := hu.fanout
        omega
      · rw [show w.rest.next = K.next from Sw.next, hu.id]
        exact ⟨(F.below hlink).2 c hc, F.tree.kid_ne hlink hc⟩
    · obtain ⟨Sw, hcached, hu, F, hbuf⟩ := hget hp
      have hlink := Outline.link_at (x := x) (l := l) (r := r) hu.knot
      rw [insertChild_succ] at hrun
      obtain ⟨parent', m, hp', hrest⟩ := Act.bind_ok hrun
      rw [hp] at hp'
      cases hp'
      rw [if_pos hroom] at hrest
      have hcell : ((w.modifyNode p fun q => { q with
          childIds := replaceChild x l r q.childIds }).cell p).node =
          some { parent with childIds := replaceChild x l r parent.childIds } := by
        simp [hcached]
      refine Act.Spec.ok (Act.Spec.update_bind (finishParent_spans hcell hu.id hbuf (fun h => hne ?_)
        fun c hc => F.tree.kid_ne hlink hc)) hrest
      have hlen := le_length_replaceChild x l r parent.childIds
      rw [show replaceChild x l r parent.childIds = [] from h] at hlen
      exact List.length_eq_zero_iff.mp (Nat.le_zero.mp hlen)

/-- Two leaves below a root whose buffer is as full as each of them will be. -/
def brimful : List Op := round [10, 20] ++
  [.insert (.byte 11) (.zeros (2 ^ 21)), .insert (.byte 21) (.zeros (2 ^ 21))]

/-- The first leaf is split, with an empty buffer above it. -/
theorem ancestors_empty_brimful : ∃ u,
    ((Db.start fun _ => (64, 7)).run brimful).Invokes (.insert 4 5 7 8, u) ∧
    ∃ y m, u.walk [] = some y ∧ u.fetch y = some m ∧ m.buffer = [] := by
  obtain ⟨db, hdb⟩ : ∃ db, db = (Db.start fun _ => (64, 7)).run brimful := ⟨_, rfl⟩
  obtain ⟨w, hw⟩ : ∃ w, w = Act.exec (mergeIntoRoot db.writeBuf.entries) ⟨db.world, none⟩ :=
    ⟨_, rfl⟩
  obtain ⟨w₁, hw₁⟩ : ∃ w₁, w₁ = Act.exec (pushDown 4) ⟨w, none⟩ := ⟨_, rfl⟩
  obtain ⟨u, hu⟩ : ∃ u, u = Act.exec (cutLeaf 5 [4, 5]) ⟨w₁, none⟩ := ⟨_, rfl⟩
  obtain ⟨root, hroot, hmerge⟩ := Act.returns_ok (w := db.world)
    (x := mergeIntoRoot db.writeBuf.entries) (q := fun n => n.bufferFull && !n.childIds.isEmpty)
    (by rw [hdb]; decide +kernel)
  obtain ⟨ids, hids, hpush⟩ := Act.returns_ok (w := w) (x := pushDown 4) (q := (· == [5, 6]))
    (by rw [hw, hdb]; decide +kernel)
  obtain ⟨⟨a, b⟩, hab, hcut⟩ := Act.returns_ok (w := w₁) (x := cutLeaf 5 [4, 5]) (q := (· == (7, 8)))
    (by rw [hw₁, hw, hdb]; decide +kernel)
  obtain ⟨hfull, hkids⟩ := Bool.and_eq_true_iff.mp hroot
  obtain rfl : ids = [5, 6] := by simpa using hids
  obtain ⟨rfl, rfl⟩ : a = 7 ∧ b = 8 := by simpa using hab
  have hid : db.world.manifest.rootId = 4 := by
    rw [hdb]
    decide +kernel
  have hp : (w.fetch 4).isSome = true := by
    rw [hw, hdb]
    decide +kernel
  have hc : (w₁.cache.lookup 5).any (fun m => m.bufferFull && m.level == 0) = true := by
    rw [hw₁, hw, hdb]
    decide +kernel
  have hpu : (u.fetch 4).isSome = true := by
    rw [hu, hw₁, hw, hdb]
    decide +kernel
  have hwalk : u.walk [] = some 4 := by
    rw [hu, hw₁, hw, hdb]
    decide +kernel
  obtain ⟨n, hn⟩ := Option.isSome_iff_exists.mp hp
  obtain ⟨m, hm, hleaf⟩ := (Option.any_eq_true _ _).mp hc
  obtain ⟨k, hk⟩ := Option.isSome_iff_exists.mp hpu
  obtain ⟨hmfull, hml⟩ := Bool.and_eq_true_iff.mp hleaf
  rw [← hw] at hmerge
  rw [← hw₁] at hpush
  rw [← hu] at hcut
  have hinv : db.Invokes (.insert 4 5 7 8, u) := by
    refine ⟨hmerge, hfull, by simpa using hkids, .single ?_⟩
    rw [hid]
    have hpush : pushDown 4 ⟨w, none⟩ = .ok ([] ++ 5 :: [6]) ⟨w₁, none⟩ := hpush
    have hloop : checkChildren (doFlush (n.level - 1)) 4 [] ⟨w₁, none⟩ = .ok () ⟨w₁, none⟩ := rfl
    exact .split hn hpush hloop hm hmfull (by simpa using hml) hcut
  rw [hdb] at hinv
  exact ⟨u, hinv, (ancestors_empty _ _ hinv).1 hwalk hk [] (List.prefix_refl _)⟩

end GravTree
