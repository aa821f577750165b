import GravTree.Proof.History
import GravTree.Proof.Serve

/-!
# Closing and opening

The destructor merges the write buffer into the root and writes the root's file; the
other files are up to date already. `open` loads the manifest and the root, and leaves
the rest to `get_node`. So the reopened tree is the old one with another root buffer.
-/

namespace GravTree

open Forest Fence

/-! ## Two views that differ in the root's buffer -/

namespace View

/-- What lies below the root on the path of a key. -/
def below (v : View) (k : Bytes) (h : Nat) (root : NodeId) : Option Entry :=
  v.firstVersion k (v.route k h root).tail

theorem firstVersion_route {v : View} {root : NodeId} {r : SSTNode} (hr : v root = some r)
    (k : Bytes) (h : Nat) :
    v.firstVersion k (v.route k h root) = (r.get k).or (v.below k h root) := by
  have hcons : ∀ path, v.firstVersion k (root :: path) = (r.get k).or (v.firstVersion k path) := by
    intro path
    rw [firstVersion, List.findSome?_cons, hr]
    cases hg : r.get k with
    | some e => simp [hg]
    | none => simp [hg, firstVersion]
  unfold below
  cases h with
  | zero => exact hcons []
  | succ h => exact hcons _

variable {v v' : View} {root : NodeId} {h : Nat}

/-- The next node of a path, and what both views see of it. -/
theorem next_congr (H : Shape v root h) (hv : ∀ x, x ≠ root → v' x = v x) {x : NodeId}
    {n : SSTNode} (hx : v x = some n) (hl : n.level ≠ 0) (hkids : v'.kids x = v.kids x)
    (k : Bytes) : ∃ c m, v c = some m ∧ m.level + 1 = n.level ∧ c ≠ root ∧
      scan v.minKey k ((v.kids x).headD invalidNodeId) (v.kids x) = c ∧
      scan v'.minKey k ((v'.kids x).headD invalidNodeId) (v'.kids x) = c := by
  have hne : ∀ c ∈ n.childIds, c ≠ root := fun c hc hroot =>
    H.root_notMem_kids hx (hroot ▸ hc)
  have hmem := H.scan_kid hx hl (k := k)
  obtain ⟨m, hm, -, hml⟩ := H.child_mem hx hmem
  rw [hkids, kids_some hx]
  refine ⟨_, m, hm, hml, hne _ hmem, rfl, scan_congr fun c hc => ?_⟩
  rw [minKey, minKey, hv c (hne c hc)]

/-- Below the root the paths are the same, and so is what is on them. -/
theorem route_congr (H : Shape v root h) (hv : ∀ x, x ≠ root → v' x = v x) {k : Bytes} :
    ∀ (l : Nat) {x : NodeId} {n : SSTNode}, v x = some n → n.level = l → x ≠ root →
      v'.route k l x = v.route k l x ∧
        v'.firstVersion k (v.route k l x) = v.firstVersion k (v.route k l x) := by
  intro l
  induction l with
  | zero =>
    intro x n hx _ hne
    exact ⟨rfl, by simp only [route, firstVersion, List.findSome?_singleton, hv x hne]⟩
  | succ l ih =>
    intro x n hx hl hne
    have hkids : v'.kids x = v.kids x := by rw [kids, kids, hv x hne]
    obtain ⟨c, m, hm, hml, hc, hscan, hscan'⟩ := next_congr H hv hx (by omega) hkids k
    obtain ⟨hroute, hfirst⟩ := ih hm (by omega) hc
    rw [route, route, hscan, hscan', hroute]
    refine ⟨rfl, ?_⟩
    rw [firstVersion, firstVersion, List.findSome?_cons, List.findSome?_cons, hv x hne]
    cases (v x).bind (·.get k) with
    | some e => rfl
    | none => exact hfirst

/-- Nothing changes below a root that keeps its children. -/
theorem below_congr (H : Shape v root h) (hv : ∀ x, x ≠ root → v' x = v x)
    (hkids : v'.kids root = v.kids root) (k : Bytes) : v'.below k h root = v.below k h root := by
  obtain ⟨r, hr, -, hl⟩ := H.root_some
  unfold below
  cases h with
  | zero => rfl
  | succ h =>
    obtain ⟨c, m, hm, hml, hc, hscan, hscan'⟩ := next_congr H hv hr (by omega) hkids k
    obtain ⟨hroute, hfirst⟩ := route_congr H hv h hm (by omega) hc
    rw [route, route, hscan, hscan', List.tail_cons, List.tail_cons, hroute, hfirst]

end View

/-! ## Opening the directory of a tidy world -/

section Open

variable {u : World}

/-- What the root's file holds. -/
theorem Tidy.root_file (T : Tidy u (some u.rest.root)) {r : SSTNode}
    (hr : u.view u.rest.root = some r) : ∃ n₀, (u.cell u.rest.root).file = some n₀ ∧
      n₀.id = u.rest.root ∧ n₀.level = r.level ∧ n₀.childIds = r.childIds ∧
      (n₀.loaded = r ∨ Lags n₀ r) := by
  obtain ⟨n₀, hf, h⟩ := T.filed.file (n := r) hr
  have hid : r.id = u.rest.root := (T.sound.shape.mem_row hr).2.2
  rcases h with rfl | ⟨-, h⟩
  · exact ⟨n₀, hf, hid, rfl, rfl, .inl rfl⟩
  · exact ⟨n₀, hf, h.id.trans hid, h.level, h.kids, .inr h⟩

/-- The directory has the nodes of the view, and its manifest lists them. -/
structure Disk.Has (disk : Disk) (v : View) (root : NodeId) : Prop where
  manifest : ∃ m, disk.manifest = some m ∧ m.rootId = root ∧ ∀ x, v x ≠ none →
    ∃ r, m.nodes.lookup x = some r ∧ r.valid = true ∧ r.filePath = ⟨x⟩
  file : ∀ {x n}, v x = some n → ∃ n₀, disk.node.lookup x = some n₀ ∧ n₀.id = x ∧ n₀.loaded = n

/-- **`open`** serves the nodes that are on disk. -/
theorem openTree_serves (sizing : Sizing) {disk : Disk} {v : View} {root : NodeId} {n : SSTNode}
    (H : disk.Has v root) (hpos : 0 < root) (hr : v root = some n) :
    ∃ w, Act.Runs openTree { sizing, disk } () w (fun _ => True) ∧ Serves w v root := by
  obtain ⟨m, hm, hroot, hlist⟩ := H.manifest
  obtain ⟨n₀, hf, hid, rfl⟩ := H.file hr
  -- the world once the manifest is loaded
  obtain ⟨w, hw⟩ : ∃ w : World, w = { sizing, disk, manifest := m.load } := ⟨_, rfl⟩
  have hcell : ∀ x, w.cell x = ⟨none, m.nodes.lookup x, disk.node.lookup x⟩ := by
    intro x
    rw [hw]
    rfl
  have hload : Act.Runs openTree { sizing, disk } () (w.setNode root n₀.loaded)
      (fun _ => True) := by
    have hpath : w.manifest.nodePath root = some ⟨root⟩ := by
      obtain ⟨q, hq, hv, hp⟩ := hlist root (by simp [hr])
      rw [hw, Manifest.nodePath, show m.load.nodes.lookup root = some q from hq, ← hp]
      exact if_pos hv
    have hdisk : w.disk.node.lookup root = some n₀ := by
      rw [hw]
      exact hf
    have hloaded : n₀.loaded = { n₀ with filePath := ⟨root⟩, entriesLoaded := true } := by
      rw [SSTNode.loaded, hid]
    refine Act.Runs.update_bind ?_
    rw [show ({ sizing, disk } : World).disk.manifest = some m from hm, ← hw]
    refine Act.Runs.world_bind ?_
    have hrid : w.manifest.rootId = root := by
      rw [hw]
      exact hroot
    rw [hrid, if_pos (show root ≠ invalidNodeId from Nat.pos_iff_ne_zero.mp hpos)]
    refine Act.Runs.world_bind ?_
    rw [hpath]
    refine Act.Runs.bind (@readFile_runs w ⟨root⟩ n₀ hdisk false)
      (Act.Runs.bind (loadEntries_runs hdisk) ?_)
    rw [hloaded]
    show Act.Runs (GravTree.setNode n₀.id _) w () _ _
    rw [hid]
    exact Act.Runs.update _ _
  refine ⟨_, hload, ?_, ?_, ?_⟩
  · rw [World.rest_setNode, hw]
    exact hroot
  · rw [World.view, World.cell_setNode, if_pos rfl, hr]
  · intro x n hx
    rw [World.view, World.cell_setNode]
    split
    · rename_i h
      rw [h, hr] at hx
      exact .inl hx
    · refine .inr ⟨by rw [hcell], ?_⟩
      obtain ⟨q, hq, hv, hp⟩ := hlist x (by simp [hx])
      obtain ⟨n₁, hn₁, hid₁, hload₁⟩ := H.file hx
      exact ⟨q, n₁, by rw [hcell]; exact hq, hv, hp, by rw [hcell]; exact hn₁, hid₁, hload₁⟩

/-- A session on the directory serves the nodes that are on disk. -/
theorem openDir_serves (sizing : Sizing) {disk : Disk} {v : View} {root : NodeId} {n : SSTNode}
    (H : disk.Has v root) (hpos : 0 < root) (hr : v root = some n) :
    ∃ w, Db.openDir sizing disk = .ok { world := w } ∧ Serves w v root := by
  obtain ⟨w, hw, hserves⟩ := openTree_serves sizing H hpos hr
  refine ⟨w, ?_, hserves⟩
  unfold Db.openDir
  rcases hw.undisturbed with ⟨_, w', hx, -, rfl⟩ | ⟨e, w', s, -, ⟨i, hi⟩, -⟩
  · rw [hx]
  · cases hi

/-- In a tidy world the directory has the nodes of the tree, but for the root's buffer. -/
theorem Tidy.has (T : Tidy u (some u.rest.root)) {n₀ : SSTNode}
    (hf : (u.cell u.rest.root).file = some n₀) (hid : n₀.id = u.rest.root) :
    u.disk.Has (Function.update u.view u.rest.root (some n₀.loaded)) u.rest.root := by
  obtain ⟨r, hr⟩ : ∃ r, u.view u.rest.root = some r := T.sound.root_some
  refine ⟨?_, fun {x n} hx => ?_⟩
  · obtain ⟨m, hm, hroot, -, hvalid, hplace⟩ := T.saved
    refine ⟨m, hm, hroot, fun x hx => ?_⟩
    obtain ⟨q, hq, hv⟩ := (hvalid x).mpr (by
      by_cases hxr : x = u.rest.root
      · rw [hxr, show (u.cell u.rest.root).node = some r from hr]
        simp
      · rwa [Function.update_of_ne hxr] at hx)
    exact ⟨q, hq, hv, (hplace x q hq).1⟩
  · by_cases hxr : x = u.rest.root
    · subst hxr
      rw [Function.update_self] at hx
      exact ⟨n₀, hf, hid, Option.some.inj hx⟩
    · rw [Function.update_of_ne hxr] at hx
      obtain ⟨n₁, hn₁, hn⟩ := T.filed.file (n := n) hx
      have hload : n₁.loaded = n := hn.resolve_right fun hlag => hxr (Option.some.inj hlag.1).symm
      have hxid : n.id = x := (T.sound.shape.mem_row hx).2.2
      exact ⟨n₁, hn₁, by rw [← hxid, ← hload, loaded_id], hload⟩

/-- With another root, `get` looks into that, then below it as before. -/
theorem Serves.get_eq {v : World} {t : Tree} {r n₀ : SSTNode} (S : t.Sound)
    (hr : t.view t.root = some r) (hid : n₀.id = t.root) (hl : n₀.level = r.level)
    (hk : n₀.childIds = r.childIds)
    (hv : Serves v (Function.update t.view t.root (some n₀.loaded)) t.root) (k : Bytes) :
    Db.get { world := v } k =
      .ok (((n₀.get k).or (t.view.below k t.height t.root)).bind Entry.shown) := by
  have hshape : Shape (Function.update t.view t.root (some n₀.loaded)) t.root t.height :=
    S.update_shape hr hid hl hk
  have hat : Function.update t.view t.root (some n₀.loaded) t.root = some n₀.loaded :=
    Function.update_self ..
  have hbelow : View.below (Function.update t.view t.root (some n₀.loaded)) k t.height t.root =
      t.view.below k t.height t.root :=
    View.below_congr S.shape (fun x hx => Function.update_of_ne hx _ _)
      ((View.kids_some hat).trans (hk.trans (View.kids_some hr).symm)) k
  refine (getFromTree_serves hshape hv k).trans ?_
  refine congrArg (fun r : Option Entry => Except.ok (r.bind Entry.shown)) ?_
  rw [View.firstVersion_route hat k, hbelow]
  rfl

/-- The files of a settled world have what the nodes hold. -/
theorem Settled.file (hu : Settled u) {x : NodeId} {n : SSTNode} (hx : u.view x = some n) :
    ∃ n₀, (u.cell x).file = some n₀ ∧ n₀.buffer = n.buffer := by
  rcases hu with T | ⟨T, r, hr, hb⟩
  · obtain ⟨n₀, hf, h | ⟨h, -⟩⟩ := T.filed.file (n := n) hx
    · exact ⟨n₀, hf, congrArg (·.buffer) h⟩
    · cases h
  · obtain ⟨n₀, hf, h | ⟨hroot, h⟩⟩ := T.filed.file (n := n) hx
    · exact ⟨n₀, hf, congrArg (·.buffer) h⟩
    · -- a file that is behind an empty buffer
      rw [Option.some.inj hroot, hx] at hr
      cases hr
      refine ⟨n₀, hf, ?_⟩
      rw [hb]
      exact List.eq_nil_of_subset_nil (hb ▸ h.buffer)

/-- What is settled is on disk: a session on the directory serves a root with the same
buffer. -/
theorem Settled.opens (sizing : Sizing) (hu : Settled u) :
    ∃ (v : World) (r n₀ : SSTNode), Db.openDir sizing u.disk = .ok { world := v } ∧
      u.view u.rest.root = some r ∧ n₀.id = u.rest.root ∧ n₀.level = r.level ∧
      n₀.childIds = r.childIds ∧ n₀.buffer = r.buffer ∧
      Serves v (Function.update u.view u.rest.root (some n₀.loaded)) u.rest.root := by
  obtain ⟨r, hr⟩ : ∃ r, u.view u.rest.root = some r := hu.tidy.sound.root_some
  obtain ⟨n₀, hf, hid, hl, hk, -⟩ := hu.tidy.root_file hr
  obtain ⟨v, hopen, hv⟩ :=
    openDir_serves sizing (hu.tidy.has hf hid) hu.tidy.sound.rootPos (Function.update_self ..)
  obtain ⟨n₁, hf₁, hb⟩ := hu.file hr
  rw [hf] at hf₁
  cases hf₁
  exact ⟨v, r, n₀, hopen, hr, hid, hl, hk, hb, hv⟩

end Open

/-! ## The directory the destructor leaves -/

/-- The root buffer once the write buffer is merged in. -/
def Db.rootBuffer (db : Db) (n : SSTNode) : List Entry :=
  stableSort (n.buffer ++ db.writeBuf.entries)

/-- What the destructor leaves on disk: the old tree, and a file of the root in which every
key has the version it has in the merged buffer. -/
theorem Db.close_disk (db : Db) (T : Tidy db.world (some db.world.rest.root)) {n : SSTNode}
    (hn : db.world.view db.world.rest.root = some n) :
    ∃ u n₀, db.close = u.disk ∧ Tidy u (some u.rest.root) ∧
      u.rest.root = db.world.rest.root ∧
      (∀ x, x ≠ db.world.rest.root → u.view x = db.world.view x) ∧
      (u.cell u.rest.root).file = some n₀ ∧ n₀.id = db.world.rest.root ∧ n₀.level = n.level ∧
      n₀.childIds = n.childIds ∧ ∀ k, n₀.get k = lookupSorted (db.rootBuffer n) k := by
  obtain ⟨w, es, hw, hes⟩ : ∃ w es, w = db.world ∧ es = db.writeBuf.entries := ⟨_, _, rfl, rfl⟩
  unfold Db.close Db.closed Db.rootBuffer
  rw [← hes]
  rw [← hw] at T hn ⊢
  have hmerged : (w.merged es).view w.rest.root =
      some { n with buffer := stableSort (n.buffer ++ es) } := node_merged hn
  have hother : ∀ x, x ≠ w.rest.root → (w.merged es).view x = w.view x := by
    intro x hx
    rw [World.view, cell_merged_other hx]
    rfl
  have hroot : (w.merged es).rest.root = w.rest.root := by rw [rest_merged]
  have T₁ : Tidy (w.merged es) (some (w.merged es).rest.root) := by
    rw [hroot]
    exact T.merged
  have hruns := persistRoot_runs T es hmerged
  have hexec : ∀ u, Act.exec (persistRoot es) ⟨w, none⟩ = u →
      Act.exec (catchAll (destroyTree es)) ⟨w, none⟩ = u := by
    intro u hu
    have hdestroy : destroyTree es ⟨w, none⟩ = persistRoot es ⟨w, none⟩ := by
      have hne : w.manifest.rootId ≠ invalidNodeId := Nat.pos_iff_ne_zero.mp T.sound.rootPos
      show (if w.manifest.rootId ≠ invalidNodeId then persistRoot es else pure ()) ⟨w, none⟩ = _
      rw [if_pos hne]
    rw [← hu]
    unfold Act.exec catchAll Act.swallow
    rw [hdestroy]
    rcases hruns.undisturbed with ⟨a, v, hx, -⟩ | ⟨e, v, s, -, ⟨k, hk⟩, -⟩
    · rw [hx]
    · cases hk
  have hclose := hexec _ hruns.exec_eq
  obtain ⟨n₁, hn₁⟩ : ∃ m : SSTNode, m = { n with buffer := stableSort (n.buffer ++ es) } := ⟨_, rfl⟩
  rw [← hn₁] at hclose hmerged
  have hid₁ : n₁.id = w.rest.root := by
    rw [hn₁]
    exact (T.sound.shape.mem_row hn).2.2
  by_cases hb : n₁.buffer ≠ []
  · rw [if_pos hb] at hclose
    obtain ⟨T₂, -⟩ := T₁.rewrite_root (n := n₁) (by rw [hroot]; exact hmerged)
    have hcell := cell_rewrite (w := w.merged es) hmerged hid₁
    have hrest := rest_rewrite (w := w.merged es) hid₁
    rw [hroot] at T₂
    refine ⟨((w.merged es).rewrite w.rest.root n₁).saved, n₁.prepare (w.merged es).rest.sizing,
      congrArg (·.disk) hclose, (T₂.filed.tidy_saved T₂.sound).lag _, ?_, fun x hx => ?_, ?_, ?_, ?_, ?_,
      fun k => ?_⟩
    · rw [World.rest_saved, hrest, hroot]
    · rw [World.view, World.cell_saved, hcell, if_neg hx]
      exact hother x hx
    · rw [World.cell_saved, World.rest_saved, hrest, hroot, hcell, if_pos rfl]
    · rw [prepare_id, hid₁]
    · rw [hn₁]
      rfl
    · rw [hn₁]
      rfl
    · show lookupSorted (sortBuffer n₁.buffer) k = _
      rw [hn₁, lookupSorted_sortBuffer (sorted_stableSort _)]
  · -- nothing to write: the file may hold an older buffer, but then it is empty as well
    rw [if_neg hb] at hclose
    have hb := not_not.mp hb
    obtain ⟨n₀, hf, hid, hl, hk, hn₀⟩ := T₁.root_file (r := n₁) (by rw [hroot]; exact hmerged)
    have hempty : n₀.buffer = [] := by
      rcases hn₀ with h | h
      · rw [← h] at hb
        exact hb
      · exact List.eq_nil_of_subset_nil (hb ▸ h.buffer)
    refine ⟨w.merged es, n₀, congrArg (·.disk) hclose, T₁, hroot, hother, hf, hid.trans hroot, ?_, ?_,
      fun k => ?_⟩
    · rw [hl, hn₁]
    · rw [hk, hn₁]
    · have hb₁ : stableSort (n.buffer ++ es) = [] := by
        rw [hn₁] at hb
        exact hb
      rw [SSTNode.get, hempty, hb₁]

/-! ## Reads before and after -/

section Reads

variable {db : Db} {n : SSTNode}

/-- **`get`** looks into the write buffer, then into the root, then below it. -/
theorem Db.get_eq (T : Tidy db.world (some db.world.rest.root))
    (hn : db.world.view db.world.rest.root = some n) (k : Bytes) :
    db.get k = .ok (((db.writeBuf.findKey k).or ((n.get k).or
      (db.world.view.below k db.world.tree.height db.world.rest.root))).bind Entry.shown) := by
  unfold Db.get
  cases hk : db.writeBuf.findKey k with
  | some e => rfl
  | none =>
    rw [Option.none_or, getFromTree_serves T.sound.shape T.serves k]
    exact congrArg (fun r => Except.ok (r.bind Entry.shown)) (View.firstVersion_route hn k _)

/-- **After closing and opening** it looks into the merged root buffer, then below it. -/
theorem Db.reopen_eq (T : Tidy db.world (some db.world.rest.root))
    (hn : db.world.view db.world.rest.root = some n) :
    ∃ db', db.reopen = .ok db' ∧ ∀ k, db'.get k =
      .ok (((lookupSorted (db.rootBuffer n) k).or
        (db.world.view.below k db.world.tree.height db.world.rest.root)).bind Entry.shown) := by
  obtain ⟨u, n₀, hclose, hT, hroot, hother, hf, hid, hl, hk, hget⟩ := db.close_disk T hn
  obtain ⟨v, hv, hserves⟩ := openDir_serves db.world.sizing (hT.has hf (hid.trans hroot.symm))
    hT.sound.rootPos (Function.update_self ..)
  refine ⟨{ world := v }, ?_, fun k => ?_⟩
  · unfold Db.reopen
    rw [hclose]
    exact hv
  · -- the view that is served is the old one with another root
    have hview : Function.update u.view u.rest.root (some n₀.loaded) =
        Function.update db.world.view db.world.rest.root (some n₀.loaded) := by
      rw [hroot]
      funext x
      by_cases hx : x = db.world.rest.root
      · rw [hx, Function.update_self, Function.update_self]
      · rw [Function.update_of_ne hx, Function.update_of_ne hx, hother x hx]
    rw [hview, hroot] at hserves
    rw [Serves.get_eq T.sound hn hid hl hk hserves k, hget]
    rfl

end Reads

end GravTree
