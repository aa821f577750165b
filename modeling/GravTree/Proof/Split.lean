import GravTree.Calls
import GravTree.Proof.Climb
import GravTree.Proof.Halved

/-!
# Splitting

`split_leaf` and `insert_child` make one split step for each node they cut. Between
two of them the parent still names the node that was cut: `World.linked` is the tree
that it should name, and that is the tree the steps lead to.
-/

namespace GravTree

open Forest

/-- The tree in memory once every parent of `x` names `a` and `b` instead. -/
def World.linked (w : World) (x a b : NodeId) : Tree :=
  ⟨fun y => (w.view y).map (relink x a b), w.rest.root, w.rest.next⟩

section Linked

variable (w : World) (x a b : NodeId)

theorem linked_view (y : NodeId) :
    (w.linked x a b).view y = (w.view y).map (relink x a b) := rfl

theorem linked_root : (w.linked x a b).root = w.rest.root := rfl

theorem linked_next : (w.linked x a b).next = w.rest.next := rfl

variable {w} in
theorem linked_congr {u : World} (h : u.tree = w.tree) : u.linked x a b = w.linked x a b :=
  congrArg (fun t : Tree => (⟨fun y => (t.view y).map (relink x a b), t.root, t.next⟩ : Tree)) h

end Linked

namespace Halved

variable {w u u' : World} {t : Tree} {x : NodeId} {n na nb : SSTNode} {L R : List Entry}

/-- The halves do not name `x`. -/
theorem notMem (hh : Halves t.view x na.id nb.id n na nb L R) (S : t.Sound) :
    x ∉ na.childIds ∧ x ∉ nb.childIds := by
  have hx : x ∉ na.childIds ++ nb.childIds := by
    rw [hh.kids]
    exact fun h => S.kid_ne hh.here h rfl
  simpa using hx

/-- A node below the root is split once its parent names the halves. -/
theorem splits (K : Halved w u x na nb) (S : t.Sound)
    (hh : Halves t.view x na.id nb.id n na nb L R) (ht : ∀ y, y ≠ x → t.view y = w.view y)
    (hroot : t.root = w.rest.root) (hnext : t.next = w.rest.next) (hx : x ≠ t.root) :
    Splits t (u.linked x na.id nb.id) x na.id nb.id n na nb L R where
  toHalves := hh
  fresh_a := by
    rw [K.id_a, hnext]
    refine ⟨le_rfl, ?_⟩
    rw [linked_next, K.rest]
    exact Nat.lt_add_of_pos_right (by decide)
  fresh_b := by
    rw [K.id_b, hnext]
    refine ⟨Nat.le_succ _, ?_⟩
    rw [linked_next, K.rest]
    exact Nat.lt_succ_self _
  ne := by
    rw [K.id_a, K.id_b]
    exact (Nat.lt_succ_self _).ne
  at_a := by
    rw [linked_view, K.view_a]
    exact congrArg some (relink_eq_self (notMem hh S).1)
  at_b := by
    rw [linked_view, K.view_b]
    exact congrArg some (relink_eq_self (notMem hh S).2)
  gone := by
    rw [linked_view, K.view_x]
    rfl
  root := .inl ⟨hx, by rw [hroot, linked_root, K.rest]⟩
  other y hyx hya hyb _ := by
    rw [linked_view, K.view hyx hya hyb, ht y hyx]

/-- The root is split once there is a new root over the halves. -/
theorem splits_root (K : Halved w u x na nb) (S : t.Sound)
    (hh : Halves t.view x na.id nb.id n na nb L R) (ht : ∀ y, y ≠ x → t.view y = w.view y)
    (hnext : t.next = w.rest.next) (hx : x = t.root)
    (G : Grown u u' (n.level + 1) na.id nb.id) :
    Splits t u'.tree x na.id nb.id n na nb L R := by
  have hun : u.rest.next = w.rest.next + 2 := by rw [K.rest]
  have hun' : u'.rest.next = w.rest.next + 3 := by rw [G.rest, hun]
  have hur : u'.rest.root = w.rest.next + 2 := by rw [G.rest, hun]
  have hxn : x < w.rest.next := hnext ▸ S.below hh.here
  obtain ⟨r, n₀, hid, hlev, hk, hb, -, hcell⟩ := G.at_root
  have hna : na.id ≠ u.rest.next := by
    rw [K.id_a, hun]
    exact (Nat.lt_add_of_pos_right (by decide)).ne
  have hnb : nb.id ≠ u.rest.next := by
    rw [K.id_b, hun]
    exact (Nat.lt_succ_self _).ne
  refine ⟨hh, ?_, ?_, ?_, ?_, ?_, ?_, .inr ⟨hx, ?_, ?_, ?_, ?_, r, ?_, ?_, hlev, hk, hb⟩, ?_⟩
  · rw [K.id_a, hnext]
    refine ⟨le_rfl, ?_⟩
    show _ < u'.rest.next
    rw [hun']
    exact Nat.lt_add_of_pos_right (by decide)
  · rw [K.id_b, hnext]
    refine ⟨Nat.le_succ _, ?_⟩
    show _ < u'.rest.next
    rw [hun']
    exact Nat.add_lt_add_left (by decide) _
  · rw [K.id_a, K.id_b]
    exact (Nat.lt_succ_self _).ne
  · exact (G.view hna).trans K.view_a
  · exact (G.view hnb).trans K.view_b
  · refine (G.view ?_).trans K.view_x
    rw [hun]
    exact (hxn.trans (Nat.lt_add_of_pos_right (by decide))).ne
  · show t.next ≤ u'.rest.root
    rw [hnext, hur]
    exact Nat.le_add_right ..
  · show u'.rest.root < u'.rest.next
    rw [hur, hun']
    exact Nat.lt_succ_self _
  · show u'.rest.root ≠ na.id
    rw [hur, ← hun]
    exact hna.symm
  · show u'.rest.root ≠ nb.id
    rw [hur, ← hun]
    exact hnb.symm
  · show (u'.cell u'.rest.root).node = _
    rw [hur, ← hun, hcell]
  · show r.id = u'.rest.root
    rw [hid, hur, hun]
  · intro y hyx hya hyb hyr
    have hyr : y ≠ u.rest.next := by
      have := hyr hx
      rwa [show u'.tree.root = u.rest.next by rw [hun]; exact hur] at this
    show u'.view y = _
    rw [G.view hyr, K.view hyx hya hyb, ← ht y hyx]
    cases hy : t.view y with
    | none => rfl
    | some m =>
      have hxm : x ∉ m.childIds := hx ▸ S.shape.root_notMem_kids hy
      exact congrArg some (relink_eq_self hxm).symm

end Halved

/-! ## The way from the root -/

/-- What `path_to` finds below `id`. -/
def Ends (v : View) (target id : NodeId) (path : List NodeId) : Prop :=
  path.length = 1 ∧ id = target ∨ 2 ≤ path.length ∧ id ≠ target ∧
    ∃ m, v (path.getD (path.length - 2) invalidNodeId) = some m ∧ target ∈ m.childIds

theorem Ends.cons {v : View} {target id c : NodeId} {n : SSTNode} {path : List NodeId}
    (h : Ends v target c path) (hn : v id = some n) (hc : c ∈ n.childIds) (hne : id ≠ target) :
    Ends v target id (id :: path) := by
  rcases h with ⟨hlen, rfl⟩ | ⟨hlen, -, m, hm, hmc⟩
  · refine .inr ⟨by simp [hlen], hne, n, ?_, hc⟩
    simpa [hlen] using hn
  · refine .inr ⟨by simp; omega, hne, m, ?_, hmc⟩
    rw [List.length_cons, show path.length + 1 - 2 = path.length - 2 + 1 by omega]
    exact hm

section Dfs

variable {v : View} {root target : NodeId} {h : Nat} {w : World}

theorem firstPath_reads {dfs : NodeId → M (Option (List NodeId))} {n : SSTNode}
    (hdfs : ∀ c ∈ n.childIds, ∃ r, Act.Reads (dfs c) w r ∧
      r.elim (∀ d, target ∉ v.row c d) (Ends v target c)) :
    ∀ ks ⊆ n.childIds, ∃ r, Act.Reads (firstPath dfs ks) w r ∧
      r.elim (∀ c ∈ ks, ∀ d, target ∉ v.row c d)
        (fun path => ∃ c ∈ n.childIds, Ends v target c path) := by
  intro ks
  induction ks with
  | nil => exact fun _ => ⟨none, Act.Runs.pure none w, by simp⟩
  | cons c ks ih =>
    intro hsub
    obtain ⟨hc, hks⟩ := List.cons_subset.mp hsub
    obtain ⟨r, hr, hres⟩ := hdfs c hc
    cases r with
    | some path => exact ⟨some path, hr.bind (Act.Runs.pure _ w), c, hc, hres⟩
    | none =>
      obtain ⟨r, hr', hres'⟩ := ih hks
      refine ⟨r, hr.bind hr', ?_⟩
      cases r with
      | some path => exact hres'
      | none => exact List.forall_mem_cons.mpr ⟨hres, hres'⟩

/-- The search below `id` finds the way to `target`, or `target` is not below `id`. It
never looks below `target`. -/
theorem dfs_reads (S : Shape v root h) (hw : ∀ y, y ≠ target → w.view y = v y) :
    ∀ (fuel : Nat) (id : NodeId) (n : SSTNode), v id = some n → n.level < fuel →
      ∃ r, Act.Reads (dfs target fuel id) w r ∧
        r.elim (∀ d, target ∉ v.row id d) (Ends v target id) := by
  intro fuel
  induction fuel with
  | zero => exact fun _ _ _ h => absurd h (Nat.not_lt_zero _)
  | succ fuel ih =>
    intro id n hid hlt
    unfold dfs
    by_cases ht : id = target
    · rw [if_pos ht]
      exact ⟨some [id], Act.Runs.pure _ w, .inl ⟨rfl, ht⟩⟩
    rw [if_neg ht]
    obtain ⟨r, hr, hres⟩ := firstPath_reads (fun c hc => by
      obtain ⟨m, hm, -, hl⟩ := S.child_mem hid hc
      exact ih c m hm (by omega)) n.childIds (List.Subset.refl _)
    refine ⟨r.map (id :: ·), (getNode_reads ((hw id ht).trans hid)).bind
      (hr.bind (Act.Runs.pure _ w)), ?_⟩
    cases r with
    | some path =>
      obtain ⟨c, hc, hends⟩ := hres
      exact hends.cons hid hc ht
    | none =>
      intro d hd
      cases d with
      | zero => exact ht (List.mem_singleton.mp hd).symm
      | succ d =>
        obtain ⟨c, hc, hcd⟩ := mem_level_succ_iff_kids.mp hd
        rw [View.kids_some hid] at hc
        exact hres c hc d hcd

theorem height_of_root {r : SSTNode} (h : w.view w.rest.root = some r) :
    w.height = r.level + 1 := by
  change w.cache.lookup w.manifest.rootId = some r at h
  rw [World.height, h]

/-- **`path_to`** finds every node. -/
theorem pathTo_reads {t : Tree} {n : SSTNode} (S : t.Sound)
    (hw : ∀ y, y ≠ target → w.view y = t.view y) (hroot : w.rest.root = t.root)
    (hh : w.height = t.height + 1) (hn : t.view target = some n) :
    ∃ path, Act.Reads (pathTo target) w path ∧ Ends t.view target t.root path := by
  obtain ⟨r, hr, -, hl⟩ := S.shape.root_some
  obtain ⟨res, hres, hends⟩ := dfs_reads S.shape hw w.height t.root r hr (by omega)
  obtain ⟨d, hd⟩ := S.shape.all hn
  cases res with
  | none => exact absurd hd (hends d)
  | some path =>
    refine ⟨path, Act.Runs.world_bind (Act.Reads.bind (a := some path) ?_ (Act.Runs.pure _ w)),
      hends⟩
    rw [show w.manifest.rootId = t.root from hroot]
    exact hres

end Dfs

/-! ## The parent -/

theorem replaceChild_eq_flatMap {x : NodeId} (a b : NodeId) {l : List NodeId} (h : l.Nodup) :
    replaceChild x a b l = l.flatMap (splitAt x a b) := by
  induction l with
  | nil => rfl
  | cons y ys ih =>
    obtain ⟨hy, hys⟩ := List.nodup_cons.mp h
    rw [replaceChild, List.flatMap_cons]
    split
    · rename_i hyx
      subst hyx
      rw [splitAt_self, flatMap_splitAt_of_notMem hy]
      rfl
    · rename_i hyx
      rw [splitAt_ne a b hyx, ih hys]
      rfl

theorem nodup_of_flatMap_splitAt {x a b : NodeId} {l : List NodeId}
    (h : (l.flatMap (splitAt x a b)).Nodup) : l.Nodup := by
  induction l with
  | nil => exact List.nodup_nil
  | cons y ys ih =>
    rw [List.flatMap_cons, List.nodup_append'] at h
    obtain ⟨-, hys, hdisj⟩ := h
    refine List.nodup_cons.mpr ⟨fun hy => ?_, ih hys⟩
    by_cases hyx : y = x
    · subst hyx
      exact hdisj (show a ∈ splitAt y a b y by simp) (mem_flatMap_splitAt.mpr (.inr ⟨hy, .inl rfl⟩))
    · exact hdisj (show y ∈ splitAt x a b y by simp [splitAt_ne a b hyx])
        (mem_flatMap_splitAt.mpr (.inl ⟨hy, hyx⟩))

/-- Changing memory keeps a world inside its restructuring. -/
theorem Mid.modifyNode {w₀ w : World} (S : w₀.tree.Sound) (M : Mid w₀ w) (x : NodeId)
    (f : SSTNode → SSTNode) : Mid w₀ (w.modifyNode x f) := by
  refine M.step S (fun y _ hv => ?_) (fun y _ => ?_) (by rw [World.rest_modifyNode])
    (by rw [World.rest_modifyNode]; exact id)
  · rw [Cell.Valid, World.cell_modifyNode]
    split <;> exact hv
  · rw [World.cell_modifyNode]
    split <;> rfl

theorem LeadsTo.suffix {w : World} {t : Tree} {log : List SplitCall} (h : LeadsTo w t log) :
    ∃ l, log = l ++ w.rest.splits := by
  obtain ⟨cs, -, hl⟩ := h
  exact ⟨cs, hl⟩

theorem LeadsTo.next {w : World} {t : Tree} {log : List SplitCall} (h : LeadsTo w t log)
    (S : w.tree.Sound) : w.rest.next ≤ t.next := by
  obtain ⟨_, hs, -⟩ := h
  exact (hs.stable S).next

/-- The end of a restructuring that climbed from `p` in `t`: everything is written but the
manifest. -/
structure Written (d : Prop) (w₀ : World) (t : Tree) (p : NodeId) (log : List SplitCall)
    (u : World) : Prop where
  filed : Filed u none
  lead : LeadsTo w₀ u.tree u.rest.splits
  stop : d → Mid w₀ u ∨ Saved u
  splits : u.rest.splits = log
  climbs : ∃ xs, Climbs t p xs u.tree

/-- **Finishing a parent** whose children have changed in memory. -/
theorem finishParent_spec {w₀ w : World} {d : Prop} {p : NodeId} {n n₀ : SSTNode}
    (S : w₀.tree.Sound) (M : d → Mid w₀ w) (hlead : LeadsTo w₀ w.tree w.rest.splits) (hp : w.view p = some n)
    (hl : n.level ≠ 0) (hfan : n.childIds.length ≤ maxFanout)
    (hF : ∀ y, y ≠ p → (w.cell y).Filed y w.rest.next none)
    (h₀ : (w.cell p).file = some n₀) (hne : n₀.childIds ≠ n.childIds) :
    Act.Spec (finishParent p) w (fun _ => Written d w₀ w.tree p w.rest.splits)
      (Stopped fun v => d → Halt w₀ v) := by
  have Sw := hlead.sound S
  have hid : n.id = p := (Sw.shape.mem_row hp).2.2
  have hkids : n.childIds ≠ [] := List.ne_nil_of_mem (Sw.headKid hp hl)
  obtain ⟨w₁, hw₁⟩ : ∃ v, v = w.modifyNode p ({ · with keyRange := w.view.span n }) := ⟨_, rfl⟩
  obtain ⟨n₁, hn₁⟩ : ∃ m, m = ({ n with keyRange := w.view.span n } : SSTNode) := ⟨_, rfl⟩
  have hp₁ : (w₁.cell p).node = some n₁ := by
    rw [hw₁, World.cell_modifyNode, if_pos rfl, hn₁]
    exact congrArg (Option.map _) hp
  have hid₁ : n₁.id = p := by rw [hn₁]; exact hid
  have hcell₁ : ∀ y, y ≠ p → w₁.cell y = w.cell y := fun y hy => by
    rw [hw₁, World.cell_modifyNode, if_neg hy]
  have hfile₁ : (w₁.cell p).file = some n₀ := by
    rw [hw₁, World.cell_modifyNode, if_pos rfl]
    exact h₀
  have hrest₁ : w₁.rest = w.rest := by rw [hw₁, World.rest_modifyNode]
  have M₁ : d → Mid w₀ w₁ := fun hd => hw₁ ▸ (M hd).modifyNode S p _
  have M₂ : d → Mid w₀ (w₁.rewrite p n₁) := fun hd =>
    mid_rewrite (M₁ hd) hp₁ hid₁ hfile₁ (by rw [hn₁]; exact hne)
  have hcell : ∀ y, (w₁.rewrite p n₁).cell y = if y = p then
      ⟨some (flushed w₁.rest.sizing n₁), some { id := p, level := n₁.level, filePath := ⟨p⟩ },
        some (n₁.prepare w₁.rest.sizing)⟩ else w.cell y := by
    intro y
    rw [cell_rewrite hp₁ hid₁]
    split
    · rfl
    · rename_i hy
      exact hcell₁ y hy
  have hrest : (w₁.rewrite p n₁).rest =
      { w.rest with effects := (w₁.rewrite p n₁).rest.effects } := by
    rw [rest_rewrite hid₁, hrest₁]
  have hroot : (w₁.rewrite p n₁).rest.root = w.rest.root := by rw [hrest]
  have hnext : (w₁.rewrite p n₁).rest.next = w.rest.next := by rw [hrest]
  have hrev : Revises w.tree (w₁.rewrite p n₁).tree p n (flushed w₁.rest.sizing n₁) := by
    refine ⟨hp, hid₁, by rw [hn₁]; rfl, by rw [hn₁]; rfl, by rw [hn₁]; rfl,
      fun _ => ⟨hl, ?_⟩, ?_, hroot, hnext.ge⟩
    · have hspan : n₁.keyRange.minKey = w.view.headMin n₁ := by rw [hn₁]; rfl
      exact fenced_flushed _ hspan
    · funext y
      show ((w₁.rewrite p n₁).cell y).node = Function.update w.view p _ y
      rw [hcell, Function.update_apply]
      split <;> rfl
  have hfiled : Filed (w₁.rewrite p n₁) none := by
    rw [filed_iff]
    intro y
    rw [hcell, hrest]
    split
    · rename_i hy
      subst hy
      exact .written (by rw [hn₁]; exact hfan) (by rw [flushed_filePath, hid₁]) rfl rfl (Sw.below hp)
    · rename_i hy
      exact hF y hy
  have hsplits : (w₁.rewrite p n₁).rest.splits = w.rest.splits := by rw [hrest]
  unfold finishParent
  refine (getNode_reads hp).spec_bind ?_
  rw [if_pos hkids]
  refine (spanKeyRange_reads hkids fun c hc => ?_).spec_bind ?_
  · obtain ⟨m, hm, -, -⟩ := Sw.shape.child_mem hp hc
    exact ⟨m, hm⟩
  refine Act.Spec.update_bind ?_
  rw [← hw₁]
  refine Act.Spec.mono (rewrite_runs hp₁ hid₁ (H := fun v => d → Halt w₀ v) ?_) ?_
    fun e u h => h
  · refine fun hd => Going.halt ⟨.inr ((M₁ hd).modifyNode S p _), ?_⟩
    rw [World.rest_modifyNode, hrest₁]
    exact hlead.suffix
  · rintro _ u ⟨-, rfl⟩
    refine ⟨hfiled, ?_, fun hd => .inl (M₂ hd), hsplits, [], .room hrev hfan⟩
    rw [hsplits]
    exact hlead.step (.revise hrev)

/-! ## `insert_child` -/

/-- Inside a split: `x` was replaced by `a` and `b`, and only its parent is behind. -/
structure Pending (d : Prop) (w₀ w : World) (x a b : NodeId) : Prop where
  lead : LeadsTo w₀ (w.linked x a b) w.rest.splits
  filed : Filed w none
  mid : d → Mid w₀ w

section Linked

variable {w : World} {x a b : NodeId}

theorem linked_some {y : NodeId} {m : SSTNode} (h : (w.linked x a b).view y = some m) :
    ∃ m₀, w.view y = some m₀ ∧ relink x a b m₀ = m :=
  Option.map_eq_some_iff.mp h

theorem linked_minKey (y : NodeId) : (w.linked x a b).view.minKey y = w.view.minKey y := by
  rw [View.minKey, View.minKey, linked_view]
  cases w.view y <;> rfl

theorem linked_headMin (n : SSTNode) : (w.linked x a b).view.headMin n = w.view.headMin n :=
  linked_minKey _

theorem linked_height : (w.linked x a b).height = (w.view w.rest.root).elim 0 (·.level) := by
  rw [Tree.height, linked_view, linked_root]
  cases w.view w.rest.root <;> rfl

/-- Only the parent is behind. -/
theorem linked_view_other (S : (w.linked x a b).Sound) {p : NodeId} {n : SSTNode}
    (hp : w.view p = some n) (hx : x ∈ n.childIds) {y : NodeId} (hy : y ≠ p) :
    (w.linked x a b).view y = w.view y := by
  rw [linked_view]
  cases hm : w.view y with
  | none => rfl
  | some m =>
    refine congrArg some (relink_eq_self fun hxm => hy ?_)
    have hn' : (w.linked x a b).view p = some (relink x a b n) := by rw [linked_view, hp]; rfl
    have hm' : (w.linked x a b).view y = some (relink x a b m) := by rw [linked_view, hm]; rfl
    exact S.shape.parent_unique hm' hn' (mem_flatMap_splitAt.mpr (.inr ⟨hxm, .inl rfl⟩))
      (mem_flatMap_splitAt.mpr (.inr ⟨hx, .inl rfl⟩))

end Linked

/-- A parent with room takes both. -/
theorem insertChild_room {w₀ w : World} {d : Prop} {p x a b : NodeId} {n : SSTNode}
    (S : w₀.tree.Sound) (P : Pending d w₀ w x a b) (hp : w.view p = some n) (hx : x ∈ n.childIds)
    (hlt : n.childIds.length < maxFanout) :
    Act.Spec (finishParent p) (w.modifyNode p fun q =>
        { q with childIds := replaceChild x a b q.childIds })
      (fun _ => Written d w₀ (w.linked x a b) p w.rest.splits)
      (Stopped fun v => d → Halt w₀ v) := by
  have Sv := P.lead.sound S
  have hp' : (w.linked x a b).view p = some (relink x a b n) := by rw [linked_view, hp]; rfl
  have hnd : n.childIds.Nodup := nodup_of_flatMap_splitAt (Sv.shape.kids_nodup hp')
  have hlen := length_flatMap_splitAt a b hx hnd
  have hl : n.level ≠ 0 := by
    intro h0
    have := (Sv.shape.fit hp').2 h0
    rw [show (relink x a b n).childIds = n.childIds.flatMap (splitAt x a b) from rfl] at this
    rw [this] at hlen
    simp at hlen
  obtain ⟨w₁, hw₁⟩ : ∃ v, v = w.modifyNode p fun q =>
    { q with childIds := replaceChild x a b q.childIds } := ⟨_, rfl⟩
  have hcell₁ : ∀ y, y ≠ p → w₁.cell y = w.cell y := fun y hy => by
    rw [hw₁, World.cell_modifyNode, if_neg hy]
  have hrest₁ : w₁.rest = w.rest := by rw [hw₁, World.rest_modifyNode]
  have hp₁ : w₁.view p = some (relink x a b n) := by
    show (w₁.cell p).node = _
    rw [hw₁, World.cell_modifyNode, if_pos rfl]
    show (w.view p).map _ = _
    rw [hp, Option.map_some, replaceChild_eq_flatMap a b hnd]
    rfl
  have htree : w₁.tree = w.linked x a b := by
    have hview : w₁.view = (w.linked x a b).view := by
      funext y
      by_cases hy : y = p
      · rw [hy, hp₁, hp']
      · rw [linked_view_other Sv hp hx hy]
        show (w₁.cell y).node = (w.cell y).node
        rw [hcell₁ y hy]
    rw [World.tree, hview, hrest₁]
    rfl
  obtain ⟨n₀, hn₀, h₀ | ⟨h₀, -⟩⟩ := P.filed.file hp
  · have hfile₁ : (w₁.cell p).file = some n₀ := by
      rw [hw₁, World.cell_modifyNode, if_pos rfl]
      exact hn₀
    have hne : n₀.childIds ≠ (relink x a b n).childIds := by
      intro h
      have hk₀ : n₀.childIds = n.childIds := by rw [← h₀]; rfl
      have := congrArg List.length (hk₀.symm.trans h)
      rw [show (relink x a b n).childIds = n.childIds.flatMap (splitAt x a b) from rfl, hlen] at this
      omega
    rw [← hw₁, ← hrest₁, ← htree]
    refine finishParent_spec S (fun hd => hw₁ ▸ (P.mid hd).modifyNode S p _) ?_ hp₁ hl ?_ ?_ hfile₁
      hne
    · rw [htree, hrest₁]
      exact P.lead
    · show (n.childIds.flatMap _).length ≤ _
      omega
    · intro y hy
      rw [hcell₁ y hy, hrest₁]
      exact filed_iff.mp P.filed y
  · cases h₀

/-- The two halves of a full parent. -/
theorem halves_full {t : Tree} {v : View} {p a b : NodeId} {n : SSTNode} {ks : List NodeId}
    (hp : t.view p = some { n with childIds := ks }) (hl : n.level ≠ 0)
    (hlen : ks.length = maxFanout + 1) (hmin : ∀ m, t.view.headMin m = v.headMin m)
    (sizing : Sizing) :
    Halves t.view p a b { n with childIds := ks }
      (spanning sizing v a n.level (n.buffer.filter fun e =>
          e.key < v.minKey ((ks.drop (ks.length / 2)).headD invalidNodeId))
        (ks.take (ks.length / 2)))
      (spanning sizing v b n.level (n.buffer.filter fun e =>
          ¬ e.key < v.minKey ((ks.drop (ks.length / 2)).headD invalidNodeId))
        (ks.drop (ks.length / 2)))
      (n.buffer.filter fun e => e.key < v.minKey ((ks.drop (ks.length / 2)).headD invalidNodeId))
      (n.buffer.filter fun e =>
        ¬ e.key < v.minKey ((ks.drop (ks.length / 2)).headD invalidNodeId)) := by
  have hlkl : (ks.take (ks.length / 2)).length = 8 := by
    rw [List.length_take, hlen]
    rfl
  have hlkr : (ks.drop (ks.length / 2)).length = 9 := by
    rw [List.length_drop, hlen]
    rfl
  generalize hkl : ks.take (ks.length / 2) = kl at *
  generalize hkr : ks.drop (ks.length / 2) = kr at *
  generalize hL : (n.buffer.filter fun e => e.key < v.minKey (kr.headD invalidNodeId)) = L
  generalize hR : (n.buffer.filter fun e => ¬ e.key < v.minKey (kr.headD invalidNodeId)) = R
  have hka := spanning_childIds sizing v a n.level L kl (by rw [hlkl]; decide)
  have hkb := spanning_childIds sizing v b n.level R kr (by rw [hlkr]; decide)
  have hfront : t.view.headMin (spanning sizing v b n.level R kr) =
      v.minKey (kr.headD invalidNodeId) := by
    rw [hmin, View.headMin, hkb]
  have hfence : ∀ id es ks, Fenced t.view (spanning sizing v id n.level es ks)
      (t.view.headMin (spanning sizing v id n.level es ks)) := by
    intro id es ks
    have h := fenced_spanning sizing v id n.level es ks
    exact ⟨by rw [hmin]; exact h.cases, by rw [hmin]; exact h.head⟩
  refine ⟨hp, rfl, rfl, rfl, rfl, ?_, ⟨fun _ => ?_, fun h => absurd h hl⟩,
    ⟨fun _ => ?_, fun h => absurd h hl⟩, fun _ => ?_, fun e => ?_, spanning_buffer ..,
    spanning_buffer .., fun h => absurd h hl, fun _ => ⟨fun e he => ?_, fun e he => ?_, hfence _ _ _, hfence _ _ _⟩,
    fun _ => by rw [hfront]; exact ⟨hL.symm, hR.symm⟩⟩
  · rw [hka, hkb, ← hkl, ← hkr, List.take_append_drop]
  · rw [hka, hlkl]
    decide
  · rw [hkb, hlkr]
    decide
  · rw [hka, hkb, hlkl, hlkr]
    decide
  · rw [← hL, ← hR]
    simp only [List.mem_filter, decide_eq_true_eq]
    tauto
  · rw [hfront]
    rw [← hL] at he
    simpa using (List.mem_filter.mp he).2
  · rw [hfront]
    rw [← hR] at he
    simpa using (List.mem_filter.mp he).2

/-- In a full parent's place two nodes are listed and put into the cache. -/
def World.exchange (w : World) (x : NodeId) (level : Nat) (na nb : SSTNode) : World :=
  (((((w.invalidateNode x).registerNode na.id level na.filePath).registerNode nb.id level
    nb.filePath).setNode na.id na).setNode nb.id nb).eraseNode x

/-- The same for a leaf, with the leaf invalidated last. -/
def World.exchangeLeaf (w : World) (x : NodeId) (na nb : SSTNode) : World :=
  (((((w.registerNode na.id 0 na.filePath).registerNode nb.id 0 nb.filePath).invalidateNode
    x).setNode na.id na).setNode nb.id nb).eraseNode x

section Exchange

variable {w u : World} {x : NodeId} {na nb : SSTNode}

theorem Drafted.paths (D : Drafted w u na nb) : na.filePath = ⟨na.id⟩ ∧ nb.filePath = ⟨nb.id⟩ := by
  obtain ⟨_, rfl, -⟩ := D.file_a
  obtain ⟨_, rfl, -⟩ := D.file_b
  exact ⟨rfl, rfl⟩

theorem Drafted.ids_ne (D : Drafted w u na nb) (hx : x < w.rest.next) :
    x ≠ na.id ∧ x ≠ nb.id ∧ na.id ≠ nb.id := by
  rw [D.id_a, D.id_b]
  exact ⟨hx.ne, (hx.trans (Nat.lt_succ_self _)).ne, (Nat.lt_succ_self _).ne⟩

theorem halved_exchange {level : Nat} (D : Drafted w u na nb) (hx : x < w.rest.next)
    (ha : na.level = level) (hb : nb.level = level) :
    Halved w (u.exchange x level na nb) x na nb := by
  obtain ⟨hpa, hpb⟩ := D.paths
  obtain ⟨hxa, hxb, hab⟩ := D.ids_ne hx
  refine D.halved hx (by simp [World.exchange]) fun y => ?_
  unfold World.exchange
  by_cases hyx : y = x
  · subst hyx
    simp [hxa, hxb]
  by_cases hya : y = na.id
  · subst hya
    simp [hyx, hab, hpa, ha]
  by_cases hyb : y = nb.id
  · subst hyb
    simp [hyx, hya, hpb, hb]
  · simp [hyx, hya, hyb]

theorem halved_exchangeLeaf (D : Drafted w u na nb) (hx : x < w.rest.next) (ha : na.level = 0)
    (hb : nb.level = 0) : Halved w (u.exchangeLeaf x na nb) x na nb := by
  obtain ⟨hpa, hpb⟩ := D.paths
  obtain ⟨hxa, hxb, hab⟩ := D.ids_ne hx
  refine D.halved hx (by simp [World.exchangeLeaf]) fun y => ?_
  unfold World.exchangeLeaf
  by_cases hyx : y = x
  · subst hyx
    simp [hxa, hxb]
  by_cases hya : y = na.id
  · subst hya
    simp [hyx, hab, hpa, ha]
  by_cases hyb : y = nb.id
  · subst hyb
    simp [hyx, hya, hpb, hb]
  · simp [hyx, hya, hyb]

end Exchange

/-- A full parent is cut, and the cut goes up. -/
theorem goUp_spec {w₀ w u : World} {d : Prop} {p x a b : NodeId} {n na nb : SSTNode}
    {L R : List Entry} {fuel : Nat} (S : w₀.tree.Sound) (P : Pending d w₀ w x a b) (hp : w.view p = some n)
    (hx : x ∈ n.childIds) (D : Drafted w u na nb)
    (hh : Halves (w.linked x a b).view p na.id nb.id (relink x a b n) na nb L R)
    (hl : n.level ≠ 0) (hfull : (relink x a b n).childIds.length = maxFanout + 1)
    (hfa : na.childIds.length ≤ maxFanout) (hfb : nb.childIds.length ≤ maxFanout)
    (hfuel : (w.linked x a b).height < n.level + fuel + 1)
    (ih : ∀ {v q m}, Pending d w₀ v p na.id nb.id → v.view q = some m → p ∈ m.childIds →
      (v.linked p na.id nb.id).height < m.level + fuel →
      Act.Spec (insertChild fuel q p na.id nb.id) v
        (fun _ => Written d w₀ (v.linked p na.id nb.id) q v.rest.splits)
        (Stopped fun v => d → Halt w₀ v)) :
    Act.Spec (pathTo p >>= fun path => invalidateNode p >>= fun _ =>
      registerNode na.id n.level na.filePath >>= fun _ =>
      registerNode nb.id n.level nb.filePath >>= fun _ =>
      setNode na.id na >>= fun _ => setNode nb.id nb >>= fun _ => eraseNode p >>= fun _ =>
      if path.length = 1 then growRoot (n.level + 1) na.id nb.id >>= fun _ => save >>= fun _ => gc
      else insertChild fuel (path.getD (path.length - 2) invalidNodeId) p na.id nb.id >>= fun _ =>
        save >>= fun _ => gc) u (fun _ => Written d w₀ (w.linked x a b) p w.rest.splits)
      (Stopped fun v => d → Halt w₀ v) := by
  have Sv := P.lead.sound S
  have hnext : w₀.rest.next ≤ w.rest.next := P.lead.next S
  have hE : ∀ (s : Stop) v, (d → Going w₀ v) →
      Stopped (fun v => d → Halt w₀ v) (.stopped s) v :=
    fun s v hv => ⟨⟨s, rfl⟩, fun hd => (hv hd).halt⟩
  have hp' : (w.linked x a b).view p = some (relink x a b n) := by rw [linked_view, hp]; rfl
  have hplt : p < w.rest.next := Sv.below hp'
  have hother : ∀ y, y ≠ p → (w.linked x a b).view y = w.view y := fun y hy =>
    linked_view_other Sv hp hx hy
  have K : Halved w (u.exchange p n.level na nb) p na nb :=
    halved_exchange D hplt hh.level_a hh.level_b
  have hsplits : (u.exchange p n.level na nb).rest.splits = w.rest.splits := by rw [K.rest]
  have hF := K.filed P.filed (fun y hy => nomatch hy) hfa hfb
  have hM : d → Mid w₀ (u.exchange p n.level na nb) := fun hd =>
    K.mid S hnext (P.mid hd).toBacked
  have hB : d → Going w₀ (u.exchange p n.level na nb) := fun hd => ⟨.inr (hM hd), by
    rw [hsplits]
    exact P.lead.suffix⟩
  have hnext' : w₀.rest.next ≤ (u.exchange p n.level na nb).rest.next := by
    rw [K.rest]
    exact hnext.trans (Nat.le_add_right ..)
  -- the way to the parent
  have hroot_u : u.rest.root = w.rest.root := by rw [D.rest]
  have hheight : u.height = (w.linked x a b).height + 1 := by
    obtain ⟨r, hr⟩ := Sv.root_some
    obtain ⟨r₀, hr₀, -⟩ := linked_some hr
    rw [linked_root] at hr₀
    rw [linked_height, hr₀]
    refine height_of_root ?_
    rw [hroot_u]
    exact (D.node _).trans hr₀
  obtain ⟨path, hpath, hends⟩ := pathTo_reads Sv
    (fun y hy => (D.node y).trans (hother y hy).symm) hroot_u hheight hp'
  refine hpath.spec_bind ?_
  refine Act.Spec.update_bind (Act.Spec.update_bind (Act.Spec.update_bind (Act.Spec.update_bind
    (Act.Spec.update_bind (Act.Spec.update_bind ?_)))))
  show Act.Spec _ (u.exchange p n.level na nb) _ _
  rcases hends with ⟨hlen, hroot⟩ | ⟨hlen, hroot, m, hm, hpm⟩
  · rw [if_pos hlen]
    obtain ⟨v, hv, G⟩ := growRoot_runs S hnext' K.view_a K.view_b hB (l := n.level + 1)
    refine hv.spec_bind hE ?_
    have hsplit := K.splits_root Sv hh hother rfl hroot.symm G
    have hs : v.rest.splits = w.rest.splits := by rw [G.rest, hsplits]
    have hlead : LeadsTo w₀ v.tree v.rest.splits := by
      rw [hs]
      exact P.lead.step (.splitNode hsplit hl)
    refine (commit_spec hlead (hlead.sound S) (G.filed hF)
      fun hd => .inl (G.mid S hnext' (hM hd))).mono ?_ fun _ _ h => h
    rintro _ v' ⟨T, hl', hs', C⟩
    refine ⟨T.filed, hl', fun _ => .inr T.saved, hs'.trans hs, [p], ?_⟩
    rw [C.tree]
    exact (Climbs.top hsplit hl hfull hroot.symm).skip C.next
  · rw [if_neg (by omega)]
    have hsplit := K.splits Sv hh hother rfl rfl hroot.symm
    have hlead : LeadsTo w₀ ((u.exchange p n.level na nb).linked p na.id nb.id)
        (u.exchange p n.level na nb).rest.splits := by
      rw [hsplits]
      exact P.lead.step (.splitNode hsplit hl)
    obtain ⟨k, hk, -, hkl⟩ := Sv.shape.child_mem hm hpm
    obtain rfl : relink x a b n = k := Option.some.inj (hp'.symm.trans hk)
    have hne := (Sv.kid_ne hm hpm).symm
    have hlt := Sv.below hm
    have hm' := K.view_old hne hlt
    rw [← hother _ hne, hm] at hm'
    have hheight' : ((u.exchange p n.level na nb).linked p na.id nb.id).height =
        (w.linked x a b).height := by
      obtain ⟨r, hr⟩ := Sv.root_some
      have hrlt : w.rest.root < w.rest.next := Sv.below hr
      have hroot' : w.rest.root ≠ p := hroot
      rw [linked_height, linked_height, K.rest, K.view_old hroot' hrlt]
    have hlevel : n.level + 1 = m.level := hkl
    refine Act.Spec.bind (ih ⟨hlead, hF, hM⟩ hm' hpm (by omega)) ?_
    · rintro _ v W
      refine (commit_spec W.lead (W.lead.sound S) W.filed W.stop).mono ?_ fun _ _ h => h
      rintro _ v' ⟨T, hl', hs', C⟩
      obtain ⟨xs, hxs⟩ := W.climbs
      refine ⟨T.filed, hl', fun _ => .inr T.saved, hs'.trans (W.splits.trans hsplits), p :: xs, ?_⟩
      rw [C.tree]
      exact Climbs.up hsplit hl hfull hm hpm (hxs.skip C.next)

/-- **`insert_child`** leads to the tree where the parent names both halves. -/
theorem insertChild_spec {w₀ : World} {d : Prop} (S : w₀.tree.Sound) : ∀ (fuel : Nat)
    {w : World} {p x a b : NodeId} {n : SSTNode}, Pending d w₀ w x a b → w.view p = some n →
    x ∈ n.childIds → (w.linked x a b).height < n.level + fuel →
    Act.Spec (insertChild fuel p x a b) w
      (fun _ => Written d w₀ (w.linked x a b) p w.rest.splits)
      (Stopped fun v => d → Halt w₀ v) := by
  intro fuel
  induction fuel with
  | zero =>
    intro w p x a b n P hp hx hlt
    have hp' : (w.linked x a b).view p = some (relink x a b n) := by rw [linked_view, hp]; rfl
    have hle := ((P.lead.sound S).shape.mem_row hp').2.1
    exact absurd (lt_of_le_of_lt hle hlt) (lt_irrefl _)
  | succ fuel ih =>
    intro w p x a b n P hp hx hlt
    unfold insertChild
    refine (getNode_reads hp).spec_bind ?_
    by_cases hroom : n.childIds.length < maxFanout
    · rw [if_pos hroom]
      exact Act.Spec.update_bind (insertChild_room S P hp hx hroom)
    rw [if_neg hroom, if_neg (not_not_intro hx)]
    have Sv := P.lead.sound S
    have hnext := P.lead.next S
    have hp' : (w.linked x a b).view p = some (relink x a b n) := by rw [linked_view, hp]; rfl
    have hid : n.id = p := (Sv.shape.mem_row hp').2.2
    have hnd : n.childIds.Nodup := nodup_of_flatMap_splitAt (Sv.shape.kids_nodup hp')
    obtain ⟨ks, hks⟩ : ∃ ks, ks = n.childIds.flatMap (splitAt x a b) := ⟨_, rfl⟩
    have hlen : ks.length = maxFanout + 1 := by
      have := P.filed.fanout hp
      rw [hks, length_flatMap_splitAt a b hx hnd]
      omega
    have hl : n.level ≠ 0 := by
      intro h0
      have := (Sv.shape.fit hp').2 h0
      rw [show (relink x a b n).childIds = ks from hks.symm] at this
      simp [this] at hlen
    have hkid : ∀ c ∈ ks, ∃ m, w.view c = some m := by
      intro c hc
      rw [hks] at hc
      obtain ⟨m, hm, -, -⟩ := Sv.shape.child_mem hp' hc
      obtain ⟨m₀, hm₀, -⟩ := linked_some hm
      exact ⟨m₀, hm₀⟩
    have hlkl : (ks.take (ks.length / 2)).length = 8 := by
      rw [List.length_take, hlen]
      rfl
    have hlkr : (ks.drop (ks.length / 2)).length = 9 := by
      rw [List.length_drop, hlen]
      rfl
    have hkl : ks.take (ks.length / 2) ≠ [] ∧ (ks.take (ks.length / 2)).length ≤ maxFanout ∧
        ∀ c ∈ ks.take (ks.length / 2), ∃ m, w.view c = some m :=
      ⟨List.ne_nil_of_length_pos (by omega), by rw [hlkl]; decide,
        fun c hc => hkid c (List.mem_of_mem_take hc)⟩
    have hkr : ks.drop (ks.length / 2) ≠ [] ∧ (ks.drop (ks.length / 2)).length ≤ maxFanout ∧
        ∀ c ∈ ks.drop (ks.length / 2), ∃ m, w.view c = some m :=
      ⟨List.ne_nil_of_length_pos (by omega), by rw [hlkr]; decide,
        fun c hc => hkid c (List.mem_of_mem_drop hc)⟩
    obtain ⟨front, hfront⟩ := hkr.2.2 ((ks.drop (ks.length / 2)).headD invalidNodeId) (by
      cases hk : ks.drop (ks.length / 2) with
      | nil => exact absurd hk hkr.1
      | cons c cs => simp)
    have hgoing : d → Going w₀ w := fun hd => ⟨.inr (P.mid hd), P.lead.suffix⟩
    rw [replaceChild_eq_flatMap a b hnd, ← hks, hid]
    refine (getNode_reads hfront).spec_bind ?_
    rw [← View.minKey_some hfront]
    refine draft_runs S hnext hgoing hkl hkr fun u hGu D => ?_
    have hrel : relink x a b n = { n with childIds := ks } := by rw [hks]; rfl
    have hh := halves_full (a := w.rest.next) (b := w.rest.next + 1) (hrel ▸ hp') hl hlen
      linked_headMin w.rest.sizing
    have hfa := spanning_childIds w.rest.sizing w.view w.rest.next n.level
      (n.buffer.filter fun e => e.key < w.view.minKey
        ((ks.drop (ks.length / 2)).headD invalidNodeId)) _ hkl.2.1
    have hfb := spanning_childIds w.rest.sizing w.view (w.rest.next + 1) n.level
      (n.buffer.filter fun e => ¬ e.key < w.view.minKey
        ((ks.drop (ks.length / 2)).headD invalidNodeId)) _ hkr.2.1
    generalize spanning w.rest.sizing w.view w.rest.next n.level
      (n.buffer.filter fun e => e.key < w.view.minKey
        ((ks.drop (ks.length / 2)).headD invalidNodeId)) (ks.take (ks.length / 2)) = na at *
    generalize spanning w.rest.sizing w.view (w.rest.next + 1) n.level
      (n.buffer.filter fun e => ¬ e.key < w.view.minKey
        ((ks.drop (ks.length / 2)).headD invalidNodeId)) (ks.drop (ks.length / 2)) = nb at *
    rw [← hrel, ← D.id_b, ← D.id_a] at hh
    rw [← D.id_b, ← D.id_a]
    exact goUp_spec S P hp hx D hh hl (hrel ▸ hlen) (hfa ▸ hkl.2.1) (hfb ▸ hkr.2.1) (by omega) ih

/-! ## `split_leaf` -/

/-- How `split_leaf` ends when it does not return. -/
def SplitStops (w : World) (c : SplitCall) (e : Exc) (u : World) : Prop :=
  Stopped (Halt w) e u ∨ (∃ e', e = .thrown e') ∧ u.rest.splits = c :: w.rest.splits ∧ c.Stale

/-- The files of two leaves. -/
theorem draftLeaves_runs {w₀ w : World} (S : w₀.tree.Sound) (hn : w₀.rest.next ≤ w.rest.next)
    (h : Going w₀ w) {L R : List Entry} {α : Type} {E : Exc → World → Prop}
    {k : NodeId → NodeId → SSTNode → SSTNode → M α} {Q : α → World → Prop}
    (hE : ∀ (s : Stop) u, Going w₀ u → E (.stopped s) u)
    (hk : ∀ u, Going w₀ u →
      Drafted w u (created w.rest.sizing w.rest.next 0 L [])
        (created w.rest.sizing (w.rest.next + 1) 0 R []) →
      Act.Spec (k w.rest.next (w.rest.next + 1) (created w.rest.sizing w.rest.next 0 L [])
        (created w.rest.sizing (w.rest.next + 1) 0 R [])) u Q E) :
    Act.Spec (nextNodeId >>= fun a => nextNodeId >>= fun b =>
      SSTNode.create a 0 L [] >>= fun na => SSTNode.create b 0 R [] >>= fun nb => k a b na nb) w Q
      E := by
  obtain ⟨w₁, hw₁⟩ : ∃ v, v = w.takeId.takeId.renamed
    (SSTNode.build w.rest.sizing w.rest.next 0 L []) := ⟨_, rfl⟩
  obtain ⟨w₂, hw₂⟩ : ∃ v, v = w₁.renamed
    (SSTNode.build w.rest.sizing (w.rest.next + 1) 0 R []) := ⟨_, rfl⟩
  have hG₁ : Going w₀ w₁ := hw₁ ▸ h.takeId.takeId.renamed S hn
  have hG₂ : Going w₀ w₂ := hw₂ ▸ hG₁.renamed S (hn.trans (Nat.le_succ _))
  have hsize₁ : w₁.rest.sizing = w.rest.sizing := by rw [hw₁]; rfl
  refine nextNodeId_runs.spec_bind hE (nextNodeId_runs.spec_bind hE ?_)
  refine (create_runs h.takeId.takeId).spec_bind hE ?_
  rw [show w.takeId.takeId.renamed (SSTNode.build w.takeId.takeId.rest.sizing w.rest.next 0 L []) =
    w₁ from hw₁.symm]
  refine (create_runs hG₁).spec_bind hE ?_
  rw [hsize₁, show w₁.renamed (SSTNode.build w.rest.sizing w.takeId.rest.next 0 R []) = w₂ from
    hw₂.symm]
  refine hk w₂ hG₂ ?_
  have hab : w.rest.next ≠ w.rest.next + 1 := (Nat.lt_succ_self _).ne
  have hsame : ∀ (v : World) m y, ((v.renamed m).cell y).node = (v.cell y).node ∧
      ((v.renamed m).cell y).record = (v.cell y).record := by
    intro v m y
    rw [World.cell_renamed]
    split <;> exact ⟨rfl, rfl⟩
  refine ⟨rfl, rfl, by rw [hw₂, hw₁]; rfl, fun he => ?_, ⟨_, rfl, ?_⟩, ⟨_, rfl, ?_⟩, fun y => ?_,
    fun y => ?_, fun y hya hyb => ?_⟩
  · rw [hw₂, hw₁]
    exact (Exposed.rename he _ _).rename _ _
  · rw [created_id, hw₂, World.cell_renamed, build_id, if_neg hab, hw₁, World.cell_renamed,
      build_id, if_pos rfl]
  · rw [created_id, hw₂, World.cell_renamed, build_id, if_pos rfl]
  · rw [hw₂, (hsame _ _ y).1, hw₁, (hsame _ _ y).1]
    rfl
  · rw [hw₂, (hsame _ _ y).2, hw₁, (hsame _ _ y).2]
    rfl
  · rw [created_id] at hya hyb
    rw [hw₂, World.cell_renamed, build_id, if_neg hyb, hw₁, World.cell_renamed, build_id,
      if_neg hya]
    rfl

theorem getNode_fails {w : World} {x : NodeId} (h : (w.cell x).node = none)
    (hv : ¬ (w.cell x).Valid) :
    Act.Spec (getNode x) w (fun _ _ => False) fun e u => e = .thrown (.unknownNode x) ∧ u = w := by
  have hpath : w.manifest.nodePath x = none := by
    unfold Manifest.nodePath
    split
    · rename_i r hr
      exact if_neg fun hrv => hv ⟨r, hr, hrv⟩
    · rfl
  change w.cache.lookup x = none at h
  unfold getNode
  refine Act.Spec.world_bind ?_
  rw [h]
  refine Act.Spec.world_bind ?_
  rw [hpath]
  exact Act.Spec.fail ⟨rfl, rfl⟩

/-- The two leaves go under a new root or to the parent that `path` names. -/
theorem plantLeaves_spec {w w₁ v : World} {x : NodeId} {n na nb : SSTNode} {L R : List Entry}
    {path : List NodeId} (S : w.tree.Sound) (hx : w.view x = some n) (hl : n.level = 0)
    (hcell₁ : ∀ y, w₁.cell y = w.cell y)
    (hrest₁ : w₁.rest = { w.rest with splits := ⟨w.toStore, x, path⟩ :: w.rest.splits })
    (hB : Backed w w₁) (K : Halved w₁ v x na nb) (hF : Filed v none)
    (hh : Halves w.view x na.id nb.id n na nb L R) (hL : L.length = n.buffer.length / 2)
    (hpath : x = w.rest.root ∧ path.length = 1 ∨
      ∃ p, path = [p, x] ∧ p < w.rest.next ∧ ∀ m, w.view p = some m → x ∈ m.childIds) :
    Act.Spec (if path.length = 1 then growRoot 1 na.id nb.id >>= fun _ => save >>= fun _ => gc
      else Act.world >>= fun w' =>
        insertChild w'.height (path.getD (path.length - 2) invalidNodeId) x na.id nb.id >>= fun _ =>
        save >>= fun _ => gc) v
      (fun _ u => Tidy u none ∧ LeadsTo w u.tree u.rest.splits ∧
        u.rest.splits = ⟨w.toStore, x, path⟩ :: w.rest.splits ∧ Cleaves w.tree x u.tree)
      (SplitStops w ⟨w.toStore, x, path⟩) := by
  have hE : ∀ (s : Stop) u, Going w u → SplitStops w ⟨w.toStore, x, path⟩ (.stopped s) u :=
    fun s u hu => .inl ⟨⟨s, rfl⟩, hu.halt⟩
  have hnext₁ : w₁.rest.next = w.rest.next := by rw [hrest₁]
  have hview₁ : ∀ y, w₁.view y = w.view y := fun y => by rw [World.view, hcell₁, World.view]
  have hsv : v.rest.splits = ⟨w.toStore, x, path⟩ :: w.rest.splits := by rw [K.rest, hrest₁]
  have hM : Mid w v := K.mid S hnext₁.ge hB
  have hnextv : w.rest.next ≤ v.rest.next := by
    rw [K.rest, hnext₁]
    exact Nat.le_add_right ..
  have hGv : Going w v := ⟨.inr hM, [⟨w.toStore, x, path⟩], hsv⟩
  have hon : SplitCall.On ⟨w.toStore, x, path⟩ w.tree x := ⟨rfl, rfl, fun _ => rfl⟩
  rcases hpath with ⟨hroot, hlen⟩ | ⟨p, rfl, hplt, hp⟩
  · rw [if_pos hlen]
    obtain ⟨v', hv', G⟩ := growRoot_runs S hnextv K.view_a K.view_b (fun _ : True => hGv) (l := 1)
    refine hv'.spec_bind (fun s u hu => hE s u (hu trivial)) ?_
    have hsplit := K.splits_root S hh (fun y _ => (hview₁ y).symm) hnext₁.symm hroot
      (by rw [hl]; exact G)
    have hs : v'.rest.splits = [⟨w.toStore, x, path⟩] ++ w.rest.splits := by rw [G.rest, hsv]; rfl
    have hlead : LeadsTo w v'.tree v'.rest.splits := by
      rw [hs]
      exact (LeadsTo.refl w).step (.splitLeaf hsplit hl hL hon)
    refine (commit_spec hlead (hlead.sound S) (G.filed hF) fun _ : True =>
      .inl (G.mid S hnextv hM)).mono ?_ fun _ _ h => .inl ⟨h.1, h.2 trivial⟩
    rintro _ u ⟨T, hl', hs', C⟩
    refine ⟨T, hl', hs'.trans hs, ?_⟩
    rw [C.tree]
    exact .top (hsplit.skip C.next) hl hL hroot
  · rw [if_neg (by simp)]
    refine Act.Spec.world_bind ?_
    show Act.Spec (insertChild v.height p x na.id nb.id >>= _) v _ _
    have hview : ∀ y, y ≠ x → y < w.rest.next → v.view y = w.view y := fun y hy hlt => by
      rw [K.view_old hy (hnext₁ ▸ hlt), hview₁]
    cases hpn : w.view p with
    | none =>
      -- the parent is gone: nothing below `get_node` finds it
      have hpx : p ≠ x := fun h => by simp [h, hx] at hpn
      have hpv : (v.cell p).node = none := (hview p hpx hplt).trans hpn
      refine Act.Spec.bind (R := fun _ _ => False) ?_ (fun _ _ => False.elim)
      have hstale : SplitCall.Stale ⟨w.toStore, x, [p, x]⟩ := ⟨by simp, hpn⟩
      cases v.height with
      | zero => exact Act.Spec.fail (.inr ⟨⟨_, rfl⟩, hsv, hstale⟩)
      | succ fuel =>
        refine Act.Spec.bind (R := fun _ _ => False) ?_ (fun _ _ => False.elim)
        refine (getNode_fails hpv fun h => hF.valid.mp h hpv).mono (fun _ _ => id) ?_
        rintro e u ⟨rfl, rfl⟩
        exact .inr ⟨⟨_, rfl⟩, hsv, hstale⟩
    | some m =>
      have hxm := hp m hpn
      have hpx : p ≠ x := (S.kid_ne hpn hxm).symm
      have hxroot : x ≠ w.rest.root := fun h =>
        S.shape.root_notMem_kids hpn (show w.rest.root ∈ m.childIds from h ▸ hxm)
      have hroot₁ : w.rest.root = w₁.rest.root := by rw [hrest₁]
      have hsplit := K.splits S hh (fun y _ => (hview₁ y).symm) hroot₁ hnext₁.symm hxroot
      have hlead : LeadsTo w (v.linked x na.id nb.id) v.rest.splits := by
        rw [hsv]
        exact (LeadsTo.refl w).step (.splitLeaf hsplit hl hL hon)
      obtain ⟨r, hr⟩ := S.root_some
      have hroot : v.rest.root = w.rest.root := by rw [K.rest, hrest₁]
      have hrv : v.view v.rest.root = some r := by
        rw [hroot, hview _ hxroot.symm (S.below hr)]
        exact hr
      have hheight : (v.linked x na.id nb.id).height < m.level + v.height := by
        rw [linked_height, height_of_root hrv, hrv]
        exact Nat.lt_add_left _ (Nat.lt_succ_self _)
      refine Act.Spec.bind ((insertChild_spec S v.height ⟨hlead, hF, fun _ : True => hM⟩
        ((hview p hpx hplt).trans hpn) hxm hheight).mono (fun _ _ h => h)
        fun _ _ h => .inl ⟨h.1, h.2 trivial⟩) ?_
      rintro _ u W
      refine (commit_spec W.lead (W.lead.sound S) W.filed W.stop).mono ?_
        fun _ _ h => .inl ⟨h.1, h.2 trivial⟩
      rintro _ u' ⟨T, hl', hs', C⟩
      obtain ⟨xs, hxs⟩ := W.climbs
      refine ⟨T, hl', hs'.trans (W.splits.trans hsv), ?_⟩
      rw [C.tree]
      exact .below hsplit hl hL hpn hxm (hxs.skip C.next)

theorem splitLeaf_spec {w : World} {x : NodeId} {n : SSTNode} {lag : Option NodeId}
    {path : List NodeId} (T : Tidy w lag) (hlag : ∀ y, lag = some y → y = x)
    (hx : w.view x = some n) (hl : n.level = 0) (hb : n.buffer ≠ [])
    (hpath : x = w.rest.root ∧ path.length = 1 ∨
      ∃ p, path = [p, x] ∧ p < w.rest.next ∧ ∀ m, w.view p = some m → x ∈ m.childIds) :
    Act.Spec (splitLeaf x path) w
      (fun _ u => Tidy u none ∧ LeadsTo w u.tree u.rest.splits ∧
        u.rest.splits = ⟨w.toStore, x, path⟩ :: w.rest.splits ∧ Cleaves w.tree x u.tree)
      (SplitStops w ⟨w.toStore, x, path⟩) := by
  have S := T.sound
  obtain ⟨w₁, hw₁⟩ : ∃ v, v = (w.splitting x path).modifyNode x fun leaf =>
    { leaf with buffer := stableSort leaf.buffer } := ⟨_, rfl⟩
  have hcell₁ : ∀ y, w₁.cell y = w.cell y := by
    intro y
    rw [hw₁]
    refine (World.cell_modify_self _ x y fun m hm => ?_).trans (World.cell_splitting ..)
    obtain rfl : n = m := Option.some.inj (hx.symm.trans hm)
    rw [stableSort_eq_self (S.sorted hx)]
  have hrest₁ : w₁.rest = { w.rest with splits := ⟨w.toStore, x, path⟩ :: w.rest.splits } := by
    rw [hw₁, World.rest_modifyNode]
    rfl
  have hnext₁ : w₁.rest.next = w.rest.next := by rw [hrest₁]
  have hG₁ : Going w w₁ := by
    refine ⟨.inl ⟨fun y => by rw [hcell₁], fun y => .inl (by rw [hcell₁]),
      fun y _ => by rw [hcell₁], by rw [hrest₁], by rw [hrest₁], by rw [hrest₁]⟩,
      [⟨w.toStore, x, path⟩], by rw [hrest₁]; rfl⟩
  have hF₁ : Filed w₁ lag := by
    rw [filed_iff]
    intro y
    rw [hcell₁, hnext₁]
    exact filed_iff.mp T.filed y
  have hE : ∀ (s : Stop) u, Going w u → SplitStops w ⟨w.toStore, x, path⟩ (.stopped s) u :=
    fun s u hu => .inl ⟨⟨s, rfl⟩, hu.halt⟩
  unfold splitLeaf
  refine (getNode_reads hx).spec_bind (Act.Spec.update_bind (Act.Spec.update_bind ?_))
  rw [← hw₁]
  refine (getNode_reads (n := n) ?_).spec_bind ?_
  · rw [hcell₁]
    exact hx
  refine draftLeaves_runs S hnext₁.ge hG₁ hE fun u hGu D => ?_
  refine Act.Spec.update_bind (Act.Spec.update_bind (Act.Spec.update_bind (Act.Spec.update_bind
    (Act.Spec.update_bind (Act.Spec.update_bind ?_)))))
  have hh : Halves w.view x w₁.rest.next (w₁.rest.next + 1) n
      (created w₁.rest.sizing w₁.rest.next 0 (n.buffer.take (n.buffer.length / 2)) [])
      (created w₁.rest.sizing (w₁.rest.next + 1) 0 (n.buffer.drop (n.buffer.length / 2)) [])
      (n.buffer.take (n.buffer.length / 2)) (n.buffer.drop (n.buffer.length / 2)) := by
    have hk : n.childIds = [] := (S.shape.fit hx).2 hl
    have hpos := List.length_pos_of_ne_nil hb
    refine ⟨hx, rfl, rfl, hl.symm, hl.symm, ?_, ⟨fun h => absurd rfl h, fun _ => rfl⟩,
      ⟨fun h => absurd rfl h, fun _ => rfl⟩, fun h => absurd hl h, fun e => ?_, rfl, rfl, fun _ => ⟨?_, ?_,
      leafFenced_created .., leafFenced_created ..⟩, fun h => absurd hl h, fun h => absurd hl h⟩
    · rw [hk]
      rfl
    · rw [← List.mem_append, List.take_append_drop]
    · exact List.take_append_drop _ _
    · exact List.ne_nil_of_length_pos (by rw [List.length_drop]; omega)
  have hxlt : x < w₁.rest.next := hnext₁ ▸ S.below hx
  have hfa : (created w₁.rest.sizing w₁.rest.next 0 (n.buffer.take (n.buffer.length / 2))
    []).childIds.length ≤ maxFanout := Nat.zero_le _
  have hfb : (created w₁.rest.sizing (w₁.rest.next + 1) 0 (n.buffer.drop (n.buffer.length / 2))
    []).childIds.length ≤ maxFanout := Nat.zero_le _
  generalize created w₁.rest.sizing w₁.rest.next 0 (n.buffer.take (n.buffer.length / 2)) [] =
    na at *
  generalize created w₁.rest.sizing (w₁.rest.next + 1) 0 (n.buffer.drop (n.buffer.length / 2))
    [] = nb at *
  rw [← D.id_b, ← D.id_a] at hh ⊢
  have K : Halved w₁ (u.exchangeLeaf x na nb) x na nb :=
    halved_exchangeLeaf D hxlt (hh.level_a.trans hl) (hh.level_b.trans hl)
  refine plantLeaves_spec S hx hl hcell₁ hrest₁ hG₁.backed K (K.filed hF₁ hlag hfa hfb) hh ?_ hpath
  rw [List.length_take]
  omega

end GravTree
