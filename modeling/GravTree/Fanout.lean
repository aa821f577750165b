import GravTree.Agreement
import GravTree.Proof.History

/-!
# The branching factor

`GravTreeOptions::fanout` is commented as the number of children that no internal node
exceeds. The code never reads it: `insert_child` and `create` count up to `MAX_FANOUT`.

A node gets more children in `insert_child` only, one at a time. So a run respects the option
as long as no call of `split_leaf` finds a parent that has this many children already, and
that is not yet full for the code.
-/

namespace GravTree

/-- Every internal node of the tree has at most `fanout` children. -/
def World.Within (w : World) (fanout : Nat) : Prop :=
  ∀ {path x n}, w.walk path = some x → w.fetch x = some n → n.level ≠ 0 →
    n.childIds.length ≤ fanout

namespace SplitCall

/-- The parent that the path names, as `get_node` finds it. -/
def parent (c : SplitCall) : Option SSTNode :=
  c.store.seen (c.path.getD (c.path.length - 2) invalidNodeId)

/-- The parent of the leaf has `fanout` children already, but not yet `MAX_FANOUT`: it gets
one more. -/
def Crowds (fanout : Nat) (c : SplitCall) : Prop :=
  c.path.length ≠ 1 ∧ ∃ n, c.parent = some n ∧ c.leafId ∈ n.childIds ∧
    fanout ≤ n.childIds.length ∧ n.childIds.length < maxFanout

instance (fanout : Nat) (c : SplitCall) : Decidable (c.Crowds fanout) :=
  decidable_of_iff (c.path.length ≠ 1 ∧ c.parent.any (fun n => c.leafId ∈ n.childIds ∧
      fanout ≤ n.childIds.length ∧ n.childIds.length < maxFanout) = true)
    (and_congr_right fun _ => by simp [Option.any_eq_true])

end SplitCall

/-- No call of `split_leaf` crowded its parent. -/
def Uncrowded (fanout : Nat) (log : List SplitCall) : Prop := ∀ c ∈ log, ¬ c.Crowds fanout

instance (fanout : Nat) (log : List SplitCall) : Decidable (Uncrowded fanout log) := by
  unfold Uncrowded
  infer_instance

theorem Uncrowded.of_append {fanout : Nat} {l log : List SplitCall}
    (h : Uncrowded fanout (l ++ log)) : Uncrowded fanout log :=
  fun c hc => h c (List.mem_append_right _ hc)

/-! ## What the cut of a leaf leaves of its parent -/

/-- What `get_node` finds under `q`, if anything, is childless or has the children `ids`. -/
structure Parented (ids : Option (List NodeId)) (q : NodeId) (w : World) : Prop where
  node : ∀ {n}, w.cache.lookup q = some n → n.childIds = [] ∨ ids = some n.childIds
  file : ∀ {path n}, w.cache.lookup q = none → w.manifest.nodePath q = some path →
    w.disk.node.lookup path.nodeId = some n → n.childIds = [] ∨ ids = some n.childIds

namespace Parented

variable {ids : Option (List NodeId)} {q x : NodeId} {w : World} {n : SSTNode}

theorem iff_seen : Parented ids q w ↔
    ∀ n, w.seen q = some n → n.childIds = [] ∨ ids = some n.childIds := by
  constructor
  · intro h n hn
    rcases Option.or_eq_some_iff.mp hn with hc | ⟨hc, hf⟩
    · exact h.node hc
    · obtain ⟨path, hp, hf⟩ := Option.bind_eq_some_iff.mp hf
      obtain ⟨m, hm, rfl⟩ := Option.map_eq_some_iff.mp hf
      have hk : m.childIds = [] ∨ ids = some m.childIds := h.file hc hp hm
      exact hk
  · intro h
    constructor
    · intro n hn
      exact h n (by rw [Store.seen, hn, Option.some_or])
    · intro path n hc hp hn
      have hseen : w.seen q = some { n with filePath := path, entriesLoaded := true } := by
        rw [Store.seen, hc, Option.none_or, Store.onFile, hp, Option.bind_some, hn, Option.map_some]
      have hk := h { n with filePath := path, entriesLoaded := true } hseen
      exact hk

theorem loading (h : Parented ids q w) : Parented ids q (w.loading x) := by
  rw [iff_seen, seen_loading]
  exact iff_seen.mp h

theorem setNode (h : Parented ids q w)
    (hn : x = q → n.childIds = [] ∨ ids = some n.childIds) : Parented ids q (w.setNode x n) := by
  rw [iff_seen, seen_setNode]
  intro m hm
  split at hm
  · rename_i hq
    exact Option.some.inj hm ▸ hn hq.symm
  · exact iff_seen.mp h m hm

theorem modifyNode (h : Parented ids q w) {f : SSTNode → SSTNode}
    (hf : ∀ n, (f n).childIds = n.childIds) : Parented ids q (w.modifyNode x f) := by
  unfold World.modifyNode
  split
  · rename_i n hn
    exact h.setNode fun hq => hf n ▸ h.node (hq ▸ hn)
  · exact h

/-- A file without children is written. -/
theorem renamed (h : Parented ids q w) (hn : n.childIds = []) : Parented ids q (w.renamed n) where
  node := h.node
  file hc hp hm := by
    rename_i path m
    have hm : (w.disk.node.insert n.id n).lookup path.nodeId = some m := hm
    rw [lookup_insert] at hm
    split at hm
    · exact .inl (Option.some.inj hm ▸ hn)
    · exact h.file hc hp hm

/-- A node whose file has no children is listed. -/
theorem registerNode (h : Parented ids q w) {level : Nat}
    (hx : ∀ n, w.disk.node.lookup x = some n → n.childIds = []) :
    Parented ids q (w.registerNode x level ⟨x⟩) where
  node := h.node
  file hc hp hm := by
    rename_i path m
    have hp : (w.manifest.registerNode x level ⟨x⟩).nodePath q = some path := hp
    rw [nodePath_registerNode] at hp
    split at hp
    · obtain rfl := Option.some.inj hp
      exact .inl (hx m hm)
    · exact h.file hc hp hm

theorem invalidateNode (h : Parented ids q w) : Parented ids q (w.invalidateNode x) where
  node := h.node
  file hc hp hm := by
    rename_i path m
    have hp : (w.manifest.invalidateNode x).nodePath q = some path := hp
    rw [nodePath_invalidateNode] at hp
    split at hp
    · cases hp
    · exact h.file hc hp hm

/-- A node that is not listed leaves the cache. -/
theorem eraseNode (h : Parented ids q w) (hx : w.manifest.nodePath x = none) :
    Parented ids q (w.eraseNode x) := by
  have hc : (w.eraseNode x).cache.lookup q = if q = x then none else w.cache.lookup q :=
    lookup_erase w.cache x q
  constructor
  · intro n hn
    rw [hc] at hn
    split at hn
    · cases hn
    · exact h.node hn
  · intro path n hn hp hm
    rw [hc] at hn
    split at hn
    · rename_i hq
      have hp : w.manifest.nodePath q = some path := hp
      rw [hq, hx] at hp
      cases hp
    · exact h.file hn hp hm

/-- Two files without children are written and take the place of `x`. -/
theorem cut (h : Parented ids q w) {ln rn : SSTNode} (hl : ln.childIds = [])
    (hr : rn.childIds = []) : Parented ids q (((((((w.renamed ln).renamed rn).registerNode ln.id 0
      ⟨ln.id⟩).registerNode rn.id 0 ⟨rn.id⟩).invalidateNode x).setNode ln.id ln.loaded).setNode
        rn.id rn.loaded |>.eraseNode x) := by
  obtain ⟨u, hu⟩ : ∃ u, u = (w.renamed ln).renamed rn := ⟨_, rfl⟩
  have hbare : ∀ y, y = ln.id ∨ y = rn.id → ∀ n, u.disk.node.lookup y = some n →
      n.childIds = [] := by
    intro y hy n hn
    have hfile : (u.cell y).file = some n := hn
    rw [hu, World.cell_renamed] at hfile
    split at hfile
    · exact Option.some.inj hfile ▸ hr
    · rename_i hne
      rw [World.cell_renamed, if_pos (hy.resolve_right hne)] at hfile
      exact Option.some.inj hfile ▸ hl
  have h₁ : Parented ids q u := hu ▸ (h.renamed hl).renamed hr
  have h₂ : Parented ids q ((u.registerNode ln.id 0 ⟨ln.id⟩).registerNode rn.id 0 ⟨rn.id⟩) :=
    (h₁.registerNode (hbare _ (.inl rfl))).registerNode (hbare _ (.inr rfl))
  rw [← hu]
  refine .eraseNode (.setNode (.setNode h₂.invalidateNode fun _ => .inl hl) fun _ => .inl hr) ?_
  exact (nodePath_invalidateNode _ x x).trans (if_pos rfl)

end Parented

/-- **The cut of a leaf** leaves its parent as the call found it. -/
theorem cutLeaf_parented (x : NodeId) (path : List NodeId) (w : World) :
    Act.Spec (cutLeaf x path) w (fun _ u => ∃ c : SplitCall, c.leafId = x ∧ c.path = path ∧
      u.rest.splits = c :: w.rest.splits ∧ Parented (c.parent.map (·.childIds))
        (path.getD (path.length - 2) invalidNodeId) u) fun _ _ => True := by
  unfold cutLeaf
  refine Act.Spec.bind (getNode_sees x w) fun n w₁ h₁ => ?_
  obtain ⟨-, hw₁⟩ := h₁
  refine Act.Spec.update_bind (Act.Spec.update_bind ?_)
  obtain ⟨c, hc⟩ : ∃ c : SplitCall, c = ⟨w₁.toStore, x, path⟩ := ⟨_, rfl⟩
  obtain ⟨w₂, hw₂⟩ : ∃ v, v = (w₁.splitting x path).modifyNode x fun leaf =>
      { leaf with buffer := stableSort leaf.buffer } := ⟨_, rfl⟩
  rw [← hw₂]
  -- the call is recorded before the leaf's buffer is sorted, and the sort moves no child
  have h₂ : Parented (c.parent.map (·.childIds)) (path.getD (path.length - 2) invalidNodeId)
      w₂ := by
    rw [hw₂]
    refine Parented.modifyNode (Parented.iff_seen.mpr fun n hn => .inr ?_) fun _ => rfl
    have hp : c.parent = some n := hc ▸ hn
    rw [hp, Option.map_some]
  have hlog : w₂.rest.splits = c :: w.rest.splits := by
    rw [hw₂, World.rest_modifyNode, hc, hw₁, World.rest_splitting, rest_loading]
  refine Act.Spec.bind (getNode_sees x w₂) fun leaf w₃ h₃ => ?_
  obtain ⟨-, hw₃⟩ := h₃
  have h₃ := h₂.loading (x := x)
  rw [← hw₃] at h₃
  have hlog : w₃.rest.splits = c :: w.rest.splits := by rw [hw₃, rest_loading, hlog]
  have hany : ∀ (k : Stop) (u : World), True → True := fun _ _ _ => trivial
  refine nextNodeId_runs.spec_bind hany (nextNodeId_runs.spec_bind hany ?_)
  have h₄ : Parented (c.parent.map (·.childIds)) (path.getD (path.length - 2) invalidNodeId)
      w₃.takeId.takeId := ⟨h₃.node, h₃.file⟩
  refine (create_runs trivial).spec_bind hany ((create_runs trivial).spec_bind hany ?_)
  refine Act.Spec.update_bind (Act.Spec.update_bind (Act.Spec.update_bind (Act.Spec.update_bind
    (Act.Spec.update_bind (Act.Spec.update_bind (Act.Spec.pure ⟨c, ?_, ?_, ?_, ?_⟩))))))
  · rw [hc]
  · rw [hc]
  · rw [World.rest_eraseNode, World.rest_setNode, World.rest_setNode, World.rest_invalidateNode]
    exact hlog
  · exact h₄.cut (x := x) rfl rfl

/-! ## Nodes with few children -/

/-- Nodes have at most `N` children, as long as no call crowded its parent. -/
def Narrow (N : Nat) (w : World) : Prop :=
  Uncrowded N w.rest.splits → Sourced (· = N) (fun _ => True) [] w

namespace Narrow

variable {α : Type} {N : Nat} {w : World} {log : List SplitCall}

/-- The bound on a run that has made the calls in `log` so far. -/
theorem sourced (h : Narrow N w) :
    Sourced (fun M => M = N ∧ Uncrowded N w.rest.splits) (fun _ => True) w.rest.splits w where
  node hx := ⟨fun _ _ => trivial, fun M hM => ((h hM.2).node hx).fanout M hM.1⟩
  file hx := ⟨fun _ _ => trivial, fun M hM => ((h hM.2).file hx).fanout M hM.1⟩
  log := ⟨[], rfl⟩

theorem of_sourced (S : Sourced (fun M => M = N ∧ Uncrowded N log) (fun _ => True) log w) :
    Narrow N w := by
  intro hU
  obtain ⟨l, hl⟩ := S.log
  have hlog : Uncrowded N log := (hl ▸ hU).of_append
  exact ⟨fun hx => ⟨fun _ _ => trivial, fun M hM => (S.node hx).fanout M ⟨hM, hlog⟩⟩,
    fun hx => ⟨fun _ _ => trivial, fun M hM => (S.file hx).fanout M ⟨hM, hlog⟩⟩,
    w.rest.splits, (List.append_nil _).symm⟩

/-- Programs that do not call `insert_child`. -/
theorem keeps {x : M α} {A : α → Prop} (hx : ∀ {F : Nat → Prop} {log : List SplitCall},
    (∀ M, F M → M = N) → Traces F (fun _ => True) log x A) :
    Act.Keeps (Narrow N) x fun _ => True := fun w hw =>
  Act.Spec.mono (hx (fun _ hM => hM.1) w hw.sourced) (fun _ _ h => ⟨of_sourced h.1, trivial⟩)
    fun _ _ h => of_sourced h

end Narrow

/-- What `get_node` finds. -/
theorem Sourced.seen {F : Nat → Prop} {P : Entry → Prop} {log : List SplitCall} {w : World}
    (S : Sourced F P log w) {x : NodeId} {n : SSTNode} (h : w.seen x = some n) : n.From F P := by
  rcases Option.or_eq_some_iff.mp h with hc | ⟨-, hf⟩
  · exact S.node (x := x) hc
  · obtain ⟨path, -, hf⟩ := Option.bind_eq_some_iff.mp hf
    obtain ⟨m, hm, rfl⟩ := Option.map_eq_some_iff.mp hf
    exact (S.file (x := path.nodeId) hm).congr rfl rfl

variable {N : Nat}

/-- **A split** adds a child to a parent that has room for it, unless it crowds the parent. -/
theorem narrow_splitLeaf (hN : 2 ≤ N) (x : NodeId) (path : List NodeId) :
    Act.Keeps (Narrow N) (splitLeaf x path) fun _ => True := by
  have hcommit : Act.Keeps (Narrow N) (save >>= fun _ => gc) fun _ => True :=
    Narrow.keeps fun _ => .bind traces_save fun _ _ => traces_gc
  intro w hw
  rw [splitLeaf_eq]
  refine Act.Spec.bind (Act.Spec.and (cutLeaf_parented x path w)
    (Narrow.keeps (fun _ => traces_cutLeaf x path) w hw)) fun h u hu => ?_
  obtain ⟨⟨c, hleaf, hpath, hlog, hparent⟩, hu, -⟩ := hu
  split
  · -- the leaf was the root, and the new one has two children
    exact Act.Spec.bind (Narrow.keeps (fun hF => traces_growRoot (fun M hM => hF M hM ▸ hN) _ _ _)
      u hu) fun _ v hv => hcommit v hv.1
  · rename_i hne
    refine Act.Spec.world_bind ?_
    refine Act.Spec.bind (R := fun _ v => Narrow N v) ?_ fun _ v hv => hcommit v hv
    cases u.height with
    | zero => exact Act.Spec.fail hu
    | succ fuel =>
      have hroom : ∀ n, u.seen (path.getD (path.length - 2) invalidNodeId) = some n →
          n.childIds.length < maxFanout → ∀ M, M = N ∧ Uncrowded N u.rest.splits →
            (replaceChild x h.1 h.2 n.childIds).length ≤ M := by
        intro n hn hlt M hM
        obtain ⟨rfl, hU⟩ := hM
        by_cases hx : x ∈ n.childIds
        · -- the parent has the children that the call found, so it was not crowded
          rcases Parented.iff_seen.mp hparent n hn with hnil | hids
          · rw [hnil] at hx
            cases hx
          · obtain ⟨m, hm, hkids⟩ := Option.map_eq_some_iff.mp hids
            have hfree : ¬ c.Crowds M := hU c (hlog ▸ List.mem_cons_self)
            have hless : n.childIds.length < M := by
              by_contra hge
              exact hfree ⟨hpath ▸ hne, m, hm, by rw [hkids, hleaf]; exact hx,
                by rw [hkids]; exact not_lt.mp hge, by rw [hkids]; exact hlt⟩
            exact (length_replaceChild_le _ _ _ _).trans hless
        · -- where the leaf is no child, nothing is added
          rw [replaceChild_eq_self hx]
          exact (hu.sourced.seen hn).fanout M ⟨rfl, hU⟩
      have hspec := insertChild_sourced hu.sourced hroom fun hF => traces_insertChild hF fuel
      exact hspec.mono (fun _ _ h => .of_sourced h.1) fun _ _ h => .of_sourced h

/-- **A background cycle.** -/
theorem narrow_flushPending (hN : 2 ≤ N) (es : List Entry) :
    Act.Keeps (Narrow N) (flushPending es) fun _ => True :=
  keeps_flushPending (narrow_splitLeaf hN) (fun p => Narrow.keeps fun _ => traces_pushDown p)
    (fun k => Narrow.keeps fun _ => traces_findPath k)
    (Narrow.keeps fun _ => (traces_mergeIntoRoot fun _ _ => trivial).mono fun _ _ => trivial)

/-- **Every run.** -/
theorem narrow_run (hN : 2 ≤ N) (sizing : Sizing) (ops : List Op) :
    Narrow N ((Db.start sizing).run ops).world := by
  induction ops using List.reverseRecOn with
  | nil => exact fun _ => sourced_start sizing
  | append_singleton ops op ih =>
    rw [Db.run_append]
    cases op with
    | insert k v => exact ih
    | remove k => exact ih
    | flush => exact (Narrow.keeps fun _ => traces_persistRoot fun _ _ => trivial).exec ih none
    | cycle => exact (narrow_flushPending hN _).swallow _ ih none

/-- What `get_node` returns. -/
theorem Sourced.fetch {F : Nat → Prop} {P : Entry → Prop} {log : List SplitCall} {w : World}
    (S : Sourced F P log w) {x : NodeId} {n : SSTNode} (h : w.fetch x = some n) : n.From F P := by
  unfold World.fetch at h
  rcases (traces_getNode x w S).undisturbed with ⟨m, u, hm, -, hfrom⟩ | ⟨e, u, s, he, -⟩
  · rw [Act.eval, hm] at h
    exact Option.some.inj h ▸ hfrom
  · rw [Act.eval, he] at h
    cases h

/-- Pairs of leaves overflow one after the other. -/
def rounds (n : Nat) : List Op :=
  (List.range n).flatMap fun i => round [UInt8.ofNat (2 * i), UInt8.ofNat (2 * i + 1)]

/-- After nine rounds the root has as many children as `child_ids` has slots. -/
theorem le_of_within {fanout : Nat}
    (h : ((Db.start fun _ => (64, 7)).run (rounds 9)).world.Within fanout) :
    maxFanout ≤ fanout := by
  have hrun : (((Db.start fun _ => (64, 7)).run (rounds 9)).world.fetch
      ((Db.start fun _ => (64, 7)).run (rounds 9)).world.manifest.rootId).any
        (fun n => n.level ≠ 0 ∧ n.childIds.length = maxFanout) = true := by
    decide +kernel
  obtain ⟨n, hn, hfull⟩ := (Option.any_eq_true _ _).mp hrun
  obtain ⟨hl, hlen⟩ := of_decide_eq_true hfull
  have hroot : ((Db.start fun _ => (64, 7)).run (rounds 9)).world.walk [] = some _ := rfl
  exact hlen ▸ h hroot hn hl

/-- **The fanout of the options is respected** in every state of a run that crowds no
parent. -/
theorem within_uncrowded (fanout : Nat) (hN : 2 ≤ fanout) (sizing : Sizing) (ops : List Op)
    (hU : Uncrowded fanout ((Db.start sizing).run ops).world.splits) :
    ((Db.start sizing).run ops).world.Within fanout := by
  intro path x n _ hn _
  exact ((narrow_run hN sizing ops hU).fetch hn).fanout fanout rfl

/-- Five rounds fill the root up to the option. -/
theorem within_uncrowded_rounds :
    ((Db.start fun _ => (64, 7)).run (rounds 5)).world.Within 8 :=
  within_uncrowded 8 (by decide) _ _ (by decide +kernel)

/-- With the option at its default, the root gets twice as many children. -/
theorem within_default : ¬ ∀ fanout, 2 ≤ fanout → fanout ≤ maxFanout →
    ∀ (sizing : Sizing) (ops : List Op), ((Db.start sizing).run ops).world.Within fanout := by
  intro h
  exact absurd (le_of_within (h 8 (by decide) (by decide) _ _)) (by decide)

end GravTree
