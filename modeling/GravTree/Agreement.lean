import GravTree.Proof.Run

/-!
# Agreement of tree, manifest and cache

The children of a node are found with `get_node`. The tree agrees with the manifest
and the cache when every identifier below the root resolves, when nothing is listed
or cached that is not below the root, and when levels and fanouts are right.

A run keeps the agreement as long as no leaf is split after its parent was split
away. `do_flush` hands every overflowing child the parent it started with, so one
flush that splits the parent and then another child breaks it.
-/

namespace GravTree

open Forest

/-- What `get_node` returns, if it does not throw. -/
def World.fetch (w : World) (x : NodeId) : Option SSTNode :=
  match Act.eval (getNode x) ⟨w, none⟩ with
  | .ok n => some n
  | .error _ => none

/-- The children of a node, found with `get_node`. -/
def World.kids (w : World) (x : NodeId) : List NodeId := (w.fetch x).elim [] (·.childIds)

/-- Follow child positions down from the root. -/
def World.walk (w : World) (path : List Nat) : Option NodeId :=
  descend w.kids w.manifest.rootId path

/-- Tree, manifest and cache agree. -/
structure Agreement (w : World) : Prop where
  /-- Every identifier below the root resolves. -/
  resolves : ∀ {path x}, w.walk path = some x → ∃ n, w.fetch x = some n
  /-- Every valid record is below the root, on one path. -/
  listed : ∀ {x r}, w.manifest.nodes.lookup x = some r → r.valid = true →
    ∃! path, w.walk path = some x
  /-- Every cached node is below the root, on one path. -/
  cached : ∀ {x n}, w.cache.lookup x = some n → ∃! path, w.walk path = some x
  level : ∀ {path x n c m}, w.walk path = some x → w.fetch x = some n → c ∈ n.childIds →
    w.fetch c = some m → m.level + 1 = n.level
  fanout : ∀ {path x n}, w.walk path = some x → w.fetch x = some n → n.level ≠ 0 →
    1 ≤ n.childIds.length ∧ n.childIds.length ≤ maxFanout

section Tidy

variable {w : World} {lag : Option NodeId}

/-- In a tidy world `get_node` finds what is cached, and nothing else. -/
theorem Tidy.fetch (T : Tidy w lag) (x : NodeId) : w.fetch x = w.view x := by
  unfold World.fetch
  cases hx : w.view x with
  | some n => rw [(getNode_reads hx).eval_eq]
  | none =>
    have hv : ¬ (w.cell x).Valid := fun h => T.filed.valid.mp h hx
    rcases (getNode_fails hx hv).undisturbed with ⟨_, _, _, h⟩ | ⟨e, u, s, h, -⟩
    · exact h.elim
    · simp only [Act.eval, h]

theorem Tidy.kids (T : Tidy w lag) : w.kids = w.view.kids := by
  funext x
  rw [World.kids, T.fetch, View.kids]

theorem Tidy.walk_row (T : Tidy w lag) {path : List Nat} {x : NodeId} (h : w.walk path = some x) :
    x ∈ w.view.row w.rest.root path.length := by
  unfold World.walk at h
  rw [T.kids] at h
  exact descend_mem_level h

theorem Tidy.existsUnique_walk (T : Tidy w lag) {x : NodeId} {n : SSTNode}
    (hx : w.view x = some n) : ∃! path, w.walk path = some x := by
  obtain ⟨d, hd⟩ := T.sound.shape.all hx
  unfold World.walk
  rw [T.kids]
  exact existsUnique_descend T.sound.shape.nodup
    (fun _ _ _ h h' => T.sound.shape.depth_unique h h') hd

/-- **A tidy world agrees.** -/
theorem Tidy.agreement (T : Tidy w lag) : Agreement w where
  resolves h := by
    obtain ⟨n, hn, -, -⟩ := T.sound.shape.node (T.walk_row h)
    exact ⟨n, (T.fetch _).trans hn⟩
  listed := by
    intro x r hr hv
    obtain ⟨n, hn⟩ := Option.ne_none_iff_exists'.mp (T.filed.valid.mp ⟨r, hr, hv⟩)
    exact T.existsUnique_walk hn
  cached hx := T.existsUnique_walk hx
  level := by
    intro path x n c m _ hx hc hm
    rw [T.fetch] at hx hm
    obtain ⟨m', hm', -, hl⟩ := T.sound.shape.child_mem hx hc
    obtain rfl : m = m' := Option.some.inj (hm.symm.trans hm')
    exact hl
  fanout := by
    intro path x n _ hx hl
    rw [T.fetch] at hx
    exact ⟨le_trans (by decide) ((T.sound.shape.fit hx).1 hl), T.filed.fanout hx⟩

end Tidy

/-! ## The parts agree in every run -/

/-- **Every state** of a run whose splits all have their parents is in agreement. -/
theorem agreement_run (sizing : Sizing) (ops : List Op)
    (hA : Attached ((Db.start sizing).run ops).world.splits) :
    Agreement ((Db.start sizing).run ops).world :=
  (tidy_run sizing ops hA).agreement

/-- Write a 2 MB value under each key, then let a cycle run. -/
def round (keys : List UInt8) : List Op :=
  keys.map (fun k => .insert (.byte k) (.zeros (2 ^ 21))) ++ [.cycle]

/-- Leaves split with and without room in the parent. -/
theorem agreement_round_three : Agreement
    ((Db.start fun _ => (64, 7)).run (round [10, 20] ++ round [11, 21])).world :=
  agreement_run _ _ (by decide +kernel)

/-- In the last round six leaves overflow below a parent with twelve children. The fifth
split cuts the parent in two, and the sixth still names it. -/
def crowded : List Op :=
  round [10, 20] ++ round [11, 21] ++ round [12, 13, 22, 23] ++
    round [14, 15, 16, 17, 24, 25, 26, 27] ++ round [18, 28] ++ round [19, 29]

/-- The ninth child of the root's second child is gone. -/
theorem agreement_crowded : ¬ Agreement ((Db.start fun _ => (64, 7)).run crowded).world := by
  intro h
  have hwalk : ((Db.start fun _ => (64, 7)).run crowded).world.walk [1, 8] = some 34 := by
    decide +kernel
  obtain ⟨n, hn⟩ := h.resolves hwalk
  have hgone : (((Db.start fun _ => (64, 7)).run crowded).world.fetch 34).isNone = true := by
    decide +kernel
  simp [hn] at hgone

end GravTree
