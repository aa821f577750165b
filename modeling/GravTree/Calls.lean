import GravTree.Tree

/-!
# Calls of `split_leaf`

`split_leaf` cuts a leaf's buffer in the middle by entry count, and puts the two
halves below the parent its caller names. It checks neither that the middle does
not fall between two versions of one key, nor that both halves hold something, nor
that the named parent still exists. These are the calls where one of the three
fails, told from the store the call finds.
-/

namespace GravTree

/-- The first leaf below `id`. -/
def Store.firstLeaf (s : Store) : Nat → NodeId → NodeId
  | 0, id => id
  | fuel + 1, id =>
    match s.cache.lookup id with
    | some n => s.firstLeaf fuel (n.childIds.headD invalidNodeId)
    | none => id

namespace SplitCall

/-- The level of the root. -/
def height (c : SplitCall) : Nat :=
  match c.store.cache.lookup c.store.manifest.rootId with
  | some root => root.level
  | none => 0

/-- The leaf's buffer as `split_leaf` sorts it. -/
def buffer (c : SplitCall) : List Entry :=
  match c.store.cache.lookup c.leafId with
  | some leaf => stableSort leaf.buffer
  | none => []

/-- Both halves get a version of the same key. -/
def Straddles (c : SplitCall) : Prop :=
  ∃ e ∈ c.buffer.take (c.buffer.length / 2), ∃ e' ∈ c.buffer.drop (c.buffer.length / 2),
    e.key = e'.key

/-- The left half is empty, and there are leaves to its left. -/
def Hollow (c : SplitCall) : Prop :=
  c.buffer.length / 2 = 0 ∧ c.store.firstLeaf c.height c.store.manifest.rootId ≠ c.leafId

/-- The parent named by the path was itself split away. -/
def Stale (c : SplitCall) : Prop :=
  c.path.length ≠ 1 ∧
    c.store.cache.lookup (c.path.getD (c.path.length - 2) invalidNodeId) = none

instance (c : SplitCall) : Decidable c.Straddles := by
  unfold Straddles
  infer_instance

instance (c : SplitCall) : Decidable c.Hollow := by
  unfold Hollow
  infer_instance

instance (c : SplitCall) : Decidable c.Stale := by
  unfold Stale
  infer_instance

/-- The halves can be told apart by the fence between them. -/
def Fair (c : SplitCall) : Prop := ¬ c.Straddles ∧ ¬ c.Hollow

instance (c : SplitCall) : Decidable c.Fair := by
  unfold Fair
  infer_instance

end SplitCall

/-- Every leaf that was split had its parent. -/
def Attached (log : List SplitCall) : Prop := ∀ c ∈ log, ¬ c.Stale

/-- Every split was fair, and had its parent. -/
def Clean (log : List SplitCall) : Prop := ∀ c ∈ log, c.Fair ∧ ¬ c.Stale

instance (log : List SplitCall) : Decidable (Attached log) := by
  unfold Attached
  infer_instance

instance (log : List SplitCall) : Decidable (Clean log) := by
  unfold Clean
  infer_instance

theorem Clean.attached {log : List SplitCall} (h : Clean log) : Attached log :=
  fun c hc => (h c hc).2

theorem Attached.of_append {l log : List SplitCall} (h : Attached (l ++ log)) : Attached log :=
  fun c hc => h c (List.mem_append_right _ hc)

theorem Clean.of_append {l log : List SplitCall} (h : Clean (l ++ log)) : Clean log :=
  fun c hc => h c (List.mem_append_right _ hc)

end GravTree
