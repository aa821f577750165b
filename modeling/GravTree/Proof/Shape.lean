import GravTree.Session
import GravTree.Lib.Forest

/-!
# The shape of the tree

A `View` is what `get_node` finds: a node for some ids. The children in a view
make a forest below the root, and `Shape` says that it is a tree of uniform
height: the nodes `d` levels below the root have level `h - d`, no node occurs
twice, and nothing is cached that the root does not reach.

Every operation on the tree replaces nodes by rows of nodes of the same level
whose children, put together, are the children of what they replace. `Shape.subst`
and `Shape.grow` say once that this keeps the shape.
-/

namespace GravTree

open Forest

/-- What `get_node` finds. -/
abbrev View := NodeId → Option SSTNode

namespace View

/-- The child ids of a node. -/
def kids (v : View) (x : NodeId) : List NodeId := (v x).elim [] (·.childIds)

/-- `key_range.min_key` of a node. -/
def minKey (v : View) (x : NodeId) : Bytes := (v x).elim .empty (·.keyRange.minKey)

/-- `key_range.max_key` of a node. -/
def maxKey (v : View) (x : NodeId) : Bytes := (v x).elim .empty (·.keyRange.maxKey)

theorem kids_some {v : View} {x : NodeId} {n : SSTNode} (h : v x = some n) :
    v.kids x = n.childIds := by simp [kids, h]

theorem minKey_some {v : View} {x : NodeId} {n : SSTNode} (h : v x = some n) :
    v.minKey x = n.keyRange.minKey := by simp [minKey, h]

theorem maxKey_some {v : View} {x : NodeId} {n : SSTNode} (h : v x = some n) :
    v.maxKey x = n.keyRange.maxKey := by simp [maxKey, h]

/-- The level list of the tree below `root`. -/
abbrev row (v : View) (root : NodeId) (d : Nat) : List NodeId := level v.kids root d

end View

/-- A child list fits its node's level: some children above the leaves, none at the
leaves. -/
def KidsFit (n : SSTNode) : Prop :=
  (n.level ≠ 0 → 1 ≤ n.childIds.length) ∧ (n.level = 0 → n.childIds = [])

/-- The view is a tree of height `h` below `root`. -/
structure Shape (v : View) (root : NodeId) (h : Nat) : Prop where
  /-- The nodes `d` levels down are there and have level `h - d`. -/
  node : ∀ {d x}, x ∈ v.row root d → ∃ n, v x = some n ∧ n.id = x ∧ n.level + d = h
  fit : ∀ {x n}, v x = some n → KidsFit n
  /-- No node occurs twice in a level. -/
  nodup : ∀ d, (v.row root d).Nodup
  /-- Every node is reached from the root. -/
  all : ∀ {x n}, v x = some n → ∃ d, x ∈ v.row root d

namespace Shape

variable {v v' : View} {root root' : NodeId} {h h' : Nat}

theorem root_mem (v : View) (root : NodeId) : root ∈ v.row root 0 := by simp

theorem root_some (H : Shape v root h) : ∃ r, v root = some r ∧ r.id = root ∧ r.level = h := by
  obtain ⟨n, hn, hid, hl⟩ := H.node (root_mem v root)
  exact ⟨n, hn, hid, hl⟩

/-- The depth of a node is determined by its level. -/
theorem mem_row (H : Shape v root h) {x : NodeId} {n : SSTNode} (hx : v x = some n) :
    x ∈ v.row root (h - n.level) ∧ n.level ≤ h ∧ n.id = x := by
  obtain ⟨d, hd⟩ := H.all hx
  obtain ⟨m, hm, hid, hl⟩ := H.node hd
  rw [hx] at hm
  cases hm
  have : h - n.level = d := by omega
  exact ⟨this ▸ hd, by omega, hid⟩

theorem mem_row_iff (H : Shape v root h) {x : NodeId} {n : SSTNode} (hx : v x = some n)
    {d : Nat} : x ∈ v.row root d ↔ n.level + d = h := by
  constructor
  · intro hd
    obtain ⟨m, hm, -, hl⟩ := H.node hd
    rw [hx] at hm
    cases hm
    exact hl
  · intro hl
    have := (H.mem_row hx).1
    rwa [show h - n.level = d by omega] at this

theorem depth_unique (H : Shape v root h) {d e : Nat} {x : NodeId} (hd : x ∈ v.row root d)
    (he : x ∈ v.row root e) : d = e := by
  obtain ⟨n, hn, -, hl⟩ := H.node hd
  have := (H.mem_row_iff hn).mp he
  omega

theorem child_mem (H : Shape v root h) {x c : NodeId} {n : SSTNode} (hx : v x = some n)
    (hc : c ∈ n.childIds) : ∃ m, v c = some m ∧ m.id = c ∧ m.level + 1 = n.level := by
  have hxd := (H.mem_row hx).1
  have hcd : c ∈ v.row root (h - n.level + 1) :=
    mem_level_succ.mpr ⟨x, hxd, by rwa [View.kids_some hx]⟩
  obtain ⟨m, hm, hid, hl⟩ := H.node hcd
  have := (H.mem_row hx).2.1
  exact ⟨m, hm, hid, by omega⟩

theorem root_notMem_kids (H : Shape v root h) {x : NodeId} {n : SSTNode} (hx : v x = some n) :
    root ∉ n.childIds := by
  intro hr
  obtain ⟨m, hm, -, hl⟩ := H.child_mem hx hr
  obtain ⟨r, hr', -, hrl⟩ := H.root_some
  rw [hr'] at hm
  cases hm
  have := (H.mem_row hx).2.1
  omega

theorem kids_nodup (H : Shape v root h) {x : NodeId} {n : SSTNode} (hx : v x = some n) :
    n.childIds.Nodup := by
  have hxd := (H.mem_row hx).1
  have := H.nodup (h - n.level + 1)
  rw [View.row, level_succ, List.nodup_flatMap] at this
  rw [← View.kids_some hx]
  exact this.1 x hxd

/-- A node has one parent. -/
theorem parent_unique (H : Shape v root h) {x y c : NodeId} {n m : SSTNode} (hx : v x = some n)
    (hy : v y = some m) (hcx : c ∈ n.childIds) (hcy : c ∈ m.childIds) : x = y := by
  obtain ⟨k, hk, -, hkl⟩ := H.child_mem hx hcx
  obtain ⟨k', hk', -, hkl'⟩ := H.child_mem hy hcy
  rw [hk] at hk'
  cases hk'
  have hxd := (H.mem_row hx).1
  have hyd := (H.mem_row hy).1
  rw [show h - m.level = h - n.level by omega] at hyd
  have := H.nodup (h - n.level + 1)
  rw [View.row, level_succ, List.nodup_flatMap] at this
  by_contra hne
  have hsymm : Std.Symm (Function.onFun List.Disjoint v.kids) := ⟨fun _ _ h _ ha hb => h hb ha⟩
  exact this.2.forall hxd hyd hne (by rwa [View.kids_some hx]) (by rwa [View.kids_some hy])

/-! ## Replacing nodes by rows of nodes -/

/-- What a replacement has to do, node by node, to keep the shape. -/
structure Replaces (v v' : View) (σ : NodeId → List NodeId) : Prop where
  /-- The children of the replacements are the replacements of the children. -/
  kids : ∀ {x n}, v x = some n → (σ x).flatMap v'.kids = n.childIds.flatMap σ
  /-- The replacements are there, with the level of what they replace. -/
  node : ∀ {x n}, v x = some n → ∀ z ∈ σ x,
    ∃ n', v' z = some n' ∧ n'.id = z ∧ n'.level = n.level ∧ KidsFit n'
  nodup : ∀ {x n}, v x = some n → (σ x).Nodup
  disjoint : ∀ {x y n m}, v x = some n → v y = some m → x ≠ y → (σ x).Disjoint (σ y)

theorem Replaces.row (R : Replaces v v' σ) (H : Shape v root h) (hroot : σ root = [root'])
    (d : Nat) : v'.row root' d = (v.row root d).flatMap σ := by
  refine level_flatMap hroot (fun d x hx => ?_) d
  obtain ⟨n, hn, -, -⟩ := H.node hx
  rw [R.kids hn, View.kids_some hn]

theorem Replaces.row_grow (R : Replaces v v' σ) (H : Shape v root h)
    (hroot : v'.kids root' = σ root) (d : Nat) :
    v'.row root' (d + 1) = (v.row root d).flatMap σ := by
  refine level_grow hroot (fun d x hx => ?_) d
  obtain ⟨n, hn, -, -⟩ := H.node hx
  rw [R.kids hn, View.kids_some hn]

theorem Replaces.row_node (R : Replaces v v' σ) (H : Shape v root h) {d : Nat} {z : NodeId}
    (hz : z ∈ (v.row root d).flatMap σ) :
    ∃ n', v' z = some n' ∧ n'.id = z ∧ n'.level + d = h ∧ KidsFit n' := by
  obtain ⟨x, hx, hzx⟩ := List.mem_flatMap.mp hz
  obtain ⟨n, hn, -, hl⟩ := H.node hx
  obtain ⟨n', hn', hid, hl', hfit⟩ := R.node hn z hzx
  exact ⟨n', hn', hid, by omega, hfit⟩

theorem Replaces.row_nodup (R : Replaces v v' σ) (H : Shape v root h) (d : Nat) :
    ((v.row root d).flatMap σ).Nodup := by
  rw [List.nodup_flatMap]
  constructor
  · intro x hx
    obtain ⟨n, hn, -, -⟩ := H.node hx
    exact R.nodup hn
  · refine List.Pairwise.imp_of_mem ?_ (H.nodup d)
    intro x y hx hy hne
    obtain ⟨n, hn, -, -⟩ := H.node hx
    obtain ⟨m, hm, -, -⟩ := H.node hy
    exact R.disjoint hn hm hne

/-- **Replacement keeps the shape.** -/
theorem subst (H : Shape v root h) (R : Replaces v v' σ) (hroot : σ root = [root'])
    (hall : ∀ {z n'}, v' z = some n' → ∃ x n, v x = some n ∧ z ∈ σ x) : Shape v' root' h where
  node := by
    intro d z hz
    rw [R.row H hroot] at hz
    obtain ⟨n', hn', hid, hl, -⟩ := R.row_node H hz
    exact ⟨n', hn', hid, hl⟩
  fit := by
    intro z n' hz
    obtain ⟨x, n, hx, hzx⟩ := hall hz
    obtain ⟨n'', hn'', -, -, hfit⟩ := R.node hx z hzx
    rw [hz] at hn''
    cases hn''
    exact hfit
  nodup d := R.row H hroot d ▸ R.row_nodup H d
  all := by
    intro z n' hz
    obtain ⟨x, n, hx, hzx⟩ := hall hz
    obtain ⟨d, hd⟩ := H.all hx
    exact ⟨d, R.row H hroot d ▸ List.mem_flatMap.mpr ⟨x, hd, hzx⟩⟩

/-- **A replaced root under a new root keeps the shape.** -/
theorem grow (H : Shape v root h) (R : Replaces v v' σ) {r : SSTNode} (hr : v' root' = some r)
    (hid : r.id = root') (hl : r.level = h + 1) (hkids : r.childIds = σ root)
    (hpos : 1 ≤ r.childIds.length)
    (hall : ∀ {z n'}, v' z = some n' → z = root' ∨ ∃ x n, v x = some n ∧ z ∈ σ x) :
    Shape v' root' (h + 1) where
  node := by
    intro d z hz
    cases d with
    | zero =>
      obtain rfl : z = root' := by simpa using hz
      exact ⟨r, hr, hid, hl⟩
    | succ d =>
      rw [R.row_grow H ((View.kids_some hr).trans hkids)] at hz
      obtain ⟨n', hn', hid, hl, -⟩ := R.row_node H hz
      exact ⟨n', hn', hid, by omega⟩
  fit := by
    intro z n' hz
    rcases hall hz with rfl | ⟨x, n, hx, hzx⟩
    · rw [hr] at hz
      cases hz
      exact ⟨fun _ => hpos, fun h0 => by omega⟩
    · obtain ⟨n'', hn'', -, -, hfit⟩ := R.node hx z hzx
      rw [hz] at hn''
      cases hn''
      exact hfit
  nodup d := by
    cases d with
    | zero => simp
    | succ d => exact R.row_grow H ((View.kids_some hr).trans hkids) d ▸ R.row_nodup H d
  all := by
    intro z n' hz
    rcases hall hz with rfl | ⟨x, n, hx, hzx⟩
    · exact ⟨0, by simp⟩
    · obtain ⟨d, hd⟩ := H.all hx
      refine ⟨d + 1, ?_⟩
      rw [R.row_grow H ((View.kids_some hr).trans hkids)]
      exact List.mem_flatMap.mpr ⟨x, hd, hzx⟩

end Shape

end GravTree
