import GravTree.Proof.Buffer
import GravTree.Proof.Shape

/-!
# The tree machine

What the tree code does, seen through lookups: a tree is a view and a root, and it
changes by four kinds of steps. A node is rewritten; a node's buffer is pushed one
level down; a node is split in two, and its parent then has one child more; or
identifiers are used up. The splits of leaves carry the call that made them.

Between the steps of one call of `insert_child` a parent may have one child too
many. The code never stores such a tree; it is where its two halves come from.
-/

namespace GravTree

open Forest

/-- A tree as lookups see it. Identifiers from `next` on have never been used. -/
structure Tree where
  view : View
  root : NodeId
  next : NodeId

namespace View

/-- The `min_key` of a node's first child. -/
def headMin (v : View) (n : SSTNode) : Bytes := v.minKey (n.childIds.headD invalidNodeId)

/-- The entries of `n` that are routed to its child `c`. -/
def part (v : View) (n : SSTNode) (c : NodeId) : List Entry :=
  n.buffer.filter fun e => n.childIds[targetChild (n.childIds.map v.minKey) e.key]? = some c

/-- Some node holds the entry. -/
def Stored (v : View) (e : Entry) : Prop := ∃ x n, v x = some n ∧ e ∈ n.buffer

/-- Some node holds a version of `e`'s key at least as new as `e`. -/
def Holds (v : View) (e : Entry) : Prop := ∃ x n, v x = some n ∧ Covers n.buffer e

end View

/-- The minimum of a leaf is its smallest key. -/
def LeafFenced (n : SSTNode) : Prop :=
  n.keyRange.minKey = n.buffer.head?.elim .empty (·.key)

/-- Every way of computing an internal node's minimum yields the minimum of its
first child, an older minimum or one of its keys; and if nothing lies below the
first child's minimum, it yields that. -/
structure Fenced (v : View) (n : SSTNode) (old : Bytes) : Prop where
  cases : n.keyRange.minKey = v.headMin n ∨ n.keyRange.minKey = old ∨
    ∃ e ∈ n.buffer, e.key = n.keyRange.minKey
  head : old = v.headMin n → v.headMin n ≠ .empty → (∀ e ∈ n.buffer, v.headMin n ≤ e.key) →
    n.keyRange.minKey = v.headMin n

/-- A parent of `x` becomes a parent of `a` and `b`. -/
def relink (x a b : NodeId) (n : SSTNode) : SSTNode :=
  { n with childIds := n.childIds.flatMap (splitAt x a b) }

/-! ## The steps -/

/-- A node is written again, with its range recomputed unless it is the root. -/
structure Revises (t t' : Tree) (x : NodeId) (n n' : SSTNode) : Prop where
  here : t.view x = some n
  id : n'.id = x
  level : n'.level = n.level
  kids : n'.childIds = n.childIds
  buffer : n'.buffer = sortBuffer n.buffer
  fence : x ≠ t.root → n.level ≠ 0 ∧ Fenced t.view n' (t.view.headMin n')
  view : t'.view = Function.update t.view x (some n')
  root : t'.root = t.root
  next : t.next ≤ t'.next

/-- The buffer of `p` is pushed to its children: `f` gives the node that takes the
place of each child. A child that receives entries is replaced by a new node. -/
structure Pushes (t t' : Tree) (p : NodeId) (n n' : SSTNode) (f : NodeId → SSTNode) : Prop where
  here : t.view p = some n
  inner : n.level ≠ 0
  id : n'.id = p
  level : n'.level = n.level
  kids : n'.childIds = n.childIds.map fun c => (f c).id
  buffer : n'.buffer = []
  fence : n'.keyRange.minKey = t'.view.headMin n'
  child : ∀ c ∈ n.childIds, ∀ m, t.view c = some m →
    (f c).level = m.level ∧ (f c).childIds = m.childIds
  kept : ∀ c ∈ n.childIds, ∀ m, t.view c = some m → t.view.part n c = [] →
    (f c).id = c ∧ (f c).buffer = m.buffer ∧
      (m.level = 0 → (f c).keyRange.minKey = m.keyRange.minKey) ∧
      (m.level ≠ 0 → Fenced t.view (f c) m.keyRange.minKey)
  made : ∀ c ∈ n.childIds, ∀ m, t.view c = some m → t.view.part n c ≠ [] →
    t.next ≤ (f c).id ∧ (f c).id < t'.next ∧
      (f c).buffer = sortBuffer (mergeSortedEntries (t.view.part n c) m.buffer) ∧
      (m.level = 0 → LeafFenced (f c)) ∧
      (m.level ≠ 0 → Fenced t.view (f c) (t.view.headMin (f c)))
  inj : ∀ c ∈ n.childIds, ∀ c' ∈ n.childIds, (f c).id = (f c').id → c = c'
  at_p : t'.view p = some n'
  at_child : ∀ c ∈ n.childIds, t'.view (f c).id = some (f c)
  other : ∀ x, x ≠ p → (∀ c ∈ n.childIds, (f c).id ≠ x) →
    t'.view x = if x ∈ n.childIds then none else t.view x
  root : t'.root = t.root
  next : t.next ≤ t'.next

/-- `n`, the node `x`, is cut into `na` and `nb`. Its entries are dealt out to `L` and `R`. -/
structure Halves (v : View) (x a b : NodeId) (n na nb : SSTNode) (L R : List Entry) : Prop where
  here : v x = some n
  id_a : na.id = a
  id_b : nb.id = b
  level_a : na.level = n.level
  level_b : nb.level = n.level
  kids : na.childIds ++ nb.childIds = n.childIds
  fit_a : KidsFit na
  fit_b : KidsFit nb
  two : n.level ≠ 0 → 2 ≤ na.childIds.length ∧ 2 ≤ nb.childIds.length
  entries : ∀ e, e ∈ n.buffer ↔ e ∈ L ∨ e ∈ R
  buffer_a : na.buffer = sortBuffer L
  buffer_b : nb.buffer = sortBuffer R
  leaf : n.level = 0 → L ++ R = n.buffer ∧ R ≠ [] ∧ LeafFenced na ∧ LeafFenced nb
  node : n.level ≠ 0 → (∀ e ∈ L, e.key < v.headMin nb) ∧ (∀ e ∈ R, v.headMin nb ≤ e.key) ∧
    Fenced v na (v.headMin na) ∧ Fenced v nb (v.headMin nb)
  dealt : n.level ≠ 0 → L = n.buffer.filter (fun e => e.key < v.headMin nb) ∧
    R = n.buffer.filter fun e => ¬ e.key < v.headMin nb

/-- `x` is split into `a` and `b`. The root is split under a new root. -/
structure Splits (t t' : Tree) (x a b : NodeId) (n na nb : SSTNode) (L R : List Entry) : Prop
    extends Halves t.view x a b n na nb L R where
  fresh_a : t.next ≤ a ∧ a < t'.next
  fresh_b : t.next ≤ b ∧ b < t'.next
  ne : a ≠ b
  at_a : t'.view a = some na
  at_b : t'.view b = some nb
  gone : t'.view x = none
  root : x ≠ t.root ∧ t'.root = t.root ∨
    x = t.root ∧ t.next ≤ t'.root ∧ t'.root < t'.next ∧ t'.root ≠ a ∧ t'.root ≠ b ∧
      ∃ r, t'.view t'.root = some r ∧ r.id = t'.root ∧ r.level = n.level + 1 ∧
        r.childIds = [a, b] ∧ r.buffer = []
  other : ∀ y, y ≠ x → y ≠ a → y ≠ b → (x = t.root → y ≠ t'.root) →
    t'.view y = (t.view y).map (relink x a b)

/-- A call of `split_leaf` on the tree. -/
structure SplitCall.On (c : SplitCall) (t : Tree) (x : NodeId) : Prop where
  leaf : c.leafId = x
  root : c.store.manifest.rootId = t.root
  view : ∀ y, c.store.cache.lookup y = t.view y

/-- One step, with the call of `split_leaf` it belongs to, if it splits a leaf. -/
inductive Step : Tree → List SplitCall → Tree → Prop
  | skip {t : Tree} {k : NodeId} (h : t.next ≤ k) : Step t [] { t with next := k }
  | revise {t t' x n n'} (h : Revises t t' x n n') : Step t [] t'
  | push {t t' p n n' f} (h : Pushes t t' p n n' f) : Step t [] t'
  | splitLeaf {t t' x a b n na nb L R c} (h : Splits t t' x a b n na nb L R)
      (hl : n.level = 0) (hL : L.length = n.buffer.length / 2) (hc : SplitCall.On c t x) :
      Step t [c] t'
  | splitNode {t t' x a b n na nb L R} (h : Splits t t' x a b n na nb L R) (hl : n.level ≠ 0) :
      Step t [] t'

/-- Several steps, with the calls of `split_leaf` made on the way, newest first. -/
inductive Steps : Tree → List SplitCall → Tree → Prop
  | refl (t : Tree) : Steps t [] t
  | tail {t t' t'' : Tree} {cs c : List SplitCall} : Steps t cs t' → Step t' c t'' →
      Steps t (c ++ cs) t''

theorem Steps.single {t t' : Tree} {c : List SplitCall} (h : Step t c t') : Steps t c t' := by
  have := Steps.tail (.refl t) h
  rwa [List.append_nil] at this

theorem Steps.trans {t t' t'' : Tree} {cs cs' : List SplitCall} (h : Steps t cs t')
    (h' : Steps t' cs' t'') : Steps t (cs' ++ cs) t'' := by
  induction h' with
  | refl => exact h
  | tail _ hs ih => exact List.append_assoc .. ▸ .tail ih hs

end GravTree
