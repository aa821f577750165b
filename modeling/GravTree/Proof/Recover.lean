import GravTree.Proof.Answer

/-!
# What the files have

Between two writes of the manifest the files run ahead of it: new nodes have files that
nothing lists yet, and internal children may have been written again with wider ranges. The
root's file may be behind its buffer in memory. A tree recovered from such files answers
like a tree: every node but the root has its entries, and no range got in the way of a
later one.
-/

namespace GravTree

open Forest Fence

/-- `t'` is what the files have of `t`. -/
structure Recovers (t t' : Tree) : Prop where
  root : t'.root = t.root
  next : t'.next = t.next
  only : ∀ {x}, t.view x = none → t'.view x = none
  node : ∀ {x n}, t.view x = some n → ∃ n', t'.view x = some n' ∧ n'.id = n.id ∧
    n'.level = n.level ∧ n'.childIds = n.childIds ∧ Sorted n'.buffer ∧ n'.buffer ⊆ n.buffer
  kept : ∀ {x n n'}, t.view x = some n → t'.view x = some n' → x ≠ t.root →
    n'.buffer = n.buffer ∧ (n'.keyRange.minKey = n.keyRange.minKey ∨
      n.level ≠ 0 ∧ Fenced t.view n' n.keyRange.minKey)

namespace Recovers

variable {t t' : Tree}

/-- Every recovered node is one of the tree. -/
theorem origin (R : Recovers t t') {x : NodeId} {n' : SSTNode} (h : t'.view x = some n') :
    ∃ n, t.view x = some n ∧ n'.id = n.id ∧ n'.level = n.level ∧ n'.childIds = n.childIds ∧
      Sorted n'.buffer ∧ n'.buffer ⊆ n.buffer := by
  cases hx : t.view x with
  | none =>
    rw [R.only hx] at h
    cases h
  | some n =>
    obtain ⟨m, hm, hn⟩ := R.node hx
    rw [h] at hm
    cases hm
    exact ⟨n, rfl, hn⟩

theorem kids (R : Recovers t t') : t'.view.kids = t.view.kids := by
  funext x
  cases hx : t.view x with
  | none => rw [View.kids, View.kids, hx, R.only hx]
  | some n =>
    obtain ⟨n', hn', -, -, hk, -⟩ := R.node hx
    rw [View.kids_some hn', View.kids_some hx, hk]

theorem row (R : Recovers t t') (d : Nat) : t'.view.row t'.root d = t.view.row t.root d := by
  rw [View.row, View.row, R.kids, R.root]

theorem shape (R : Recovers t t') (S : t.Sound) : Shape t'.view t'.root t.height where
  node hx := by
    rw [R.row] at hx
    obtain ⟨n, hn, hid, hl⟩ := S.shape.node hx
    obtain ⟨n', hn', hid', hl', -⟩ := R.node hn
    exact ⟨n', hn', hid'.trans hid, hl' ▸ hl⟩
  fit hx := by
    obtain ⟨n, hn, -, hl, hk, -⟩ := R.origin hx
    have := S.shape.fit hn
    rwa [KidsFit, ← hl, ← hk] at this
  nodup d := by
    rw [R.row]
    exact S.shape.nodup d
  all hx := by
    obtain ⟨n, hn, -⟩ := R.origin hx
    obtain ⟨d, hd⟩ := S.shape.all hn
    exact ⟨d, (R.row d).symm ▸ hd⟩

theorem sound (R : Recovers t t') (S : t.Sound) : t'.Sound where
  shape := Tree.height_eq (R.shape S) ▸ R.shape S
  rootPos := R.root ▸ S.rootPos
  below hx := by
    obtain ⟨n, hn, -⟩ := R.origin hx
    exact R.next ▸ S.below hn
  sorted hx := by
    obtain ⟨n, -, -, -, -, hs, -⟩ := R.origin hx
    exact hs
  unique hx hne := by
    obtain ⟨n, hn, -⟩ := R.origin hx
    rw [R.root] at hne
    rw [(R.kept hn hx hne).1]
    exact S.unique hn hne

theorem layered (R : Recovers t t') (V : t.Layered) : t'.Layered := by
  intro x y n' m' hx hy hlt e he e' he' hk
  obtain ⟨n, hn, -, hl, -, -, hb⟩ := R.origin hx
  obtain ⟨m, hm, -, hl', -, -, hb'⟩ := R.origin hy
  exact V hn hm (hl ▸ hl' ▸ hlt) e (hb he) e' (hb' he') hk

theorem stored (R : Recovers t t') {e : Entry} (h : t'.view.Stored e) : t.view.Stored e := by
  obtain ⟨x, n', hx, he⟩ := h
  obtain ⟨n, hn, -, -, -, -, hb⟩ := R.origin hx
  exact ⟨x, n, hn, hb he⟩

theorem headMin_node (R : Recovers t t') {x : NodeId} {n n' : SSTNode} (hx : t.view x = some n)
    (hx' : t'.view x = some n') : t.view.headMin n' = t.view.headMin n := by
  obtain ⟨m, hm, -, -, hk, -⟩ := R.node hx
  rw [hx'] at hm
  cases hm
  rw [View.headMin, hk, View.headMin]

/-- A node other than the first of its row keeps its fence. -/
theorem low (R : Recovers t t') (S : t.Sound) (O : t.Ordered) (d : Nat) :
    ∀ y ∈ (t.view.row t.root d).tail, ∀ z, [y].head? = some z →
      t'.view.minKey z = t.view.minKey y := by
  intro y hy z hz
  obtain rfl : y = z := by simpa using hz
  obtain ⟨n, hn, -, -⟩ := S.shape.node (List.mem_of_mem_tail hy)
  obtain ⟨n', hn', -, -, -, -, hb⟩ := R.node hn
  rw [View.minKey_some hn', View.minKey_some hn]
  rcases (R.kept hn hn' fun h => S.root_notMem_tail (h ▸ hy)).2 with h | ⟨hl, F⟩
  · exact h
  · have hh := (O.fit hy hn).head hl
    have heq := R.headMin_node hn hn'
    rw [hh, ← heq]
    refine F.head (hh.trans heq.symm) ?_ fun e he => ?_
    · exact heq ▸ O.minKey_ne_empty hy hn hl
    · rw [heq, ← hh]
      exact O.fence_le S hy hn (hb he)

/-- No range got in the way of a later one. -/
theorem up (R : Recovers t t') (S : t.Sound) (O : t.Ordered) {d : Nat} {y w : NodeId}
    (h : [y, w].Sublist (t.view.row t.root d)) : t'.view.minKey y ≤ t.view.minKey w := by
  obtain ⟨n, hn, -, -⟩ := S.shape.node (h.subset (by simp) : y ∈ t.view.row t.root d)
  obtain ⟨n', hn', -, -, -, -, hb⟩ := R.node hn
  have hmin : n.keyRange.minKey ≤ t.view.minKey w := View.minKey_some hn ▸ O.le_of_pair h
  rw [View.minKey_some hn']
  rcases (R.kept hn hn' fun hr => S.root_not_pair (hr ▸ h)).2 with h' | ⟨hl, F⟩
  · exact h' ▸ hmin
  · refine F.le (R.headMin_node hn hn' ▸ O.kid_le S h hn (S.headKid hn hl)) hmin fun e he => ?_
    exact (O.key_lt S h hn (hb he)).le

/-- **Order** survives in the files. -/
theorem ordered (R : Recovers t t') (S : t.Sound) (O : t.Ordered) : t'.Ordered := by
  refine Tree.Ordered.of_rearranges t (fun y => [y]) (fun d => .inr ⟨d, ?_⟩) fun d => ?_
  · rw [R.row]
    simp
  refine ⟨?_, fun _ _ => List.pairwise_singleton .., R.low S O d, ?_, ?_⟩
  · intro y w hyw z hz
    obtain rfl : z = y := by simpa using hz
    exact R.up S O hyw
  · intro y hy z hz m' hm' e he
    obtain rfl : z = y := by simpa using hz
    obtain ⟨m, hm, -, -, -, -, hb⟩ := R.origin hm'
    exact ⟨O.owns hy hm e (hb he), owns_singleton z⟩
  · intro y _ z hz hy m' hm'
    obtain rfl : z = y := by simpa using hz
    have hy : z ∈ (t.view.row t.root d).tail := by simpa using hy
    obtain ⟨m, hm, -, hl, hk, -⟩ := R.origin hm'
    have hne : z ≠ t.root := fun h => S.root_notMem_tail (h ▸ hy)
    have hrange := R.low S O d z hy z rfl
    rw [View.minKey_some hm', View.minKey_some hm] at hrange
    have hhead : m.level ≠ 0 → t'.view.headMin m' = t.view.headMin m := fun hl =>
      headMin_eq S (by simp) (R.low S O) hy hm hl (by simp [hk])
    obtain ⟨hb, -⟩ := R.kept hm hm' hne
    refine ⟨fun h => ?_, fun h => hrange ▸ (O.fit hy hm).proper (hl ▸ h), fun h => ?_⟩
    · rw [hrange, hhead (hl ▸ h), (O.fit hy hm).head (hl ▸ h)]
    · obtain ⟨hnil, hf⟩ := (O.fit hy hm).leaf (hl ▸ h)
      exact ⟨hb ▸ hnil, by rw [LeafFenced, hrange, hb]; exact hf⟩

/-- **A lookup** finds the newest version that the files have. -/
theorem newest (R : Recovers t t') (S : t.Sound) (O : t.Ordered) (V : t.Layered) (k : Bytes) :
    t'.view.Newest k (t'.answer k) :=
  (R.ordered S O).newest (R.sound S) (R.layered V) k

end Recovers

end GravTree
