import GravTree.Proof.Keeps
import GravTree.Lib.Fence

/-!
# Order

In an ordered tree each level is a row of nodes with ascending fences, and every
entry is held by the node of its level that its key belongs to. A node other than
the first of its row has the fence of its first child, or of its smallest key.

The first node of a row is an exception throughout: its fence may be anything that
is not above the next one. That is where the source uses the empty string both for
the smallest key and for no bound at all.
-/

namespace GravTree

open Forest Fence

/-- What holds of a node that is not the first of its row. -/
structure Fit (v : View) (n : SSTNode) : Prop where
  head : n.level ≠ 0 → n.keyRange.minKey = v.headMin n
  /-- The empty string is no fence. -/
  proper : n.level ≠ 0 → n.keyRange.minKey ≠ .empty
  leaf : n.level = 0 → n.buffer ≠ [] ∧ LeafFenced n

/-- The invariants of routing. -/
structure Tree.Ordered (t : Tree) : Prop where
  asc : ∀ d, Ascending t.view.minKey (t.view.row t.root d)
  owns : ∀ {d x n}, x ∈ t.view.row t.root d → t.view x = some n → ∀ e ∈ n.buffer,
    Owns t.view.minKey (t.view.row t.root d) e.key x
  fit : ∀ {d x n}, x ∈ (t.view.row t.root d).tail → t.view x = some n → Fit t.view n

namespace Tree.Ordered

variable {t t' : Tree}

theorem le_of_pair (O : t.Ordered) {d : Nat} {x y : NodeId}
    (h : [x, y].Sublist (t.view.row t.root d)) : t.view.minKey x ≤ t.view.minKey y :=
  List.pairwise_iff_forall_sublist.mp (O.asc d) h

/-- The keys of a node are below the fences of all later nodes. -/
theorem key_lt (O : t.Ordered) (S : t.Sound) {d : Nat} {x y : NodeId} {n : SSTNode}
    (h : [x, y].Sublist (t.view.row t.root d)) (hx : t.view x = some n) {e : Entry}
    (he : e ∈ n.buffer) : e.key < t.view.minKey y :=
  Owns.lt_of_pair (S.shape.nodup d) (O.owns (h.subset (by simp)) hx e he) h

/-- The keys of a node other than the first are not below its own fence. -/
theorem fence_le (O : t.Ordered) (S : t.Sound) {d : Nat} {x : NodeId} {n : SSTNode}
    (hx : x ∈ (t.view.row t.root d).tail) (hn : t.view x = some n) {e : Entry}
    (he : e ∈ n.buffer) : n.keyRange.minKey ≤ e.key :=
  View.minKey_some hn ▸
    Owns.fence_le (S.shape.nodup d) (O.owns (List.mem_of_mem_tail hx) hn e he) hx

end Tree.Ordered

/-- Below an internal row, the children of all nodes but the first come after the
children of the first. -/
theorem Tree.Sound.kids_mem_drop {t : Tree} (S : t.Sound) {d : Nat} {x c : NodeId}
    {n : SSTNode} (hx : x ∈ (t.view.row t.root d).tail) (hn : t.view x = some n)
    (hc : c ∈ n.childIds) : ∃ r m ks, t.view r = some m ∧ m.level ≠ 0 ∧
      t.view.row t.root (d + 1) = m.childIds ++ ks ∧ c ∈ ks := by
  have hall : ∀ y ∈ t.view.row t.root d, ∃ m, t.view y = some m ∧ m.level = n.level := by
    intro y hy
    obtain ⟨m, hm, -, hl⟩ := S.shape.node hy
    obtain ⟨n', hn', -, hl'⟩ := S.shape.node (List.mem_of_mem_tail hx)
    rw [hn] at hn'
    cases hn'
    exact ⟨m, hm, by omega⟩
  rw [View.row, level_succ]
  change x ∈ (level t.view.kids t.root d).tail at hx
  cases hrow : level t.view.kids t.root d with
  | nil => simp [hrow] at hx
  | cons r rs =>
    rw [hrow] at hx
    obtain ⟨m, hm, hl⟩ := hall r (by rw [View.row, hrow]; simp)
    have hne : n.level ≠ 0 := by
      intro h0
      rw [(S.shape.fit hn).2 h0] at hc
      simp at hc
    refine ⟨r, m, rs.flatMap t.view.kids, hm, hl ▸ hne, ?_, ?_⟩
    · rw [List.flatMap_cons, View.kids_some hm]
    · exact List.mem_flatMap.mpr ⟨x, hx, by rwa [View.kids_some hn]⟩

theorem Tree.Sound.kids_mem_tail {t : Tree} (S : t.Sound) {d : Nat} {x c : NodeId} {n : SSTNode}
    (hx : x ∈ (t.view.row t.root d).tail) (hn : t.view x = some n) (hc : c ∈ n.childIds) :
    c ∈ (t.view.row t.root (d + 1)).tail := by
  obtain ⟨r, m, ks, hm, hl, hrow, hck⟩ := S.kids_mem_drop hx hn hc
  have hpos := (S.shape.fit hm).1 hl
  rw [hrow]
  rcases hk : m.childIds with _ | ⟨a, as⟩
  · simp [hk] at hpos
  · simp [hck]

/-- In the next row, the children of a node come before the first child of any
later node. -/
theorem Tree.kids_pair {t : Tree} {d : Nat} {x y c g : NodeId} {n m : SSTNode}
    (h : [x, y].Sublist (t.view.row t.root d)) (hx : t.view x = some n) (hy : t.view y = some m)
    (hc : c ∈ n.childIds) (hg : g ∈ m.childIds) :
    [c, g].Sublist (t.view.row t.root (d + 1)) := by
  have hsub : ([x, y].flatMap t.view.kids).Sublist (t.view.row t.root (d + 1)) :=
    h.flatMap t.view.kids
  refine List.Sublist.trans ?_ hsub
  have h1 : [c].Sublist n.childIds := List.singleton_sublist.mpr hc
  have h2 : [g].Sublist m.childIds := List.singleton_sublist.mpr hg
  simpa [View.kids_some hx, View.kids_some hy] using h1.append h2

namespace Tree.Ordered

variable {t t' : Tree}

/-- The children of a node are not above the fences of later nodes. -/
theorem kid_le (O : t.Ordered) (S : t.Sound) {d : Nat} {x y c : NodeId} {n : SSTNode}
    (h : [x, y].Sublist (t.view.row t.root d)) (hx : t.view x = some n) (hc : c ∈ n.childIds) :
    t.view.minKey c ≤ t.view.minKey y := by
  have hyr : y ∈ (t.view.row t.root d).tail := mem_tail_of_pair h
  obtain ⟨m, hm, -, hl⟩ := S.shape.node (List.mem_of_mem_tail hyr)
  obtain ⟨n', hn', -, hl'⟩ := S.shape.node (h.subset (List.mem_cons_self ..))
  rw [hx] at hn'
  cases hn'
  have hne : m.level ≠ 0 := by
    intro h0
    rw [(S.shape.fit hx).2 (by omega)] at hc
    simp at hc
  rw [View.minKey_some hm, (O.fit hyr hm).head hne]
  exact O.le_of_pair (Tree.kids_pair h hx hm hc (S.headKid hm hne))

/-- An internal node other than the first of its row has a proper fence. -/
theorem minKey_ne_empty (O : t.Ordered) {d : Nat} {y : NodeId} {m : SSTNode}
    (hy : y ∈ (t.view.row t.root d).tail) (hm : t.view y = some m) (hl : m.level ≠ 0) :
    t.view.headMin m ≠ .empty :=
  (O.fit hy hm).head hl ▸ (O.fit hy hm).proper hl

/-- From the third node of a row on, no fence is the empty string. -/
theorem minKey_ne_empty_of_tail_tail (O : t.Ordered) (S : t.Sound) {d : Nat} {y : NodeId}
    (hy : y ∈ (t.view.row t.root d).tail.tail) : t.view.minKey y ≠ .empty := by
  obtain ⟨m, hm, -, hl⟩ := S.shape.node (List.mem_of_mem_tail (List.mem_of_mem_tail hy))
  by_cases hleaf : m.level = 0
  · -- the second leaf holds a key, which is below the fence of every later leaf
    match hrow : t.view.row t.root d with
    | [] => simp [hrow] at hy
    | [_] => simp [hrow] at hy
    | a :: b :: rs =>
      have hyr : y ∈ rs := by simpa [hrow] using hy
      have hpair : [b, y].Sublist (t.view.row t.root d) := by
        rw [hrow]
        exact ((List.singleton_sublist.mpr hyr).cons_cons b).cons a
      obtain ⟨n, hn, -, hnl⟩ := S.shape.node (hpair.subset (List.mem_cons_self ..))
      have hb : b ∈ (t.view.row t.root d).tail := by simp [hrow]
      obtain ⟨e, he⟩ := List.exists_mem_of_ne_nil _ ((O.fit hb hn).leaf (by omega)).1
      have := O.key_lt S hpair hn he
      exact fun h => absurd (h ▸ this) (not_lt_of_ge (Bytes.empty_le _))
  · exact View.minKey_some hm ▸ (O.fit (List.mem_of_mem_tail hy) hm).proper hleaf

end Tree.Ordered

/-! ## Order under replacement -/

/-- What the replacement of the nodes of one row by rows of nodes does to fences and
entries. -/
structure Rearranges (v v' : View) (row : List NodeId) (σ : NodeId → List NodeId) : Prop where
  /-- No replacement starts above a later node. -/
  up : ∀ {x y}, [x, y].Sublist row → ∀ z ∈ σ x, v'.minKey z ≤ v.minKey y
  loc : ∀ x ∈ row, Ascending v'.minKey (σ x)
  /-- The replacement of a node other than the first starts where the node did. -/
  low : ∀ x ∈ row.tail, ∀ z, (σ x).head? = some z → v'.minKey z = v.minKey x
  /-- Entries come from the same row, and lie where they belong in the replacement. -/
  owns : ∀ x ∈ row, ∀ z ∈ σ x, ∀ n', v' z = some n' → ∀ e ∈ n'.buffer,
    Owns v.minKey row e.key x ∧ Owns v'.minKey (σ x) e.key z
  fit : ∀ x ∈ row, ∀ z ∈ σ x, (x ∈ row.tail ∨ z ∈ (σ x).tail) → ∀ n', v' z = some n' → Fit v' n'

namespace Rearranges

variable {v v' : View} {row : List NodeId} {σ : NodeId → List NodeId}

theorem low_le (R : Rearranges v v' row σ) {x : NodeId} (hx : x ∈ row.tail) :
    ∀ z ∈ σ x, v.minKey x ≤ v'.minKey z := by
  intro z hz
  cases hσ : σ x with
  | nil => simp [hσ] at hz
  | cons c cs =>
    have hc := R.low x hx c (by simp [hσ])
    have hasc := R.loc x (List.mem_of_mem_tail hx)
    rw [hσ] at hz hasc
    rcases List.mem_cons.mp hz with rfl | hz
    · exact hc.ge
    · exact hc ▸ (List.pairwise_cons.mp hasc).1 z hz

theorem asc (R : Rearranges v v' row σ) : Ascending v'.minKey (row.flatMap σ) :=
  Ascending.subst R.loc (List.pairwise_iff_forall_sublist.mpr fun h => R.up h)
    fun _ hy => R.low_le hy

theorem owns' (R : Rearranges v v' row σ) {z : NodeId} (hz : z ∈ row.flatMap σ) {n' : SSTNode}
    (hn : v' z = some n') {e : Entry} (he : e ∈ n'.buffer) :
    Owns v'.minKey (row.flatMap σ) e.key z := by
  obtain ⟨x, hx, hzx⟩ := List.mem_flatMap.mp hz
  obtain ⟨h₁, h₂⟩ := R.owns x hx z hzx n' hn e he
  exact h₁.subst h₂ (fun hx c hc => (R.low x hx c hc).le) fun y hy => R.low_le hy

theorem fit' (R : Rearranges v v' row σ) {z : NodeId} (hz : z ∈ (row.flatMap σ).tail)
    {n' : SSTNode} (hn : v' z = some n') : Fit v' n' := by
  cases row with
  | nil => simp at hz
  | cons r rs =>
    rw [List.flatMap_cons] at hz
    cases hσ : σ r with
    | nil =>
      rw [hσ, List.nil_append] at hz
      obtain ⟨x, hx, hzx⟩ := List.mem_flatMap.mp (List.mem_of_mem_tail hz)
      exact R.fit x (by simp [hx]) z hzx (.inl hx) n' hn
    | cons c cs =>
      rw [hσ, List.cons_append, List.tail_cons] at hz
      rcases List.mem_append.mp hz with hz | hz
      · exact R.fit r (by simp) z (by simp [hσ, hz]) (.inr (by simpa [hσ] using hz)) n' hn
      · obtain ⟨x, hx, hzx⟩ := List.mem_flatMap.mp hz
        exact R.fit x (by simp [hx]) z hzx (.inl hx) n' hn

end Rearranges

/-- **Replacement keeps the order.** Every row of the new tree is a replaced row of
the old one, or the new root alone. -/
theorem Tree.Ordered.of_rearranges (t : Tree) {t' : Tree} (σ : NodeId → List NodeId)
    (hrow : ∀ d, t'.view.row t'.root d = [t'.root] ∨
      ∃ e, t'.view.row t'.root d = (t.view.row t.root e).flatMap σ)
    (hR : ∀ e, Rearranges t.view t'.view (t.view.row t.root e) σ) : t'.Ordered where
  asc d := by
    rcases hrow d with h | ⟨e, h⟩
    · rw [h]
      exact List.pairwise_singleton ..
    · rw [h]
      exact (hR e).asc
  owns := by
    intro d z n' hz hn e he
    rcases hrow d with h | ⟨k, h⟩
    · rw [h] at hz ⊢
      obtain rfl : z = t'.root := by simpa using hz
      exact ⟨[], [], rfl, by simp, by simp⟩
    · rw [h] at hz ⊢
      exact (hR k).owns' hz hn he
  fit := by
    intro d z n' hz hn
    rcases hrow d with h | ⟨k, h⟩
    · simp [h] at hz
    · exact (hR k).fit' (h ▸ hz) hn

end GravTree
