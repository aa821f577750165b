import GravTree.Proof.StepOrder

/-!
# Reading

In a layered tree an entry is newer than every entry of its key further down. The
walk of `get` goes from owner to owner down the rows.
-/

namespace GravTree

open Forest Fence

/-- Versions of a key get older downwards. -/
def Tree.Layered (t : Tree) : Prop :=
  ∀ {x y n m}, t.view x = some n → t.view y = some m → m.level < n.level →
    ∀ e ∈ n.buffer, ∀ e' ∈ m.buffer, e.key = e'.key → e'.seqNo < e.seqNo

variable {t t' : Tree}

/-- Within one level a key is held by one node only. -/
theorem Tree.Ordered.holder_unique (O : t.Ordered) (S : t.Sound) {x y : NodeId} {n m : SSTNode}
    (hx : t.view x = some n) (hy : t.view y = some m) (hl : n.level = m.level) {e e' : Entry}
    (he : e ∈ n.buffer) (he' : e' ∈ m.buffer) (hk : e.key = e'.key) : x = y := by
  have hxr := (S.shape.mem_row hx).1
  have hyr := (S.shape.mem_row hy).1
  rw [← hl] at hyr
  exact (O.owns hxr hx e he).unique (hk ▸ O.owns hyr hy e' he')

/-! ## Layers under the steps -/

theorem Revises.layered {x : NodeId} {n n' : SSTNode} (R : Revises t t' x n n')
    (V : t.Layered) : t'.Layered := by
  have hold : ∀ {y m'}, t'.view y = some m' →
      ∃ m, t.view y = some m ∧ m'.level = m.level ∧ m'.buffer ⊆ m.buffer := by
    intro y m' hy
    rw [R.view] at hy
    by_cases hyx : y = x
    · subst hyx
      obtain rfl : n' = m' := by simpa using hy
      exact ⟨n, R.here, R.level, fun e he => mem_of_mem_sortBuffer (R.buffer ▸ he)⟩
    · exact ⟨m', by simpa [hyx] using hy, rfl, List.Subset.refl _⟩
  intro y z m' k' hy hz hlt e he e' he' hk
  obtain ⟨m, hm, hl, hb⟩ := hold hy
  obtain ⟨k, hk', hl', hb'⟩ := hold hz
  exact V hm hk' (hl ▸ hl' ▸ hlt) e (hb he) e' (hb' he') hk

theorem Splits.layered {x a b : NodeId} {n na nb : SSTNode} {L R : List Entry}
    (P : Splits t t' x a b n na nb L R) (V : t.Layered) : t'.Layered := by
  have hold : ∀ {z m'}, t'.view z = some m' → m'.buffer ≠ [] →
      ∃ y m, t.view y = some m ∧ m'.level = m.level ∧ m'.buffer ⊆ m.buffer := by
    intro z m' hz hne
    rcases P.origin hz with ⟨-, rfl⟩ | ⟨-, rfl⟩ | ⟨hx, rfl⟩ | ⟨-, m, hm, rfl⟩
    · exact ⟨x, n, P.here, P.level_a, fun e he => P.mem_half (.inl he)⟩
    · exact ⟨x, n, P.here, P.level_b, fun e he => P.mem_half (.inr he)⟩
    · rcases P.root with ⟨hxr, -⟩ | ⟨-, -, -, -, -, r, hr, -, -, -, hb⟩
      · exact absurd hx hxr
      · rw [hr] at hz
        cases hz
        exact absurd hb hne
    · exact ⟨z, m, hm, rfl, List.Subset.refl _⟩
  intro y z m' k' hy hz hlt e he e' he' hk
  obtain ⟨_, m, hm, hl, hb⟩ := hold hy (List.ne_nil_of_mem he)
  obtain ⟨_, k, hk', hl', hb'⟩ := hold hz (List.ne_nil_of_mem he')
  exact V hm hk' (hl ▸ hl' ▸ hlt) e (hb he) e' (hb' he') hk

theorem Pushes.layered {p : NodeId} {n n' : SSTNode} {f : NodeId → SSTNode}
    (P : Pushes t t' p n n' f) (S : t.Sound) (O : t.Ordered) (V : t.Layered) : t'.Layered := by
  -- an entry of the new tree lay at the same level, or in `p` right above a child
  have hold : ∀ {z m' e}, t'.view z = some m' → e ∈ m'.buffer →
      (∃ y m, t.view y = some m ∧ m'.level = m.level ∧ e ∈ m.buffer ∧ y ≠ p) ∨
        e ∈ n.buffer ∧ m'.level + 1 = n.level := by
    intro z m' e hz he
    rcases P.origin hz with ⟨-, rfl⟩ | ⟨c, hc, -, rfl⟩ | ⟨hzp, -, hz⟩
    · simp [P.buffer] at he
    · obtain ⟨m, hm, -, hl⟩ := S.shape.child_mem P.here hc
      have hfl := (P.child c hc m hm).1
      rcases P.mem_child hc hm he with he | he
      · exact .inr ⟨View.mem_of_mem_part he, by omega⟩
      · exact .inl ⟨c, m, hm, hfl, he, fun h => P.p_notMem S (h ▸ hc)⟩
    · exact .inl ⟨z, m', hz, rfl, he, hzp⟩
  intro y z m' k' hy hz hlt e he e' he' hk
  rcases hold hz he' with ⟨_, k, hk', hl', hb', -⟩ | ⟨hb', hl'⟩
  · rcases hold hy he with ⟨_, m, hm, hl, hb, -⟩ | ⟨hb, hl⟩
    · exact V hm hk' (hl ▸ hl' ▸ hlt) e hb e' hb' hk
    · exact V P.here hk' (by omega) e hb e' hb' hk
  · rcases hold hy he with ⟨w, m, hm, hl, hb, hwp⟩ | ⟨hb, hl⟩
    · rcases Nat.lt_or_eq_of_le (show n.level ≤ m.level by omega) with h | h
      · exact V hm P.here h e hb e' hb' hk
      · exact absurd (O.holder_unique S hm P.here h.symm hb hb' hk) hwp
    · omega

theorem Step.layered {cs : List SplitCall} (h : Step t cs t') (S : t.Sound) (O : t.Ordered)
    (V : t.Layered) : t'.Layered := by
  cases h with
  | skip => exact V
  | revise h => exact h.layered V
  | push h => exact h.layered S O V
  | splitLeaf h => exact h.layered V
  | splitNode h => exact h.layered V

theorem Steps.layered {cs : List SplitCall} (h : Steps t cs t') (S : t.Sound) (O : t.Ordered)
    (V : t.Layered) (hF : ∀ c ∈ cs, c.Fair) : t'.Layered := by
  induction h with
  | refl => exact V
  | tail hss hs ih =>
    exact hs.layered (hss.sound S)
      (hss.ordered S O fun c hc => hF c (List.mem_append_right _ hc))
      (ih fun c hc => hF c (List.mem_append_right _ hc))

/-! ## The walk -/

namespace View

/-- The path of `find_path` in a view. -/
def route (v : View) (k : Bytes) : Nat → NodeId → List NodeId
  | 0, x => [x]
  | h + 1, x => x :: v.route k h (scan v.minKey k ((v.kids x).headD invalidNodeId) (v.kids x))

/-- The first version on a path. -/
def firstVersion (v : View) (k : Bytes) (path : List NodeId) : Option Entry :=
  path.findSome? fun x => (v x).bind (·.get k)

/-- `r` is the newest stored version of `k`, if there is one. -/
def Newest (v : View) (k : Bytes) (r : Option Entry) : Prop :=
  match r with
  | some e => v.Stored e ∧ e.key = k ∧ ∀ e', v.Stored e' → e'.key = k → e'.seqNo ≤ e.seqNo
  | none => ∀ e, v.Stored e → e.key ≠ k

end View

/-- The scan over the children of an owner finds the owner in the next row. -/
theorem Tree.Ordered.owns_next (O : t.Ordered) (S : t.Sound) {k : Bytes} {d : Nat} {x : NodeId}
    {n : SSTNode} (hn : t.view x = some n) (hl : n.level ≠ 0)
    (hx : Owns t.view.minKey (t.view.row t.root d) k x) :
    Owns t.view.minKey (t.view.row t.root (d + 1)) k
      (scan t.view.minKey k (n.childIds.headD invalidNodeId) n.childIds) := by
  have hrow : t.view.row t.root (d + 1) = (t.view.row t.root d).flatMap t.view.kids := rfl
  have hsub : n.childIds.Sublist (t.view.row t.root (d + 1)) := by
    have := (List.singleton_sublist.mpr hx.mem).flatMap t.view.kids
    simpa [View.kids_some hn, View.row, level_succ] using this
  rw [hrow]
  refine hx.subst ?_ ?_ ?_
  · rw [View.kids_some hn]
    cases hk : n.childIds with
    | nil =>
      have := S.headKid hn hl
      simp [hk] at this
    | cons c cs => exact owns_scan ((O.asc (d + 1)).sublist (hk ▸ hsub))
  · intro hxt c hc
    rw [View.kids_some hn] at hc
    rw [View.minKey_some hn, (O.fit hxt hn).head hl, View.headMin, List.headD_eq_head?_getD, hc]
    exact le_rfl
  · intro y hy c hc
    obtain ⟨m, hm, -, -⟩ := S.shape.node (List.mem_of_mem_tail hy)
    rw [View.kids_some hm] at hc
    exact O.le_kid S hy hm hc

end GravTree
