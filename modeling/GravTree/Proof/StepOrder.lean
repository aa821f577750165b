import GravTree.Proof.Order
import GravTree.Calls

/-!
# The steps keep the order

Rewriting a node and pushing a buffer down keep the order as they are. A split of a
leaf keeps it under two conditions, which the source does not check: the two
halves have no key in common, and the left half is not empty unless the leaf is the
first of its row.
-/

namespace GravTree

open Forest Fence

variable {t t' : Tree}

theorem owns_singleton {f : NodeId → Bytes} {k : Bytes} (z : NodeId) : Owns f [z] k z :=
  ⟨[], [], rfl, by simp, by simp⟩

namespace Tree.Sound

theorem root_notMem_tail (S : t.Sound) {d : Nat} : t.root ∉ (t.view.row t.root d).tail := by
  intro h
  obtain rfl : 0 = d := S.shape.depth_unique (Shape.root_mem t.view t.root) (List.mem_of_mem_tail h)
  simp at h

theorem root_not_pair (S : t.Sound) {d : Nat} {y : NodeId} :
    ¬ [t.root, y].Sublist (t.view.row t.root d) := by
  intro h
  obtain rfl : 0 = d := S.shape.depth_unique (Shape.root_mem t.view t.root) (h.subset (by simp))
  have := h.length_le
  simp at this

end Tree.Sound

theorem Fenced.le {v : View} {n : SSTNode} {old u : Bytes} (F : Fenced v n old)
    (hh : v.headMin n ≤ u) (ho : old ≤ u) (hk : ∀ e ∈ n.buffer, e.key ≤ u) :
    n.keyRange.minKey ≤ u := by
  rcases F.cases with h | h | ⟨e, he, h⟩
  · exact h ▸ hh
  · exact h ▸ ho
  · exact h ▸ hk e he

theorem LeafFenced.le {n : SSTNode} {u : Bytes} (F : LeafFenced n)
    (hk : ∀ e ∈ n.buffer, e.key ≤ u) : n.keyRange.minKey ≤ u := by
  rw [F]
  cases h : n.buffer with
  | nil => exact Bytes.empty_le u
  | cons e es => exact hk e (by simp [h])

/-- The smallest key of a sorted buffer. -/
theorem head_key_eq {es : List Entry} {k : Bytes} (hs : Sorted es) (hle : ∀ e ∈ es, k ≤ e.key)
    (hk : ∃ e ∈ es, e.key = k) : es.head?.elim .empty (·.key) = k := by
  obtain ⟨a, ha, rfl⟩ := hk
  cases es with
  | nil => simp at ha
  | cons e es => exact le_antisymm (hs.key_le a ha) (hle e (by simp))

/-- If fences stay at the start of each replacement, so does the first child's. -/
theorem headMin_eq (S : t.Sound) {v' : View} {σ : NodeId → List NodeId} (hσ : ∀ x, σ x ≠ [])
    (hlow : ∀ d, ∀ x ∈ (t.view.row t.root d).tail, ∀ z, (σ x).head? = some z →
      v'.minKey z = t.view.minKey x)
    {d : Nat} {x : NodeId} {m m' : SSTNode} (hx : x ∈ (t.view.row t.root d).tail)
    (hm : t.view x = some m) (hl : m.level ≠ 0) (hk : m'.childIds = m.childIds.flatMap σ) :
    v'.headMin m' = t.view.headMin m := by
  have hc := S.headKid hm hl
  have hct := S.kids_mem_tail hx hm hc
  unfold View.headMin
  rw [hk]
  cases hm' : m.childIds with
  | nil => simp [hm'] at hc
  | cons c cs =>
    rw [hm'] at hct
    obtain ⟨z, zs, hz⟩ := List.exists_cons_of_ne_nil (hσ c)
    simp only [List.flatMap_cons, hz, List.cons_append, List.headD_cons]
    exact hlow _ c hct z (by simp [hz])

/-- A node whose range, level and buffer stay, and whose first child's fence stays. -/
theorem Fit.calm {v v' : View} {m m' : SSTNode} (F : Fit v m)
    (hr : m'.keyRange.minKey = m.keyRange.minKey) (hl : m'.level = m.level)
    (hb : m'.buffer = m.buffer) (hh : m.level ≠ 0 → v'.headMin m' = v.headMin m) : Fit v' m' where
  head h := by rw [hr, hh (hl ▸ h), F.head (hl ▸ h)]
  proper h := hr ▸ F.proper (hl ▸ h)
  leaf h := by
    obtain ⟨hne, hf⟩ := F.leaf (hl ▸ h)
    exact ⟨hb ▸ hne, by rw [LeafFenced, hr, hb]; exact hf⟩

/-! ## Rewriting a node -/

namespace Revises

variable {x : NodeId} {n n' : SSTNode}

theorem minKey_other (R : Revises t t' x n n') {y : NodeId} (hy : y ≠ x) :
    t'.view.minKey y = t.view.minKey y := by
  simp [View.minKey, R.view, hy]

theorem minKey_self (R : Revises t t' x n n') : t'.view.minKey x = n'.keyRange.minKey :=
  View.minKey_some (by simp [R.view])

theorem headMin_self (R : Revises t t' x n n') : t.view.headMin n' = t.view.headMin n := by
  rw [View.headMin, R.kids, View.headMin]

theorem low (R : Revises t t' x n n') (S : t.Sound) (O : t.Ordered) (d : Nat) :
    ∀ y ∈ (t.view.row t.root d).tail, ∀ z, [y].head? = some z →
      t'.view.minKey z = t.view.minKey y := by
  intro y hy z hz
  obtain rfl : y = z := by simpa using hz
  by_cases hyx : y = x
  · subst hyx
    obtain ⟨hl, F⟩ := R.fence fun h => S.root_notMem_tail (h ▸ hy)
    have hh := (O.fit hy R.here).head hl
    rw [R.minKey_self, View.minKey_some R.here, hh, ← R.headMin_self]
    refine F.head rfl ?_ fun e he => ?_
    · exact R.headMin_self ▸ O.minKey_ne_empty hy R.here hl
    · rw [R.headMin_self, ← hh]
      exact O.fence_le S hy R.here (mem_of_mem_sortBuffer (R.buffer ▸ he))
  · exact R.minKey_other hyx

theorem ordered (R : Revises t t' x n n') (S : t.Sound) (O : t.Ordered) : t'.Ordered := by
  have hsome : ∀ {y m'}, t'.view y = some m' → y = x ∧ m' = n' ∨ y ≠ x ∧ t.view y = some m' := by
    intro y m' hy
    rw [R.view] at hy
    by_cases hyx : y = x
    · subst hyx
      exact .inl ⟨rfl, by simpa using hy.symm⟩
    · exact .inr ⟨hyx, by simpa [hyx] using hy⟩
  have hkids : t'.view.kids = t.view.kids := by
    funext y
    by_cases hyx : y = x
    · subst hyx
      rw [View.kids_some R.here, View.kids_some (n := n') (by simp [R.view]), R.kids]
    · simp [View.kids, R.view, hyx]
  refine Tree.Ordered.of_rearranges t (fun y => [y]) (fun d => .inr ⟨d, ?_⟩) fun d => ?_
  · simp [View.row, hkids, R.root]
  refine ⟨?_, fun _ _ => List.pairwise_singleton .., R.low S O d, ?_, ?_⟩
  · intro y w hyw z hz
    obtain rfl : z = y := by simpa using hz
    by_cases hzx : z = x
    · subst hzx
      have hne : z ≠ t.root := fun h => S.root_not_pair (h ▸ hyw)
      have hkid := O.kid_le S hyw R.here (S.headKid R.here (R.fence hne).1)
      rw [R.minKey_self]
      refine (R.fence hne).2.le (R.headMin_self ▸ hkid) (R.headMin_self ▸ hkid) fun e he => ?_
      exact (O.key_lt S hyw R.here (mem_of_mem_sortBuffer (R.buffer ▸ he))).le
    · exact R.minKey_other hzx ▸ O.le_of_pair hyw
  · intro y hy z hz m' hm' e he
    obtain rfl : z = y := by simpa using hz
    refine ⟨?_, owns_singleton z⟩
    rcases hsome hm' with ⟨rfl, rfl⟩ | ⟨-, hm⟩
    · exact O.owns hy R.here e (mem_of_mem_sortBuffer (R.buffer ▸ he))
    · exact O.owns hy hm e he
  · intro y _ z hz hy m' hm'
    obtain rfl : z = y := by simpa using hz
    have hy : z ∈ (t.view.row t.root d).tail := by simpa using hy
    have hlow := R.low S O d z hy z rfl
    rcases hsome hm' with ⟨rfl, rfl⟩ | ⟨-, hm⟩
    · obtain ⟨hl, -⟩ := R.fence fun h => S.root_notMem_tail (h ▸ hy)
      rw [R.minKey_self, View.minKey_some R.here] at hlow
      refine ⟨fun _ => ?_, fun _ => hlow ▸ (O.fit hy R.here).proper hl,
        fun h0 => absurd (R.level ▸ h0) hl⟩
      rw [hlow, (O.fit hy R.here).head hl]
      exact (headMin_eq S (by simp) (R.low S O) hy R.here hl (by simp [R.kids])).symm
    · refine (O.fit hy hm).calm rfl rfl rfl fun hl => ?_
      exact headMin_eq S (by simp) (R.low S O) hy hm hl (by simp)

end Revises

/-! ## Pushing a buffer down -/

/-- The fence of a later node is not above those of its own children. -/
theorem Tree.Ordered.le_kid (O : t.Ordered) (S : t.Sound) {d : Nat} {x c : NodeId} {n : SSTNode}
    (hx : x ∈ (t.view.row t.root d).tail) (hn : t.view x = some n) (hc : c ∈ n.childIds) :
    t.view.minKey x ≤ t.view.minKey c := by
  have hl : n.level ≠ 0 := by
    intro h0
    simp [(S.shape.fit hn).2 h0] at hc
  have hsub : n.childIds.Sublist (t.view.row t.root (d + 1)) := by
    have := (List.singleton_sublist.mpr (List.mem_of_mem_tail hx)).flatMap t.view.kids
    simpa [View.kids_some hn, View.row, level_succ] using this
  rw [View.minKey_some hn, (O.fit hx hn).head hl, View.headMin]
  cases hk : n.childIds with
  | nil => simp [hk] at hc
  | cons g gs =>
    rw [hk] at hc hsub
    rcases List.mem_cons.mp hc with rfl | hc
    · exact le_rfl
    · exact O.le_of_pair (((List.singleton_sublist.mpr hc).cons_cons g).trans hsub)

namespace Pushes

variable {p : NodeId} {n n' : SSTNode} {f : NodeId → SSTNode}

/-- The parent's entries belong to the children they are routed to. -/
theorem owns_part (P : Pushes t t' p n n' f) (S : t.Sound) (O : t.Ordered) {d : Nat} {c : NodeId}
    (hc : c ∈ n.childIds) (hcd : c ∈ t.view.row t.root d) {e : Entry}
    (he : e ∈ t.view.part n c) : Owns t.view.minKey (t.view.row t.root d) e.key c := by
  obtain ⟨dp, hdp⟩ := S.shape.all P.here
  have hrow : t.view.row t.root (dp + 1) = (t.view.row t.root dp).flatMap t.view.kids := rfl
  obtain rfl : d = dp + 1 := S.shape.depth_unique hcd
    (mem_level_succ.mpr ⟨p, hdp, by rwa [View.kids_some P.here]⟩)
  obtain ⟨heb, htc⟩ := List.mem_filter.mp he
  obtain ⟨c', hc', howns⟩ := owns_targetChild t.view.minKey (P.kids_ne S) e.key
  obtain rfl : c' = c := Option.some.inj (hc'.symm.trans (by simpa using htc))
  rw [hrow]
  refine (O.owns hdp P.here e heb).subst (by rwa [View.kids_some P.here]) ?_ ?_
  · intro hpt g hg
    rw [View.kids_some P.here] at hg
    rw [View.minKey_some P.here, (O.fit hpt P.here).head P.inner, View.headMin,
      List.headD_eq_head?_getD, hg]
    exact le_rfl
  · intro q hq g hg
    obtain ⟨m, hm, -, -⟩ := S.shape.node (List.mem_of_mem_tail hq)
    rw [View.kids_some hm] at hg
    exact O.le_kid S hq hm hg

theorem owns_child (P : Pushes t t' p n n' f) (S : t.Sound) (O : t.Ordered) {d : Nat} {c : NodeId}
    (hc : c ∈ n.childIds) (hcd : c ∈ t.view.row t.root d) {e : Entry} (he : e ∈ (f c).buffer) :
    Owns t.view.minKey (t.view.row t.root d) e.key c := by
  obtain ⟨m, hm, -, -⟩ := S.shape.child_mem P.here hc
  rcases P.mem_child hc hm he with he | he
  · exact P.owns_part S O hc hcd he
  · exact O.owns hcd hm e he

theorem headMin_child (P : Pushes t t' p n n' f) {c : NodeId} (hc : c ∈ n.childIds) {m : SSTNode}
    (hm : t.view c = some m) : t.view.headMin (f c) = t.view.headMin m := by
  rw [View.headMin, (P.child c hc m hm).2, View.headMin]

/-- A child other than the first of its row keeps its fence. -/
theorem low_child (P : Pushes t t' p n n' f) (S : t.Sound) (O : t.Ordered) {d : Nat} {c : NodeId}
    (hc : c ∈ n.childIds) (hcd : c ∈ (t.view.row t.root d).tail) {m : SSTNode}
    (hm : t.view c = some m) : (f c).keyRange.minKey = m.keyRange.minKey := by
  have hF := O.fit hcd hm
  have hle : ∀ e ∈ (f c).buffer, m.keyRange.minKey ≤ e.key := fun e he =>
    View.minKey_some hm ▸ Owns.fence_le (S.shape.nodup d)
      (P.owns_child S O hc (List.mem_of_mem_tail hcd) he) hcd
  by_cases hp : t.view.part n c = []
  · obtain ⟨-, -, hleaf, hinner⟩ := P.kept c hc m hm hp
    by_cases hl : m.level = 0
    · exact hleaf hl
    · have hh := hF.head hl
      rw [hh, ← P.headMin_child hc hm]
      refine (hinner hl).head (hh.trans (P.headMin_child hc hm).symm) ?_ fun e he => ?_
      · exact P.headMin_child hc hm ▸ O.minKey_ne_empty hcd hm hl
      · exact P.headMin_child hc hm ▸ hh ▸ hle e he
  · obtain ⟨-, -, hbuf, hleaf, hinner⟩ := P.made c hc m hm hp
    by_cases hl : m.level = 0
    · -- the leaf's smallest key is still there, and nothing smaller came
      obtain ⟨hne, hfence⟩ := hF.leaf hl
      rw [hleaf hl]
      refine head_key_eq (P.unique_child S hc).sorted hle ?_
      cases hb : m.buffer with
      | nil => exact absurd hb hne
      | cons e es =>
        obtain ⟨e', he', hk, -⟩ := P.covers_child hc hm (.inr (hb ▸ List.mem_cons_self ..))
        exact ⟨e', he', by rw [hk, hfence, hb]; rfl⟩
    · have hh := hF.head hl
      rw [hh, ← P.headMin_child hc hm]
      refine (hinner hl).head rfl ?_ fun e he => ?_
      · exact P.headMin_child hc hm ▸ O.minKey_ne_empty hcd hm hl
      · exact P.headMin_child hc hm ▸ hh ▸ hle e he

/-- A child's fence stays below later ones. -/
theorem up_child (P : Pushes t t' p n n' f) (S : t.Sound) (O : t.Ordered) {d : Nat} {c w : NodeId}
    (hc : c ∈ n.childIds) (hcw : [c, w].Sublist (t.view.row t.root d)) :
    (f c).keyRange.minKey ≤ t.view.minKey w := by
  obtain ⟨m, hm, -, -⟩ := S.shape.child_mem P.here hc
  have hcd : c ∈ t.view.row t.root d := hcw.subset (by simp)
  have hkey : ∀ e ∈ (f c).buffer, e.key ≤ t.view.minKey w := fun e he =>
    (Owns.lt_of_pair (S.shape.nodup d) (P.owns_child S O hc hcd he) hcw).le
  have hmin : m.keyRange.minKey ≤ t.view.minKey w := View.minKey_some hm ▸ O.le_of_pair hcw
  have hhead : m.level ≠ 0 → t.view.headMin (f c) ≤ t.view.minKey w := fun hl =>
    P.headMin_child hc hm ▸ O.kid_le S hcw hm (S.headKid hm hl)
  by_cases hp : t.view.part n c = []
  · obtain ⟨-, -, hleaf, hinner⟩ := P.kept c hc m hm hp
    by_cases hl : m.level = 0
    · exact hleaf hl ▸ hmin
    · exact (hinner hl).le (hhead hl) hmin hkey
  · obtain ⟨-, -, -, hleaf, hinner⟩ := P.made c hc m hm hp
    by_cases hl : m.level = 0
    · exact (hleaf hl).le hkey
    · exact (hinner hl).le (hhead hl) (hhead hl) hkey

theorem minKey_child (P : Pushes t t' p n n' f) {c : NodeId} (hc : c ∈ n.childIds) :
    t'.view.minKey (f c).id = (f c).keyRange.minKey := View.minKey_some (P.at_child c hc)

/-- The parent's own fence is that of its first child's replacement. -/
theorem fence_head (P : Pushes t t' p n n' f) (S : t.Sound) :
    n'.keyRange.minKey = (f (n.childIds.headD invalidNodeId)).keyRange.minKey := by
  have hc := S.headKid P.here P.inner
  rw [P.fence, View.headMin, P.kids, ← P.minKey_child hc]
  cases hk : n.childIds with
  | nil => simp [hk] at hc
  | cons c cs => rfl

theorem low (P : Pushes t t' p n n' f) (S : t.Sound) (O : t.Ordered) (d : Nat) :
    ∀ y ∈ (t.view.row t.root d).tail, ∀ z, [ren n f y].head? = some z →
      t'.view.minKey z = t.view.minKey y := by
  intro y hy z hz
  obtain rfl : ren n f y = z := by simpa using hz
  obtain ⟨m, hm, -, -⟩ := S.shape.node (List.mem_of_mem_tail hy)
  by_cases hyp : y = p
  · subst hyp
    have hc := S.headKid P.here P.inner
    have hct := S.kids_mem_tail hy P.here hc
    obtain ⟨k, hk, -, -⟩ := S.shape.child_mem P.here hc
    rw [ren_other (P.p_notMem S), View.minKey_some P.at_p, P.fence_head S,
      P.low_child S O hc hct hk, View.minKey_some P.here, (O.fit hy P.here).head P.inner,
      View.headMin, View.minKey_some hk]
  by_cases hyn : y ∈ n.childIds
  · rw [ren_kid hyn, P.minKey_child hyn, P.low_child S O hyn hy hm, View.minKey_some hm]
  · rw [ren_other hyn, View.minKey, P.calm S hyp hyn (S.below hm), View.minKey]

theorem ordered (P : Pushes t t' p n n' f) (S : t.Sound) (O : t.Ordered) : t'.Ordered := by
  refine Tree.Ordered.of_rearranges t (fun y => [ren n f y]) (fun d => .inr ⟨d, ?_⟩)
    fun d => ?_
  · exact (P.replaces S).row S.shape (by rw [ren_other (P.root_calm S), P.root]) d
  have hrow := fun (y : NodeId) (hy : y ∈ t.view.row t.root d) => S.shape.node hy
  refine ⟨?_, fun _ _ => List.pairwise_singleton .., P.low S O d, ?_, ?_⟩
  · intro y w hyw z hz
    obtain rfl : z = ren n f y := by simpa using hz
    obtain ⟨m, hm, -, -⟩ := hrow y (hyw.subset (by simp))
    by_cases hyp : y = p
    · subst hyp
      -- the first child of `p` comes before the first child of the later node
      have hc := S.headKid P.here P.inner
      have hwt := mem_tail_of_pair hyw
      obtain ⟨k, hk, -, hkl⟩ := hrow w (List.mem_of_mem_tail hwt)
      have hkl' : k.level ≠ 0 := by
        have := (S.shape.mem_row_iff P.here).mp (hyw.subset (List.mem_cons_self ..))
        have := P.inner
        omega
      rw [ren_other (P.p_notMem S), View.minKey_some P.at_p, P.fence_head S,
        View.minKey_some hk, (O.fit hwt hk).head hkl']
      exact P.up_child S O hc (Tree.kids_pair hyw P.here hk hc (S.headKid hk hkl'))
    by_cases hyn : y ∈ n.childIds
    · rw [ren_kid hyn, P.minKey_child hyn]
      exact P.up_child S O hyn hyw
    · rw [ren_other hyn, View.minKey, P.calm S hyp hyn (S.below hm)]
      exact O.le_of_pair hyw
  · intro y hy z hz m' hm' e he
    obtain rfl : z = ren n f y := by simpa using hz
    refine ⟨?_, owns_singleton _⟩
    obtain ⟨m, hm, -, -⟩ := hrow y hy
    by_cases hyp : y = p
    · subst hyp
      rw [ren_other (P.p_notMem S), P.at_p] at hm'
      cases hm'
      simp [P.buffer] at he
    by_cases hyn : y ∈ n.childIds
    · rw [ren_kid hyn, P.at_child y hyn] at hm'
      cases hm'
      exact P.owns_child S O hyn hy he
    · rw [ren_other hyn, P.calm S hyp hyn (S.below hm)] at hm'
      exact O.owns hy hm' e he
  · intro y hyr z hz hy m' hm'
    obtain rfl : z = ren n f y := by simpa using hz
    have hy : y ∈ (t.view.row t.root d).tail := by simpa using hy
    obtain ⟨m, hm, -, -⟩ := hrow y hyr
    by_cases hyp : y = p
    · subst hyp
      rw [ren_other (P.p_notMem S), P.at_p] at hm'
      cases hm'
      have hlow := P.low S O d y hy y (by rw [ren_other (P.p_notMem S)]; rfl)
      rw [View.minKey_some P.at_p, View.minKey_some P.here] at hlow
      exact ⟨fun _ => P.fence, fun _ => hlow ▸ (O.fit hy P.here).proper P.inner,
        fun h0 => absurd (P.level ▸ h0) P.inner⟩
    by_cases hyn : y ∈ n.childIds
    · rw [ren_kid hyn, P.at_child y hyn] at hm'
      cases hm'
      have hlow := P.low_child S O hyn hy hm
      have hF := O.fit hy hm
      refine ⟨fun hl => ?_, fun hl => hlow ▸ hF.proper ((P.child y hyn m hm).1 ▸ hl), fun hl => ?_⟩
      · have hl' : m.level ≠ 0 := (P.child y hyn m hm).1 ▸ hl
        rw [hlow, hF.head hl']
        refine (headMin_eq S (by simp) (P.low S O) hy hm hl' ?_).symm
        rw [(P.child y hyn m hm).2, ← List.map_eq_flatMap]
        exact (List.map_id' m.childIds).symm.trans (List.map_congr_left fun g hg =>
          (ren_other (P.grandkids_calm S hyn hm hg).1).symm)
      · have hl' : m.level = 0 := (P.child y hyn m hm).1 ▸ hl
        obtain ⟨hne, hfence⟩ := hF.leaf hl'
        by_cases hp : t.view.part n y = []
        · obtain ⟨-, hbuf, hmin, -⟩ := P.kept y hyn m hm hp
          exact ⟨hbuf ▸ hne, by rw [LeafFenced, hbuf, hmin hl']; exact hfence⟩
        · refine ⟨fun h => ?_, (P.made y hyn m hm hp).2.2.2.1 hl'⟩
          obtain ⟨e, he⟩ := List.exists_mem_of_ne_nil _ hne
          obtain ⟨e', he', -⟩ := P.covers_child hyn hm (.inr he)
          simp [h] at he'
    · rw [ren_other hyn, P.calm S hyp hyn (S.below hm), hm] at hm'
      cases hm'
      refine (O.fit hy hm).calm rfl rfl rfl fun hl => ?_
      refine headMin_eq S (by simp) (P.low S O) hy hm hl ?_
      rw [← List.map_eq_flatMap]
      refine (List.map_id' _).symm.trans (List.map_congr_left fun g hg => ?_)
      rw [ren_other]
      exact fun hgn => hyp (S.shape.parent_unique hm P.here hg hgn)

end Pushes

/-! ## Splitting a node -/

/-- What a split has to respect for the order to survive. -/
structure Splits.Fair (t : Tree) (x : NodeId) (n nb : SSTNode) (L : List Entry) : Prop where
  /-- The halves of a leaf have no key in common. -/
  apart : n.level = 0 → ∀ e ∈ L, e.key < nb.keyRange.minKey
  /-- The left half of a leaf is only empty at the start of the row. -/
  solid : n.level = 0 → ∀ d, x ∈ (t.view.row t.root d).tail → L ≠ []

theorem LeafFenced.le_key {n : SSTNode} (F : LeafFenced n) (hs : Sorted n.buffer) {e : Entry}
    (he : e ∈ n.buffer) : n.keyRange.minKey ≤ e.key := by
  rw [F]
  cases hb : n.buffer with
  | nil => simp [hb] at he
  | cons a es => exact (hb ▸ hs).key_le e (hb ▸ he)

namespace Splits

variable {x a b : NodeId} {n na nb : SSTNode} {L R : List Entry}

theorem mem_left (P : Splits t t' x a b n na nb L R) {e : Entry} (he : e ∈ na.buffer) : e ∈ L :=
  mem_of_mem_sortBuffer (P.buffer_a ▸ he)

theorem mem_right (P : Splits t t' x a b n na nb L R) {e : Entry} (he : e ∈ nb.buffer) : e ∈ R :=
  mem_of_mem_sortBuffer (P.buffer_b ▸ he)

theorem minKey_a (P : Splits t t' x a b n na nb L R) :
    t'.view.minKey a = na.keyRange.minKey := View.minKey_some P.at_a

theorem minKey_b (P : Splits t t' x a b n na nb L R) :
    t'.view.minKey b = nb.keyRange.minKey := View.minKey_some P.at_b

theorem minKey_other (P : Splits t t' x a b n na nb L R) (S : t.Sound) {y : NodeId} {m : SSTNode}
    (hy : t.view y = some m) (hyx : y ≠ x) : t'.view.minKey y = t.view.minKey y := by
  rw [View.minKey_some (P.at_other S hy hyx), View.minKey_some hy]
  rfl

theorem headMin_a (P : Splits t t' x a b n na nb L R) (hl : n.level ≠ 0) :
    t.view.headMin na = t.view.headMin n := by
  have h2 := P.fit_a.1 (P.level_a ▸ hl)
  rw [View.headMin, View.headMin, ← P.kids]
  cases hk : na.childIds with
  | nil => simp [hk] at h2
  | cons c cs => rfl

theorem headKid_b (P : Splits t t' x a b n na nb L R) (hl : n.level ≠ 0) :
    nb.childIds.headD invalidNodeId ∈ nb.childIds := by
  have h2 := P.fit_b.1 (P.level_b ▸ hl)
  cases hk : nb.childIds with
  | nil => simp [hk] at h2
  | cons c cs => simp

/-- The first child of the right half is at least the third of its row. -/
theorem headMin_b_ne (P : Splits t t' x a b n na nb L R) (S : t.Sound) (O : t.Ordered)
    (hl : n.level ≠ 0) : t.view.headMin nb ≠ .empty := by
  obtain ⟨d, hd⟩ := S.shape.all P.here
  have hsub : n.childIds.Sublist (t.view.row t.root (d + 1)) := by
    have := (List.singleton_sublist.mpr hd).flatMap t.view.kids
    simpa [View.kids_some P.here, View.row, level_succ] using this
  refine O.minKey_ne_empty_of_tail_tail S (hsub.tail.tail.subset ?_)
  have h2 := (P.two hl).1
  rw [← P.kids]
  match hk : na.childIds with
  | [] => simp [hk] at h2
  | [_] => simp [hk] at h2
  | _ :: _ :: ks => exact List.mem_append_right ks (P.headKid_b hl)

/-- The right half of an internal node starts at its first child. -/
theorem fence_b (P : Splits t t' x a b n na nb L R) (S : t.Sound) (O : t.Ordered)
    (hl : n.level ≠ 0) : nb.keyRange.minKey = t.view.headMin nb := by
  obtain ⟨-, hR, -, hF⟩ := P.node hl
  exact hF.head rfl (P.headMin_b_ne S O hl) fun e he => hR e (P.mem_right he)

theorem proper_b (P : Splits t t' x a b n na nb L R) (S : t.Sound) (O : t.Ordered)
    (hl : n.level ≠ 0) : nb.keyRange.minKey ≠ .empty :=
  P.fence_b S O hl ▸ P.headMin_b_ne S O hl

/-- The left half keeps the fence of a node other than the first of its row. -/
theorem fence_a (P : Splits t t' x a b n na nb L R) (S : t.Sound) (O : t.Ordered)
    (F : Fair t x n nb L) {d : Nat} (hx : x ∈ (t.view.row t.root d).tail) :
    na.keyRange.minKey = n.keyRange.minKey := by
  have hfit := O.fit hx P.here
  by_cases hl : n.level = 0
  · obtain ⟨hLR, -, hfa, -⟩ := P.leaf hl
    obtain ⟨-, hfence⟩ := hfit.leaf hl
    have hsL : Sorted L := (hLR ▸ S.sorted P.here).sublist (List.sublist_append_left L R)
    rw [hfa, hfence, P.buffer_a, sortBuffer_of_sorted hsL, head?_dedup, ← hLR]
    cases hL : L with
    | nil => exact absurd hL (F.solid hl d hx)
    | cons e es => rfl
  · obtain ⟨-, -, hFa, -⟩ := P.node hl
    have hh := hfit.head hl
    rw [hh, ← P.headMin_a hl]
    refine hFa.head rfl (P.headMin_a hl ▸ O.minKey_ne_empty hx P.here hl) fun e he => ?_
    rw [P.headMin_a hl, ← hh]
    exact O.fence_le S hx P.here (P.mem_half (.inl he))

theorem low (P : Splits t t' x a b n na nb L R) (S : t.Sound) (O : t.Ordered)
    (F : Fair t x n nb L) (d : Nat) :
    ∀ y ∈ (t.view.row t.root d).tail, ∀ z, (splitAt x a b y).head? = some z →
      t'.view.minKey z = t.view.minKey y := by
  intro y hy z hz
  obtain ⟨m, hm, -, -⟩ := S.shape.node (List.mem_of_mem_tail hy)
  by_cases hyx : y = x
  · subst hyx
    obtain rfl : a = z := by simpa using hz
    rw [P.minKey_a, P.fence_a S O F hy, View.minKey_some P.here]
  · obtain rfl : y = z := by simpa [splitAt_ne a b hyx] using hz
    exact P.minKey_other S hm hyx

/-- The halves stay below the fences of later nodes. -/
theorem up (P : Splits t t' x a b n na nb L R) (S : t.Sound) (O : t.Ordered) {d : Nat} {w : NodeId}
    (hxw : [x, w].Sublist (t.view.row t.root d)) :
    na.keyRange.minKey ≤ t.view.minKey w ∧ nb.keyRange.minKey ≤ t.view.minKey w := by
  have hkey : ∀ {e}, e ∈ na.buffer ∨ e ∈ nb.buffer → e.key ≤ t.view.minKey w := fun he =>
    (O.key_lt S hxw P.here (P.mem_half he)).le
  by_cases hl : n.level = 0
  · obtain ⟨-, -, hfa, hfb⟩ := P.leaf hl
    exact ⟨hfa.le fun e he => hkey (.inl he), hfb.le fun e he => hkey (.inr he)⟩
  · obtain ⟨-, -, hFa, -⟩ := P.node hl
    have ha : t.view.headMin na ≤ t.view.minKey w := by
      rw [P.headMin_a hl]
      exact O.kid_le S hxw P.here (S.headKid P.here hl)
    refine ⟨hFa.le ha ha fun e he => hkey (.inl he), ?_⟩
    rw [P.fence_b S O hl]
    refine O.kid_le S hxw P.here ?_
    rw [← P.kids]
    exact List.mem_append_right _ (P.headKid_b hl)

/-- The halves are in order. -/
theorem fence_le_fence (P : Splits t t' x a b n na nb L R) (S : t.Sound) (O : t.Ordered)
    (F : Fair t x n nb L) : na.keyRange.minKey ≤ nb.keyRange.minKey := by
  by_cases hl : n.level = 0
  · obtain ⟨-, -, hfa, -⟩ := P.leaf hl
    exact hfa.le fun e he => (F.apart hl e (P.mem_left he)).le
  · obtain ⟨hL, -, hFa, -⟩ := P.node hl
    obtain ⟨d, hd⟩ := S.shape.all P.here
    have hsub : n.childIds.Sublist (t.view.row t.root (d + 1)) := by
      have := (List.singleton_sublist.mpr hd).flatMap t.view.kids
      simpa [View.kids_some P.here, View.row, level_succ] using this
    have hhead : t.view.headMin na ≤ t.view.headMin nb := by
      have ha : na.childIds.headD invalidNodeId ∈ na.childIds := by
        have h2 := P.fit_a.1 (P.level_a ▸ hl)
        cases hk : na.childIds with
        | nil => simp [hk] at h2
        | cons c cs => simp
      refine O.le_of_pair (List.Sublist.trans ?_ hsub)
      rw [← P.kids]
      exact (List.singleton_sublist.mpr ha).append (List.singleton_sublist.mpr (P.headKid_b hl))
    rw [P.fence_b S O hl]
    exact hFa.le hhead hhead fun e he => (hL e (P.mem_left he)).le

theorem ordered (P : Splits t t' x a b n na nb L R) (S : t.Sound) (O : t.Ordered)
    (F : Fair t x n nb L) : t'.Ordered := by
  have hold : ∀ {y : NodeId}, y ≠ x → splitAt x a b y = [y] := fun h => splitAt_ne a b h
  have hne : ∀ y, splitAt x a b y ≠ [] := by
    intro y
    unfold splitAt
    split <;> simp
  have hleft : ∀ e ∈ na.buffer, e.key < nb.keyRange.minKey := by
    intro e he
    by_cases hl : n.level = 0
    · exact F.apart hl e (P.mem_left he)
    · exact P.fence_b S O hl ▸ (P.node hl).1 e (P.mem_left he)
  have hright : ∀ e ∈ nb.buffer, nb.keyRange.minKey ≤ e.key := by
    intro e he
    by_cases hl : n.level = 0
    · refine (P.leaf hl).2.2.2.le_key ?_ he
      exact P.buffer_b ▸ (uniqueKeys_sortBuffer _).sorted
    · exact P.fence_b S O hl ▸ (P.node hl).2.1 e (P.mem_right he)
  refine Tree.Ordered.of_rearranges t (splitAt x a b) (fun d => ?_) fun d => ?_
  · rcases P.root with ⟨hx, hroot⟩ | ⟨rfl, -, -, -, -, r, hr, -, -, hk, -⟩
    · exact .inr ⟨d, (P.replaces S).row S.shape (by rw [hold (Ne.symm hx), hroot]) d⟩
    · cases d with
      | zero => exact .inl rfl
      | succ d =>
        refine .inr ⟨d, (P.replaces S).row_grow S.shape ?_ d⟩
        rw [View.kids_some hr, hk, splitAt_self]
  refine ⟨?_, ?_, P.low S O F d, ?_, ?_⟩
  · intro y w hyw z hz
    obtain ⟨m, hm, -, -⟩ := S.shape.node (hyw.subset (List.mem_cons_self ..))
    by_cases hyx : y = x
    · subst hyx
      rcases (by simpa using hz : z = a ∨ z = b) with rfl | rfl
      · exact P.minKey_a ▸ (P.up S O hyw).1
      · exact P.minKey_b ▸ (P.up S O hyw).2
    · obtain rfl : z = y := by simpa [hold hyx] using hz
      exact P.minKey_other S hm hyx ▸ O.le_of_pair hyw
  · intro y _
    by_cases hyx : y = x
    · subst hyx
      rw [splitAt_self, Ascending, List.pairwise_pair, P.minKey_a, P.minKey_b]
      exact P.fence_le_fence S O F
    · rw [hold hyx]
      exact List.pairwise_singleton ..
  · intro y hy z hz m' hm' e he
    obtain ⟨m, hm, -, -⟩ := S.shape.node hy
    by_cases hyx : y = x
    · subst hyx
      rw [splitAt_self] at hz ⊢
      rcases (by simpa using hz : z = a ∨ z = b) with rfl | rfl
      · rw [P.at_a] at hm'
        cases hm'
        refine ⟨O.owns hy P.here e (P.mem_half (.inl he)), [], [b], rfl, by simp, ?_⟩
        simpa [P.minKey_b] using hleft e he
      · rw [P.at_b] at hm'
        cases hm'
        refine ⟨O.owns hy P.here e (P.mem_half (.inr he)), [a], [], rfl, fun _ => ?_, by simp⟩
        exact P.minKey_b ▸ hright e he
    · rw [hold hyx] at hz ⊢
      obtain rfl : z = y := by simpa using hz
      rw [P.at_other S hm hyx] at hm'
      cases hm'
      exact ⟨O.owns hy hm e he, owns_singleton z⟩
  · intro y hyr z hz hy m' hm'
    obtain ⟨m, hm, -, -⟩ := S.shape.node hyr
    by_cases hyx : y = x
    · subst hyx
      rw [splitAt_self] at hz hy
      -- the fences of the grandchildren do not move
      have hhead : ∀ {q : SSTNode}, q.childIds.headD invalidNodeId ∈ n.childIds →
          t'.view.headMin q = t.view.headMin q := by
        intro q hq
        obtain ⟨k, hk, -, -⟩ := S.shape.child_mem P.here hq
        exact P.minKey_other S hk (S.kid_ne P.here hq)
      rcases (by simpa using hz : z = a ∨ z = b) with rfl | rfl
      · rw [P.at_a] at hm'
        cases hm'
        have hyt : y ∈ (t.view.row t.root d).tail := by
          refine hy.resolve_right ?_
          simpa using P.ne
        refine ⟨fun hl => ?_, fun hl => P.fence_a S O F hyt ▸
          (O.fit hyt P.here).proper (P.level_a ▸ hl), fun hl => ?_⟩
        · have hl' : n.level ≠ 0 := P.level_a ▸ hl
          have ha : na.childIds.headD invalidNodeId ∈ n.childIds := by
            have h2 := P.fit_a.1 hl
            rw [← P.kids]
            cases hk : na.childIds with
            | nil => simp [hk] at h2
            | cons c cs => simp
          rw [P.fence_a S O F hyt, hhead ha, P.headMin_a hl', (O.fit hyt P.here).head hl']
        · have hl' : n.level = 0 := P.level_a ▸ hl
          obtain ⟨-, -, hfa, -⟩ := P.leaf hl'
          refine ⟨fun h => F.solid hl' d hyt ?_, hfa⟩
          exact sortBuffer_eq_nil.mp (P.buffer_a ▸ h)
      · rw [P.at_b] at hm'
        cases hm'
        refine ⟨fun hl => ?_, fun hl => P.proper_b S O (P.level_b ▸ hl), fun hl => ?_⟩
        · have hl' : n.level ≠ 0 := P.level_b ▸ hl
          rw [P.fence_b S O hl', hhead]
          rw [← P.kids]
          exact List.mem_append_right _ (P.headKid_b hl')
        · have hl' : n.level = 0 := P.level_b ▸ hl
          obtain ⟨-, hR, -, hfb⟩ := P.leaf hl'
          exact ⟨fun h => hR (sortBuffer_eq_nil.mp (P.buffer_b ▸ h)), hfb⟩
    · rw [hold hyx] at hz hy
      obtain rfl : z = y := by simpa using hz
      have hy : z ∈ (t.view.row t.root d).tail := by simpa using hy
      rw [P.at_other S hm hyx] at hm'
      cases hm'
      exact (O.fit hy hm).calm rfl rfl rfl fun hl =>
        headMin_eq S hne (P.low S O F) hy hm hl rfl

end Splits

/-! ## Every step -/

/-- The first node of a row is the one reached through first children. -/
theorem head_row (S : t.Sound) {s : Store} (hs : ∀ y, s.cache.lookup y = t.view y) {d : Nat}
    (hd : d ≤ t.height) : (t.view.row t.root d).head? = some (s.firstLeaf d t.root) := by
  -- `firstLeaf` recurses from the top, rows grow at the bottom
  have key : ∀ k e y, e + k ≤ t.height → (t.view.row t.root e).head? = some y →
      (t.view.row t.root (e + k)).head? = some (s.firstLeaf k y) := by
    intro k
    induction k with
    | zero => intro e y _ hy; exact hy
    | succ k ih =>
      intro e y hek hy
      obtain ⟨n, hn, -, hl⟩ := S.shape.node (List.mem_of_mem_head? hy)
      have hh := S.headKid hn (by omega)
      rw [Store.firstLeaf, hs, hn, ← Nat.add_assoc, Nat.add_right_comm]
      refine ih (e + 1) _ (by omega) ?_
      rw [View.row, level_succ]
      change (level t.view.kids t.root e).head? = some y at hy
      cases hrow : level t.view.kids t.root e with
      | nil => simp [hrow] at hy
      | cons r rs =>
        obtain rfl : r = y := by simpa [hrow] using hy
        rw [List.flatMap_cons, View.kids_some hn]
        cases hk : n.childIds with
        | nil => simp [hk] at hh
        | cons c cs => simp
  simpa using key d 0 t.root (by omega) rfl

theorem SplitCall.On.fair {x a b : NodeId} {n na nb : SSTNode} {L R : List Entry} {c : SplitCall}
    (hc : c.On t x) (S : t.Sound) (P : Splits t t' x a b n na nb L R) (hl : n.level = 0)
    (hL : L.length = n.buffer.length / 2) (hF : c.Fair) : Splits.Fair t x n nb L := by
  have hbuf : c.buffer = n.buffer := by
    rw [SplitCall.buffer, hc.leaf, hc.view, P.here]
    exact stableSort_eq_self (S.sorted P.here)
  obtain ⟨hLR, -, -, hfb⟩ := P.leaf hl
  have hsplit : n.buffer.take (n.buffer.length / 2) = L ∧
      n.buffer.drop (n.buffer.length / 2) = R := by
    rw [← hL, ← hLR]
    simp
  constructor
  · intro _ e he
    -- the right half's fence is one of its keys
    have hne : nb.buffer ≠ [] := fun h =>
      (P.leaf hl).2.1 (sortBuffer_eq_nil.mp (P.buffer_b ▸ h))
    obtain ⟨e', he', hk⟩ : ∃ e' ∈ R, e'.key = nb.keyRange.minKey := by
      rw [hfb]
      cases hb : nb.buffer with
      | nil => exact absurd hb hne
      | cons e' es => exact ⟨e', P.mem_right (hb ▸ List.mem_cons_self ..), rfl⟩
    have hle : e.key ≤ e'.key := by
      have := (List.pairwise_append.mp (hLR ▸ S.sorted P.here : Sorted (L ++ R))).2.2 e he e' he'
      rcases Entry.le_iff.mp this with h | ⟨h, -⟩
      · exact h.le
      · exact h.le
    refine hk ▸ lt_of_le_of_ne hle fun heq => hF.1 ⟨e, ?_, e', ?_, heq⟩
    · rw [hbuf, hsplit.1]
      exact he
    · rw [hbuf, hsplit.2]
      exact he'
  · intro _ d hx hLnil
    refine hF.2 ⟨by rw [hbuf, ← hL, hLnil]; rfl, ?_⟩
    have hd : n.level + d = t.height := (S.shape.mem_row_iff P.here).mp (List.mem_of_mem_tail hx)
    have hheight : c.height = d := by
      rw [SplitCall.height, hc.root, hc.view]
      obtain ⟨r, hr, -, hrl⟩ := S.shape.root_some
      rw [hr]
      show r.level = d
      omega
    have hrow := head_row S hc.view (show d ≤ t.height by omega)
    rw [hheight, hc.root, hc.leaf]
    intro heq
    rw [heq] at hrow
    have hnd := S.shape.nodup d
    cases hr : t.view.row t.root d with
    | nil => simp [hr] at hx
    | cons r rs =>
      rw [hr] at hrow hx hnd
      obtain rfl : r = x := by simpa using hrow
      exact (List.nodup_cons.mp hnd).1 hx

/-- **A step keeps the order** if the call of `split_leaf` it makes is fair. -/
theorem Step.ordered {cs : List SplitCall} (h : Step t cs t') (S : t.Sound) (O : t.Ordered)
    (hF : ∀ c ∈ cs, c.Fair) : t'.Ordered := by
  cases h with
  | skip => exact ⟨O.asc, O.owns, O.fit⟩
  | revise h => exact h.ordered S O
  | push h => exact h.ordered S O
  | splitLeaf h hl hL hc => exact h.ordered S O (hc.fair S h hl hL (hF _ (by simp)))
  | splitNode h hl => exact h.ordered S O ⟨fun h0 => absurd h0 hl, fun h0 => absurd h0 hl⟩

theorem Steps.ordered {cs : List SplitCall} (h : Steps t cs t') (S : t.Sound) (O : t.Ordered)
    (hF : ∀ c ∈ cs, c.Fair) : t'.Ordered := by
  induction h with
  | refl => exact O
  | tail hss hs ih =>
    exact hs.ordered (hss.sound S) (ih fun c hc => hF c (by simp [hc]))
      fun c hc => hF c (by simp [hc])

end GravTree
