import GravTree.Proof.Steps

/-!
# Every step keeps the tree sound

A sound tree has the shape of a tree, all its identifiers have been handed out, its
buffers are sorted, and only the root's buffer may hold two versions of a key. None
of this depends on how keys are routed.
-/

namespace GravTree

open Forest

/-- The level of the root. -/
def Tree.height (t : Tree) : Nat := (t.view t.root).elim 0 (·.level)

/-- The invariants that do not mention routing. -/
structure Tree.Sound (t : Tree) : Prop where
  shape : Shape t.view t.root t.height
  rootPos : 0 < t.root
  below : ∀ {x n}, t.view x = some n → x < t.next
  sorted : ∀ {x n}, t.view x = some n → Sorted n.buffer
  unique : ∀ {x n}, t.view x = some n → x ≠ t.root → UniqueKeys n.buffer

theorem Tree.height_eq {t : Tree} {h : Nat} (H : Shape t.view t.root h) : t.height = h := by
  obtain ⟨r, hr, -, hl⟩ := H.root_some
  simp [Tree.height, hr, hl]

namespace Tree.Sound

variable {t t' : Tree}

theorem root_some (S : t.Sound) : ∃ r, t.view t.root = some r := by
  obtain ⟨r, hr, -, -⟩ := S.shape.root_some
  exact ⟨r, hr⟩

theorem kid_lt (S : t.Sound) {x c : NodeId} {n : SSTNode} (hx : t.view x = some n)
    (hc : c ∈ n.childIds) : c < t.next := by
  obtain ⟨m, hm, -, -⟩ := S.shape.child_mem hx hc
  exact S.below hm

theorem kid_ne (S : t.Sound) {x c : NodeId} {n : SSTNode} (hx : t.view x = some n)
    (hc : c ∈ n.childIds) : c ≠ x := by
  rintro rfl
  obtain ⟨m, hm, -, hl⟩ := S.shape.child_mem hx hc
  rw [hx] at hm
  cases hm
  omega

theorem headKid (S : t.Sound) {x : NodeId} {n : SSTNode} (hn : t.view x = some n)
    (hl : n.level ≠ 0) : n.childIds.headD invalidNodeId ∈ n.childIds := by
  have := (S.shape.fit hn).1 hl
  cases hk : n.childIds with
  | nil => simp [hk] at this
  | cons c cs => simp

/-! ## Using up identifiers -/

theorem skip (S : t.Sound) {k : NodeId} (h : t.next ≤ k) : Tree.Sound { t with next := k } where
  shape := S.shape
  rootPos := S.rootPos
  below hx := lt_of_lt_of_le (S.below hx) h
  sorted := S.sorted
  unique := S.unique

/-! ## Rewriting a node -/

/-- A node whose identity, level and children stay may change otherwise. -/
theorem update_shape (S : t.Sound) {x : NodeId} {n n' : SSTNode} (hx : t.view x = some n)
    (hid : n'.id = x) (hl : n'.level = n.level) (hk : n'.childIds = n.childIds) :
    Shape (Function.update t.view x (some n')) t.root t.height := by
  have hsome : ∀ {y m}, t.view y = some m → ∃ m', Function.update t.view x (some n') y = some m' ∧
      m'.id = y ∧ m'.level = m.level ∧ m'.childIds = m.childIds := by
    intro y m hy
    by_cases hyx : y = x
    · subst hyx
      rw [hx] at hy
      cases hy
      exact ⟨n', by simp, hid, hl, hk⟩
    · exact ⟨m, by simpa [hyx] using hy, (S.shape.mem_row hy).2.2, rfl, rfl⟩
  refine S.shape.subst (σ := fun y => [y]) ⟨?_, ?_, ?_, ?_⟩ rfl ?_
  · intro y m hy
    obtain ⟨m', hm', -, -, hkids⟩ := hsome hy
    simp [View.kids_some hm', hkids]
  · intro y m hy z hz
    obtain rfl : z = y := by simpa using hz
    obtain ⟨m', hm', hid', hl', hkids⟩ := hsome hy
    refine ⟨m', hm', hid', hl', ?_⟩
    rw [KidsFit, hl', hkids]
    exact S.shape.fit hy
  · intro y m _
    simp
  · intro y z m k _ _ hne
    simpa using Ne.symm hne
  · intro z n₁ hz
    by_cases hzx : z = x
    · exact ⟨x, n, hx, by simp [hzx]⟩
    · exact ⟨z, n₁, by simpa [hzx] using hz, by simp⟩

theorem revise (S : t.Sound) {x : NodeId} {n n' : SSTNode} (R : Revises t t' x n n') :
    t'.Sound := by
  have hsh := S.update_shape R.here R.id R.level R.kids
  have hcase : ∀ {y m}, t'.view y = some m → y = x ∧ m = n' ∨ y ≠ x ∧ t.view y = some m := by
    intro y m hy
    rw [R.view] at hy
    by_cases hyx : y = x
    · subst hyx
      exact .inl ⟨rfl, by simpa using hy.symm⟩
    · exact .inr ⟨hyx, by simpa [hyx] using hy⟩
  have hh : Shape t'.view t'.root t.height := by rwa [R.view, R.root]
  refine ⟨Tree.height_eq hh ▸ hh, R.root ▸ S.rootPos, ?_, ?_, ?_⟩
  · intro y m hy
    rcases hcase hy with ⟨rfl, -⟩ | ⟨-, hy⟩
    · exact lt_of_lt_of_le (S.below R.here) R.next
    · exact lt_of_lt_of_le (S.below hy) R.next
  · intro y m hy
    rcases hcase hy with ⟨-, rfl⟩ | ⟨-, hy⟩
    · exact R.buffer ▸ (uniqueKeys_sortBuffer _).sorted
    · exact S.sorted hy
  · intro y m hy hne
    rcases hcase hy with ⟨-, rfl⟩ | ⟨-, hy⟩
    · exact R.buffer ▸ uniqueKeys_sortBuffer _
    · exact S.unique hy (R.root ▸ hne)

end Tree.Sound

/-! ## Pushing a buffer down -/

namespace Pushes

variable {t t' : Tree} {p : NodeId} {n n' : SSTNode} {f : NodeId → SSTNode}

/-- The node that takes the place of `y`. -/
def ren (n : SSTNode) (f : NodeId → SSTNode) (y : NodeId) : NodeId :=
  if y ∈ n.childIds then (f y).id else y

theorem ren_kid {c : NodeId} (hc : c ∈ n.childIds) : ren n f c = (f c).id := if_pos hc

theorem ren_other {y : NodeId} (hy : y ∉ n.childIds) : ren n f y = y := if_neg hy

/-- A child's place is taken by itself or by a new node. -/
theorem id_cases (P : Pushes t t' p n n' f) (S : t.Sound) {c : NodeId} (hc : c ∈ n.childIds) :
    (f c).id = c ∨ t.next ≤ (f c).id := by
  obtain ⟨m, hm, -, -⟩ := S.shape.child_mem P.here hc
  by_cases hp : t.view.part n c = []
  · exact .inl (P.kept c hc m hm hp).1
  · exact .inr (P.made c hc m hm hp).1

theorem id_lt (P : Pushes t t' p n n' f) (S : t.Sound) {c : NodeId} (hc : c ∈ n.childIds) :
    (f c).id < t'.next := by
  obtain ⟨m, hm, -, -⟩ := S.shape.child_mem P.here hc
  by_cases hp : t.view.part n c = []
  · rw [(P.kept c hc m hm hp).1]
    exact lt_of_lt_of_le (S.below hm) P.next
  · exact (P.made c hc m hm hp).2.1

/-- Only the children themselves are among the nodes that take their places. -/
theorem id_ne (P : Pushes t t' p n n' f) (S : t.Sound) {c y : NodeId} (hc : c ∈ n.childIds)
    (hy : y ∉ n.childIds) (hlt : y < t.next) : (f c).id ≠ y := by
  rintro rfl
  rcases P.id_cases S hc with h | h
  · exact hy (h.symm ▸ hc)
  · exact absurd hlt (not_lt_of_ge h)

theorem p_notMem (P : Pushes t t' p n n' f) (S : t.Sound) : p ∉ n.childIds :=
  fun h => S.kid_ne P.here h rfl

/-- A node that is neither `p` nor one of its children stays as it is. -/
theorem calm (P : Pushes t t' p n n' f) (S : t.Sound) {y : NodeId} (hp : y ≠ p)
    (hy : y ∉ n.childIds) (hlt : y < t.next) : t'.view y = t.view y := by
  rw [P.other y hp fun c hc => P.id_ne S hc hy hlt, if_neg hy]

theorem grandkids_calm (P : Pushes t t' p n n' f) (S : t.Sound) {c g : NodeId} {m : SSTNode}
    (hc : c ∈ n.childIds) (hm : t.view c = some m) (hg : g ∈ m.childIds) :
    g ∉ n.childIds ∧ g ≠ p := by
  obtain ⟨k, hk, -, hkl⟩ := S.shape.child_mem hm hg
  obtain ⟨m', hm', -, hml⟩ := S.shape.child_mem P.here hc
  rw [hm] at hm'
  cases hm'
  constructor
  · intro hgn
    obtain ⟨k', hk', -, hkl'⟩ := S.shape.child_mem P.here hgn
    rw [hk] at hk'
    cases hk'
    omega
  · rintro rfl
    rw [P.here] at hk
    cases hk
    omega

/-- Where a node of the new tree comes from. -/
theorem origin (P : Pushes t t' p n n' f) {z : NodeId} {m' : SSTNode}
    (hz : t'.view z = some m') :
    z = p ∧ m' = n' ∨ (∃ c ∈ n.childIds, z = (f c).id ∧ m' = f c) ∨
      z ≠ p ∧ z ∉ n.childIds ∧ t.view z = some m' := by
  by_cases hp : z = p
  · subst hp
    rw [P.at_p] at hz
    cases hz
    exact .inl ⟨rfl, rfl⟩
  by_cases hf : ∃ c ∈ n.childIds, (f c).id = z
  · obtain ⟨c, hc, rfl⟩ := hf
    rw [P.at_child c hc] at hz
    cases hz
    exact .inr (.inl ⟨c, hc, rfl, rfl⟩)
  · rw [P.other z hp fun c hc h => hf ⟨c, hc, h⟩] at hz
    by_cases hzn : z ∈ n.childIds
    · simp [hzn] at hz
    · exact .inr (.inr ⟨hp, hzn, by simpa [hzn] using hz⟩)

theorem replaces (P : Pushes t t' p n n' f) (S : t.Sound) :
    Shape.Replaces t.view t'.view fun y => [ren n f y] where
  kids := by
    intro x m hx
    rw [List.flatMap_singleton]
    by_cases hxp : x = p
    · subst hxp
      rw [P.here] at hx
      cases hx
      rw [ren_other (P.p_notMem S), View.kids_some P.at_p, P.kids, ← List.map_eq_flatMap]
      exact List.map_congr_left fun c hc => (ren_kid hc).symm
    by_cases hxn : x ∈ n.childIds
    · rw [ren_kid hxn, View.kids_some (P.at_child x hxn), (P.child x hxn m hx).2,
        ← List.map_eq_flatMap]
      exact (List.map_id' m.childIds).symm.trans (List.map_congr_left fun g hg =>
        (ren_other (P.grandkids_calm S hxn hx hg).1).symm)
    · rw [ren_other hxn, View.kids, P.calm S hxp hxn (S.below hx), hx, ← List.map_eq_flatMap]
      refine (List.map_id' m.childIds).symm.trans (List.map_congr_left fun g hg => ?_)
      rw [ren_other]
      exact fun hgn => hxp (S.shape.parent_unique hx P.here hg hgn)
  node := by
    intro x m hx z hz
    obtain rfl : z = ren n f x := by simpa using hz
    by_cases hxp : x = p
    · subst hxp
      rw [P.here] at hx
      cases hx
      rw [ren_other (P.p_notMem S)]
      refine ⟨n', P.at_p, P.id, P.level, ?_⟩
      have := S.shape.fit P.here
      simpa [KidsFit, P.level, P.kids] using this
    by_cases hxn : x ∈ n.childIds
    · obtain ⟨hl, hk⟩ := P.child x hxn m hx
      rw [ren_kid hxn]
      refine ⟨f x, P.at_child x hxn, rfl, hl, ?_⟩
      simpa [KidsFit, hl, hk] using S.shape.fit hx
    · rw [ren_other hxn]
      exact ⟨m, by rw [P.calm S hxp hxn (S.below hx), hx], (S.shape.mem_row hx).2.2, rfl,
        S.shape.fit hx⟩
  nodup := by simp
  disjoint := by
    intro x y m k hx hy hne
    have hxb := S.below hx
    have hyb := S.below hy
    simp only [List.disjoint_singleton, List.mem_singleton]
    intro heq
    by_cases hxn : x ∈ n.childIds <;> by_cases hyn : y ∈ n.childIds
    · rw [ren_kid hxn, ren_kid hyn] at heq
      exact hne (P.inj x hxn y hyn heq.symm)
    · rw [ren_kid hxn, ren_other hyn] at heq
      exact P.id_ne S hxn hyn hyb heq.symm
    · rw [ren_other hxn, ren_kid hyn] at heq
      exact P.id_ne S hyn hxn hxb heq
    · rw [ren_other hxn, ren_other hyn] at heq
      exact hne heq.symm

theorem root_calm (P : Pushes t t' p n n' f) (S : t.Sound) : t.root ∉ n.childIds :=
  S.shape.root_notMem_kids P.here

theorem shape (P : Pushes t t' p n n' f) (S : t.Sound) : Shape t'.view t'.root t.height := by
  refine S.shape.subst (P.replaces S) ?_ ?_
  · rw [ren_other (P.root_calm S), P.root]
  · intro z m' hz
    rcases P.origin hz with ⟨rfl, rfl⟩ | ⟨c, hc, rfl, rfl⟩ | ⟨-, hzn, hz⟩
    · exact ⟨z, n, P.here, by simp [ren_other (P.p_notMem S)]⟩
    · obtain ⟨m, hm, -, -⟩ := S.shape.child_mem P.here hc
      exact ⟨c, m, hm, by simp [ren_kid hc]⟩
    · exact ⟨z, m', hz, by simp [ren_other hzn]⟩

/-- The buffer of a child after the push has one version of each key. -/
theorem unique_child (P : Pushes t t' p n n' f) (S : t.Sound) {c : NodeId}
    (hc : c ∈ n.childIds) : UniqueKeys (f c).buffer := by
  obtain ⟨m, hm, -, -⟩ := S.shape.child_mem P.here hc
  by_cases hp : t.view.part n c = []
  · rw [(P.kept c hc m hm hp).2.1]
    exact S.unique hm fun h => P.root_calm S (h ▸ hc)
  · rw [(P.made c hc m hm hp).2.2.1]
    exact uniqueKeys_sortBuffer _

theorem sound (P : Pushes t t' p n n' f) (S : t.Sound) : t'.Sound := by
  have hh := P.shape S
  refine ⟨Tree.height_eq hh ▸ hh, P.root ▸ S.rootPos, ?_, ?_, ?_⟩
  · intro z m' hz
    rcases P.origin hz with ⟨rfl, rfl⟩ | ⟨c, hc, rfl, rfl⟩ | ⟨-, -, hz⟩
    · exact lt_of_lt_of_le (S.below P.here) P.next
    · exact P.id_lt S hc
    · exact lt_of_lt_of_le (S.below hz) P.next
  · intro z m' hz
    rcases P.origin hz with ⟨rfl, rfl⟩ | ⟨c, hc, rfl, rfl⟩ | ⟨-, -, hz⟩
    · rw [P.buffer]
      exact List.Pairwise.nil
    · exact (P.unique_child S hc).sorted
    · exact S.sorted hz
  · intro z m' hz hne
    rcases P.origin hz with ⟨rfl, rfl⟩ | ⟨c, hc, rfl, rfl⟩ | ⟨-, -, hz⟩
    · rw [P.buffer]
      exact List.Pairwise.nil
    · exact P.unique_child S hc
    · exact S.unique hz (P.root ▸ hne)

end Pushes

/-! ## Splitting a node -/

theorem length_le_flatMap_splitAt (x a b : NodeId) (l : List NodeId) :
    l.length ≤ (l.flatMap (splitAt x a b)).length := by
  induction l with
  | nil => simp
  | cons y ys ih =>
    have : 1 ≤ (splitAt x a b y).length := by
      unfold splitAt
      split <;> simp
    rw [List.flatMap_cons, List.length_append, List.length_cons]
    omega

theorem KidsFit.relink {n : SSTNode} (h : KidsFit n) (x a b : NodeId) :
    KidsFit (relink x a b n) := by
  refine ⟨fun hl => (h.1 hl).trans (length_le_flatMap_splitAt x a b _), fun hl => ?_⟩
  show n.childIds.flatMap _ = []
  rw [h.2 hl]
  rfl

namespace Splits

variable {t t' : Tree} {x a b : NodeId} {n na nb : SSTNode} {L R : List Entry}

theorem next_le (P : Splits t t' x a b n na nb L R) : t.next ≤ t'.next :=
  P.fresh_a.1.trans P.fresh_a.2.le

/-- Every other node keeps everything but its link to `x`. -/
theorem at_other (P : Splits t t' x a b n na nb L R) (S : t.Sound) {y : NodeId} {m : SSTNode}
    (hy : t.view y = some m) (hyx : y ≠ x) : t'.view y = some (relink x a b m) := by
  have hlt := S.below hy
  rw [P.other y hyx (lt_of_lt_of_le hlt P.fresh_a.1).ne (lt_of_lt_of_le hlt P.fresh_b.1).ne, hy]
  · rfl
  · intro hr
    rcases P.root with ⟨hne, -⟩ | ⟨-, hle, -⟩
    · exact absurd hr hne
    · exact (lt_of_lt_of_le hlt hle).ne

/-- Where a node of the new tree comes from. -/
theorem origin (P : Splits t t' x a b n na nb L R) {z : NodeId} {m' : SSTNode}
    (hz : t'.view z = some m') :
    z = a ∧ m' = na ∨ z = b ∧ m' = nb ∨ (x = t.root ∧ z = t'.root) ∨
      z ≠ x ∧ ∃ m, t.view z = some m ∧ m' = relink x a b m := by
  by_cases ha : z = a
  · subst ha
    rw [P.at_a] at hz
    cases hz
    exact .inl ⟨rfl, rfl⟩
  by_cases hb : z = b
  · subst hb
    rw [P.at_b] at hz
    cases hz
    exact .inr (.inl ⟨rfl, rfl⟩)
  by_cases hr : x = t.root ∧ z = t'.root
  · exact .inr (.inr (.inl hr))
  have hx : z ≠ x := by
    rintro rfl
    rw [P.gone] at hz
    cases hz
  rw [P.other z hx ha hb fun h hz => hr ⟨h, hz⟩, Option.map_eq_some_iff] at hz
  obtain ⟨m, hm, rfl⟩ := hz
  exact .inr (.inr (.inr ⟨hx, m, hm, rfl⟩))

theorem replaces (P : Splits t t' x a b n na nb L R) (S : t.Sound) :
    Shape.Replaces t.view t'.view (splitAt x a b) where
  kids := by
    intro y m hy
    by_cases hyx : y = x
    · subst hyx
      rw [P.here] at hy
      cases hy
      have hself : y ∉ n.childIds := fun h => S.kid_ne P.here h rfl
      simp [View.kids_some P.at_a, View.kids_some P.at_b, P.kids,
        flatMap_splitAt_of_notMem hself]
    · simp [splitAt_ne a b hyx, View.kids_some (P.at_other S hy hyx), relink]
  node := by
    intro y m hy z hz
    by_cases hyx : y = x
    · subst hyx
      rw [P.here] at hy
      cases hy
      rcases (by simpa using hz : z = a ∨ z = b) with rfl | rfl
      · exact ⟨na, P.at_a, P.id_a, P.level_a, P.fit_a⟩
      · exact ⟨nb, P.at_b, P.id_b, P.level_b, P.fit_b⟩
    · obtain rfl : z = y := by simpa [splitAt_ne a b hyx] using hz
      exact ⟨_, P.at_other S hy hyx, (S.shape.mem_row hy).2.2, rfl, (S.shape.fit hy).relink x a b⟩
  nodup := by
    intro y m _
    unfold splitAt
    split
    · simpa using P.ne
    · simp
  disjoint := by
    intro y z m k hy hz hne u hu hu'
    have hold : ∀ {w : NodeId} {o : SSTNode}, t.view w = some o → w ≠ a ∧ w ≠ b := fun hw =>
      ⟨(lt_of_lt_of_le (S.below hw) P.fresh_a.1).ne, (lt_of_lt_of_le (S.below hw) P.fresh_b.1).ne⟩
    have hya := hold hy
    have hza := hold hz
    unfold splitAt at hu hu'
    split at hu <;> split at hu' <;> grind

/-- A split below the root keeps the root and the height. -/
theorem shape_below (P : Splits t t' x a b n na nb L R) (S : t.Sound) (hne : x ≠ t.root) :
    t'.root = t.root ∧ Shape t'.view t'.root t.height := by
  have hroot : t'.root = t.root := by
    rcases P.root with ⟨-, h⟩ | ⟨h, -⟩
    · exact h
    · exact absurd h hne
  refine ⟨hroot, S.shape.subst (P.replaces S) ?_ ?_⟩
  · rw [splitAt_ne a b (Ne.symm hne), hroot]
  · intro z m' hz
    rcases P.origin hz with ⟨rfl, -⟩ | ⟨rfl, -⟩ | ⟨h, -⟩ | ⟨hzx, m, hm, -⟩
    · exact ⟨x, n, P.here, by simp⟩
    · exact ⟨x, n, P.here, by simp⟩
    · exact absurd h hne
    · exact ⟨z, m, hm, by simp [splitAt_ne a b hzx]⟩

/-- A split of the root adds a level. -/
theorem shape_root (P : Splits t t' x a b n na nb L R) (S : t.Sound) (hx : x = t.root) :
    t'.view.kids t'.root = [a, b] ∧ Shape t'.view t'.root (t.height + 1) := by
  rcases P.root with ⟨hne, -⟩ | ⟨rfl, -, -, -, -, r, hr, hid, hl, hk, -⟩
  · exact absurd hx hne
  refine ⟨(View.kids_some hr).trans hk,
    S.shape.grow (P.replaces S) hr hid ?_ (by simpa using hk) (by simp [hk]) ?_⟩
  · obtain ⟨n', hn', -, hl'⟩ := S.shape.root_some
    rw [P.here] at hn'
    cases hn'
    rw [hl, hl']
  · intro z m' hz
    rcases P.origin hz with ⟨rfl, -⟩ | ⟨rfl, -⟩ | ⟨-, h⟩ | ⟨hzx, m, hm, -⟩
    · exact .inr ⟨t.root, n, P.here, by simp⟩
    · exact .inr ⟨t.root, n, P.here, by simp⟩
    · exact .inl h
    · exact .inr ⟨z, m, hm, by simp [splitAt_ne a b hzx]⟩

theorem shape (P : Splits t t' x a b n na nb L R) (S : t.Sound) :
    ∃ h, Shape t'.view t'.root h := by
  by_cases hx : x = t.root
  · exact ⟨_, (P.shape_root S hx).2⟩
  · exact ⟨_, (P.shape_below S hx).2⟩

theorem sound (P : Splits t t' x a b n na nb L R) (S : t.Sound) : t'.Sound := by
  obtain ⟨h, hh⟩ := P.shape S
  have hroot : ∀ {m}, x = t.root → t'.view t'.root = some m → m.buffer = [] := by
    intro m hx hm
    rcases P.root with ⟨hne, -⟩ | ⟨-, -, -, -, -, r, hr, -, -, -, hb⟩
    · exact absurd hx hne
    · rw [hr] at hm
      cases hm
      exact hb
  refine ⟨Tree.height_eq hh ▸ hh, ?_, ?_, ?_, ?_⟩
  · rcases P.root with ⟨-, hr⟩ | ⟨-, hle, -⟩
    · exact hr ▸ S.rootPos
    · obtain ⟨r, hr⟩ := S.root_some
      exact lt_of_lt_of_le (lt_trans S.rootPos (S.below hr)) hle
  · intro z m' hz
    rcases P.origin hz with ⟨rfl, -⟩ | ⟨rfl, -⟩ | ⟨hx, rfl⟩ | ⟨-, m, hm, -⟩
    · exact P.fresh_a.2
    · exact P.fresh_b.2
    · rcases P.root with ⟨hne, -⟩ | ⟨-, -, hlt, -⟩
      · exact absurd hx hne
      · exact hlt
    · exact lt_of_lt_of_le (S.below hm) P.next_le
  · intro z m' hz
    rcases P.origin hz with ⟨-, rfl⟩ | ⟨-, rfl⟩ | ⟨hx, rfl⟩ | ⟨-, m, hm, rfl⟩
    · exact P.buffer_a ▸ (uniqueKeys_sortBuffer _).sorted
    · exact P.buffer_b ▸ (uniqueKeys_sortBuffer _).sorted
    · exact hroot hx hz ▸ List.Pairwise.nil
    · exact S.sorted (n := m) hm
  · intro z m' hz hne
    rcases P.origin hz with ⟨-, rfl⟩ | ⟨-, rfl⟩ | ⟨-, rfl⟩ | ⟨hzx, m, hm, rfl⟩
    · exact P.buffer_a ▸ uniqueKeys_sortBuffer _
    · exact P.buffer_b ▸ uniqueKeys_sortBuffer _
    · exact absurd rfl hne
    · refine S.unique (n := m) hm fun hz => ?_
      rcases P.root with ⟨-, hr⟩ | ⟨hx, -⟩
      · exact hne (hz.trans hr.symm)
      · exact hzx (hz.trans hx.symm)

end Splits

/-! ## Every step, every run of steps -/

theorem Step.sound {t t' : Tree} {cs : List SplitCall} (h : Step t cs t') (S : t.Sound) :
    t'.Sound := by
  cases h with
  | skip h => exact S.skip h
  | revise h => exact S.revise h
  | push h => exact h.sound S
  | splitLeaf h => exact h.sound S
  | splitNode h => exact h.sound S

theorem Steps.sound {t t' : Tree} {cs : List SplitCall} (h : Steps t cs t') (S : t.Sound) :
    t'.Sound := by
  induction h with
  | refl => exact S
  | tail _ hs ih => exact hs.sound ih

end GravTree
