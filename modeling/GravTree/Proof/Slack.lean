import GravTree.Proof.Split

/-!
# Room above

What a cycle does to buffers that are within a limit. A push fills the children and
empties the parent, so what is beyond the limit after it is a child, and is looked at
next. A split deals out the buffers of the nodes it cuts, and these lie above the child
that caused it: so what matters is that every node above a child that is due is within
the limit, and stays so while its siblings are worked on.
-/

namespace GravTree

open Forest

/-- A limit on buffers. Sorting a buffer or dealing it out does not break it. -/
structure Limit where
  ok : List Entry → Prop
  nil : ok []
  deal : ∀ {es es' : List Entry}, es'.Sublist es → ok es → ok (sortBuffer es')

/-- No limit. -/
def Limit.any : Limit := ⟨fun _ => True, trivial, fun _ _ => trivial⟩

variable {P : Limit} {t t' : Tree} {x y p : NodeId}

/-- `x` is a child of `y`, whose buffer is within the limit. -/
def Tree.Hangs (t : Tree) (P : Limit) (y x : NodeId) : Prop :=
  ∃ n, t.view y = some n ∧ P.ok n.buffer ∧ x ∈ n.childIds

/-- Every node above `x` is within the limit. -/
abbrev Tree.Roomy (t : Tree) (P : Limit) (x : NodeId) : Prop :=
  Relation.ReflTransGen (t.Hangs P) t.root x

/-- The node `x` is beyond the limit. -/
def Tree.Beyond (t : Tree) (P : Limit) (x : NodeId) : Prop :=
  ∃ n, t.view x = some n ∧ ¬ P.ok n.buffer

theorem Tree.Roomy.parent (H : t.Roomy P x) (S : t.Sound) {n : SSTNode} (hp : t.view p = some n)
    (hx : x ∈ n.childIds) : P.ok n.buffer ∧ t.Roomy P p := by
  cases H with
  | refl => exact absurd hx (S.shape.root_notMem_kids hp)
  | @tail y _ hy hyx =>
    obtain ⟨m, hm, hok, hxm⟩ := hyx
    obtain rfl := S.shape.parent_unique hm hp hxm hx
    obtain rfl := Option.some.inj (hm.symm.trans hp)
    exact ⟨hok, hy⟩

/-! ## A node is written again -/

namespace Revises

variable {n n' : SSTNode}

theorem hangs (R : Revises t t' p n n') {y z : NodeId} (h : t.Hangs P y z) : t'.Hangs P y z := by
  obtain ⟨m, hm, hok, hz⟩ := h
  rw [Tree.Hangs, R.view]
  by_cases hy : y = p
  · rw [hy] at hm ⊢
    obtain rfl := Option.some.inj (R.here.symm.trans hm)
    refine ⟨n', Function.update_self .., ?_, R.kids ▸ hz⟩
    rw [R.buffer]
    exact P.deal (List.Sublist.refl _) hok
  · exact ⟨m, (Function.update_of_ne hy ..).trans hm, hok, hz⟩

theorem roomy (R : Revises t t' p n n') (h : t.Roomy P x) : t'.Roomy P x := by
  rw [Tree.Roomy, R.root]
  exact Relation.ReflTransGen.mono (fun _ _ => R.hangs) _ _ h

theorem beyond (R : Revises t t' p n n') (h : t'.Beyond P x) : t.Beyond P x := by
  obtain ⟨m, hm, hno⟩ := h
  rw [R.view] at hm
  by_cases hx : x = p
  · rw [hx] at hm ⊢
    obtain rfl := Option.some.inj (hm.symm.trans (Function.update_self ..))
    refine ⟨n, R.here, fun hok => hno ?_⟩
    rw [R.buffer]
    exact P.deal (List.Sublist.refl _) hok
  · exact ⟨m, (Function.update_of_ne hx ..).symm.trans hm, hno⟩

end Revises

/-! ## A node is cut -/

namespace Splits

variable {a b : NodeId} {n na nb : SSTNode} {L R : List Entry}

/-- A node with children deals out its buffer. -/
theorem halves_ok (D : Splits t t' x a b n na nb L R) (hl : n.level ≠ 0) (hok : P.ok n.buffer) :
    P.ok na.buffer ∧ P.ok nb.buffer := by
  obtain ⟨hL, hR⟩ := D.dealt hl
  rw [D.buffer_a, D.buffer_b, hL, hR]
  exact ⟨P.deal List.filter_sublist hok, P.deal List.filter_sublist hok⟩

/-- What takes the place of a node within the limit is within the limit. -/
theorem hangs (D : Splits t t' x a b n na nb L R) (S : t.Sound) {y z z' : NodeId}
    (h : t.Hangs P y z) (hz' : z' ∈ splitAt x a b z) :
    ∃ y' ∈ splitAt x a b y, t'.Hangs P y' z' := by
  obtain ⟨m, hm, hok, hz⟩ := h
  have hmem : z' ∈ (splitAt x a b y).flatMap t'.view.kids := by
    rw [(D.replaces S).kids hm]
    exact List.mem_flatMap.mpr ⟨z, hz, hz'⟩
  obtain ⟨y', hy', hk⟩ := List.mem_flatMap.mp hmem
  refine ⟨y', hy', ?_⟩
  by_cases hyx : y = x
  · rw [hyx] at hm hy'
    obtain rfl := Option.some.inj (D.here.symm.trans hm)
    have hl : n.level ≠ 0 := fun h0 => by
      rw [(S.shape.fit hm).2 h0] at hz
      exact absurd hz List.not_mem_nil
    obtain ⟨ha, hb⟩ := D.halves_ok hl hok
    rw [splitAt_self, List.mem_pair] at hy'
    rcases hy' with rfl | rfl
    · exact ⟨na, D.at_a, ha, by rwa [View.kids_some D.at_a] at hk⟩
    · exact ⟨nb, D.at_b, hb, by rwa [View.kids_some D.at_b] at hk⟩
  · have hy := D.at_other S hm hyx
    obtain rfl : y' = y := by simpa [splitAt_ne a b hyx] using hy'
    exact ⟨_, hy, hok, by rwa [View.kids_some hy] at hk⟩

theorem roomy_splitAt (D : Splits t t' x a b n na nb L R) (S : t.Sound) (h : t.Roomy P y) :
    ∀ y' ∈ splitAt x a b y, t'.Roomy P y' := by
  induction h with
  | refl =>
    intro y' hy'
    rcases D.root with ⟨hne, hroot⟩ | ⟨rfl, -, -, -, -, r, hr, -, -, hk, hbuf⟩
    · obtain rfl : y' = t.root := by simpa [splitAt_ne a b hne.symm] using hy'
      rw [Tree.Roomy, hroot]
    · refine .single ⟨r, hr, hbuf ▸ P.nil, ?_⟩
      rw [hk]
      rwa [splitAt_self] at hy'
  | tail _ hzy ih =>
    intro y' hy'
    obtain ⟨z', hz', hangs⟩ := D.hangs S hzy hy'
    exact (ih z' hz').tail hangs

theorem roomy (D : Splits t t' x a b n na nb L R) (S : t.Sound) (h : t.Roomy P y) (hy : y ≠ x) :
    t'.Roomy P y :=
  D.roomy_splitAt S h y (by rw [splitAt_ne a b hy]; exact List.mem_singleton_self y)

theorem beyond (D : Splits t t' x a b n na nb L R) (ha : P.ok na.buffer) (hb : P.ok nb.buffer)
    (h : t'.Beyond P y) : t.Beyond P y ∧ y ≠ x := by
  obtain ⟨m, hm, hno⟩ := h
  rcases D.origin hm with ⟨-, rfl⟩ | ⟨-, rfl⟩ | ⟨hx, rfl⟩ | ⟨hyx, m₀, hm₀, rfl⟩
  · exact absurd ha hno
  · exact absurd hb hno
  · rcases D.root with ⟨hne, -⟩ | ⟨-, -, -, -, -, r, hr, -, -, -, hbuf⟩
    · exact absurd hx hne
    · obtain rfl := Option.some.inj (hr.symm.trans hm)
      exact absurd (hbuf ▸ P.nil) hno
  · exact ⟨⟨m₀, hm₀, hno⟩, hyx⟩

end Splits

namespace Climbs

variable {xs : List NodeId}

theorem roomy (C : Climbs t p xs t') (S : t.Sound) (h : t.Roomy P y) (hy : y < t.next)
    (hne : t'.view y ≠ none) : t'.Roomy P y := by
  induction C with
  | room R => exact R.roomy h
  | top D =>
    refine D.roomy S h fun heq => hne ?_
    rw [heq]
    exact D.gone
  | up D _ _ _ _ hC ih =>
    refine ih (D.sound S) (D.roomy S h fun heq => ?_) (lt_of_lt_of_le hy D.next_le) hne
    rw [heq] at hne
    exact hne ((hC.steps.stable (D.sound S)).gone (lt_of_lt_of_le (S.below D.here) D.next_le) D.gone)

/-- **A climb** from a node within the limit, below nodes within the limit, leaves no node
beyond the limit that was not. -/
theorem beyond (C : Climbs t p xs t') (S : t.Sound) {n : SSTNode} (hp : t.view p = some n)
    (hok : P.ok n.buffer) (h : t.Roomy P p) (hy : t'.Beyond P y) : t.Beyond P y := by
  induction C generalizing n with
  | room R => exact R.beyond hy
  | top D hl =>
    obtain rfl := Option.some.inj (D.here.symm.trans hp)
    obtain ⟨ha, hb⟩ := D.halves_ok hl hok
    exact (D.beyond ha hb hy).1
  | @up _ _ _ p q _ _ _ _ _ m _ _ _ D hl _ hq hpq _ ih =>
    obtain rfl := Option.some.inj (D.here.symm.trans hp)
    obtain ⟨ha, hb⟩ := D.halves_ok hl hok
    obtain ⟨hm, hroomy⟩ := h.parent S hq hpq
    have hqp := (S.kid_ne hq hpq).symm
    have hq' := D.at_other S hq hqp
    exact (D.beyond ha hb (ih (D.sound S) hq' hm (D.roomy S hroomy hqp) hy)).1

end Climbs

/-- **A leaf is split** into halves within the limit. -/
theorem Cleaves.beyond (C : Cleaves t x t') (S : t.Sound) (h : t.Roomy P x)
    (hok : ∀ n, t.view x = some n → P.ok (sortBuffer (n.buffer.take (n.buffer.length / 2))) ∧
      P.ok (sortBuffer (n.buffer.drop (n.buffer.length / 2))))
    (hy : t'.Beyond P y) : t.Beyond P y ∧ y ≠ x := by
  have hhalves : ∀ {t₁ a b n na nb L R}, Splits t t₁ x a b n na nb L R → n.level = 0 →
      L.length = n.buffer.length / 2 → P.ok na.buffer ∧ P.ok nb.buffer := by
    intro t₁ a b n na nb L R D hl hL
    obtain ⟨hLR, -⟩ := D.leaf hl
    obtain ⟨ha, hb⟩ := hok n D.here
    rw [← hL, ← hLR, List.take_left] at ha
    rw [← hL, ← hLR, List.drop_left] at hb
    exact ⟨D.buffer_a ▸ ha, D.buffer_b ▸ hb⟩
  cases C with
  | top D hl hL =>
    obtain ⟨ha, hb⟩ := hhalves D hl hL
    exact D.beyond ha hb hy
  | below D hl hL hp hx hC =>
    obtain ⟨ha, hb⟩ := hhalves D hl hL
    obtain ⟨hm, hroomy⟩ := h.parent S hp hx
    have hpx := (S.kid_ne hp hx).symm
    have hp' := D.at_other S hp hpx
    exact D.beyond ha hb (hC.beyond (D.sound S) hp' hm (D.roomy S hroomy hpx) hy)

theorem Cleaves.roomy (C : Cleaves t x t') (S : t.Sound) (h : t.Roomy P y) (hy : y < t.next)
    (hne : t'.view y ≠ none) : t'.Roomy P y := by
  cases C with
  | top D =>
    refine D.roomy S h fun heq => hne ?_
    rw [heq]
    exact D.gone
  | below D _ _ _ _ hC =>
    refine hC.roomy (D.sound S) (D.roomy S h fun heq => ?_) (lt_of_lt_of_le hy D.next_le) hne
    rw [heq] at hne
    exact hne ((hC.steps.stable (D.sound S)).gone (lt_of_lt_of_le (S.below D.here) D.next_le) D.gone)

/-! ## A buffer is pushed down -/

namespace Pushes

variable {n n' m : SSTNode} {f : NodeId → SSTNode}

/-- A push leaves everything above its node alone. -/
theorem roomy (D : Pushes t t' p n n' f) (S : t.Sound) (h : t.Roomy P y) (hy : t.view y = some m)
    (hl : n.level ≤ m.level) : t'.Roomy P y := by
  induction h generalizing m with
  | refl => rw [Tree.Roomy, D.root]
  | @tail z y _ hzy ih =>
    obtain ⟨k, hk, hok, hyk⟩ := hzy
    obtain ⟨m', hm', -, hlev⟩ := S.shape.child_mem hk hyk
    obtain rfl := Option.some.inj (hy.symm.trans hm')
    have hzp : z ≠ p := fun heq => by
      rw [heq, D.here] at hk
      cases hk
      omega
    have hzn : z ∉ n.childIds := fun hz => by
      obtain ⟨k', hk', -, hlev'⟩ := S.shape.child_mem D.here hz
      obtain rfl := Option.some.inj (hk.symm.trans hk')
      omega
    exact (ih hk (by omega)).tail ⟨k, (D.calm S hzp hzn (S.below hk)).trans hk, hok, hyk⟩

theorem beyond (D : Pushes t t' p n n' f) (h : t'.Beyond P y) :
    y ∈ n'.childIds ∨ y ≠ p ∧ t.Beyond P y := by
  obtain ⟨m, hm, hno⟩ := h
  rcases D.origin hm with ⟨-, rfl⟩ | ⟨c, hc, rfl, -⟩ | ⟨hp, -, hy⟩
  · exact absurd (D.buffer ▸ P.nil) hno
  · rw [D.kids]
    exact .inl (List.mem_map_of_mem hc)
  · exact .inr ⟨hp, m, hy, hno⟩

end Pushes

/-! ## One thing after the other -/

theorem Stable.some {t t' : Tree} (h : Stable t t') {x : NodeId} {m' : SSTNode} (hx : x < t.next)
    (hm : t'.view x = some m') : ∃ m, t.view x = some m := by
  cases hv : t.view x with
  | none => simp [h.gone hx hv] at hm
  | some m => exact ⟨m, rfl⟩

/-- What was roomy on level `l` or above it is so still. -/
def Tree.Spares (P : Limit) (l : Nat) (t t' : Tree) : Prop :=
  ∀ x n, t.view x = some n → l ≤ n.level → t.Roomy P x → t'.view x ≠ none → t'.Roomy P x

theorem Tree.Spares.trans {t₁ t₂ t₃ : Tree} {l l' : Nat} (h : Tree.Spares P l t₁ t₂)
    (h' : Tree.Spares P l' t₂ t₃) (S : t₁.Sound) (hs : Stable t₁ t₂) (hs' : Stable t₂ t₃)
    (hl : l' ≤ l) : Tree.Spares P l t₁ t₃ := by
  intro x n hx hlev hroomy hne
  obtain ⟨n₃, hn₃⟩ := Option.ne_none_iff_exists'.mp hne
  obtain ⟨n₂, hn₂⟩ := hs'.some (lt_of_lt_of_le (S.below hx) hs.next) hn₃
  refine h' x n₂ hn₂ ?_ (h x n hx hlev hroomy (by simp [hn₂])) hne
  rw [hs.level hx hn₂]
  omega

/-- Both halves of the leaf are within the limit. -/
def SplitCall.Deals (P : Limit) (c : SplitCall) : Prop :=
  P.ok (sortBuffer (c.buffer.take (c.buffer.length / 2))) ∧
    P.ok (sortBuffer (c.buffer.drop (c.buffer.length / 2)))

/-- The limit is kept where `buffer_full` does not ask for work, and by every leaf that was
split. -/
structure Fitting (P : Limit) (log : List SplitCall) : Prop where
  full : ∀ n : SSTNode, n.bufferFull = false → P.ok n.buffer
  deals : ∀ c ∈ log, c.Deals P

theorem Fitting.of_append {l log : List SplitCall} (h : Fitting P (l ++ log)) : Fitting P log :=
  ⟨h.full, fun c hc => h.deals c (List.mem_append_right _ hc)⟩

/-- `w` becomes `u`, and the nodes of the list have been worked on. -/
structure Eased (P : Limit) (l : Nat) (ids : List NodeId) (w u : World) : Prop where
  tidy : Tidy u none
  lead : LeadsTo w u.tree u.rest.splits
  spares : Tree.Spares P l w.tree u.tree
  beyond : Fitting P u.rest.splits → ∀ {y}, u.tree.Beyond P y → w.tree.Beyond P y ∧ y ∉ ids

namespace Eased

variable {w u v : World} {l l' : Nat} {ids ids' : List NodeId}

theorem refl (T : Tidy w none) (P : Limit) (l : Nat) : Eased P l [] w w :=
  ⟨T, .refl w, fun _ _ _ _ h _ => h, fun _ _ h => ⟨h, List.not_mem_nil⟩⟩

theorem stable (h : Eased P l ids w u) (S : w.tree.Sound) : Stable w.tree u.tree := by
  obtain ⟨_, hs, -⟩ := h.lead
  exact hs.stable S

theorem trans (h : Eased P l ids w u) (h' : Eased P l' ids' u v) (S : w.tree.Sound) (hl : l' ≤ l) :
    Eased P l (ids ++ ids') w v where
  tidy := h'.tidy
  lead := h.lead.trans h'.lead
  spares := h.spares.trans h'.spares S (h.stable S) (h'.stable h.tidy.sound) hl
  beyond F y hy := by
    obtain ⟨hu, hno'⟩ := h'.beyond F hy
    obtain ⟨k, hk⟩ := h'.lead.suffix
    obtain ⟨hw, hno⟩ := h.beyond (hk ▸ F).of_append hu
    exact ⟨hw, fun hmem => (List.mem_append.mp hmem).elim hno hno'⟩

end Eased

end GravTree
