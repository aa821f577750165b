import GravTree.Proof.Keeps

/-!
# The way up

`insert_child` gives a node one child more. A node with room is only written again. A
full one is cut in two, under a new root or with its parent getting one child more in
turn. Such a climb touches nothing below the node it starts at: every level below is the
same row, and every node that disappears is there in two halves.
-/

namespace GravTree

open Forest

/-- The nodes of level `l`, left to right. -/
def Tree.rank (t : Tree) (l : Nat) : List NodeId := t.view.row t.root (t.height - l)

/-- `t` becomes `t'` by a climb that starts at `p` and cuts the nodes of the list. -/
inductive Climbs : Tree → NodeId → List NodeId → Tree → Prop
  | room {t t' p n n'} (h : Revises t t' p n n') (hfan : n.childIds.length ≤ maxFanout) :
      Climbs t p [] t'
  | top {t t' p a b n na nb L R} (h : Splits t t' p a b n na nb L R) (hl : n.level ≠ 0)
      (hfull : n.childIds.length = maxFanout + 1) (hroot : p = t.root) : Climbs t p [p] t'
  | up {t t₁ t' p q a b n na nb m L R xs} (h : Splits t t₁ p a b n na nb L R) (hl : n.level ≠ 0)
      (hfull : n.childIds.length = maxFanout + 1) (hq : t.view q = some m) (hp : p ∈ m.childIds)
      (hs : Climbs t₁ q xs t') : Climbs t p (p :: xs) t'

/-- The leaf `x` is cut in two, under a new root or with its parent getting one child more. -/
inductive Cleaves (t : Tree) (x : NodeId) (t' : Tree) : Prop
  | top {a b n na nb L R} (h : Splits t t' x a b n na nb L R) (hl : n.level = 0)
      (hL : L.length = n.buffer.length / 2) (hroot : x = t.root)
  | below {t₁ p a b n na nb m L R xs} (h : Splits t t₁ x a b n na nb L R) (hl : n.level = 0)
      (hL : L.length = n.buffer.length / 2) (hp : t.view p = some m) (hx : x ∈ m.childIds)
      (hC : Climbs t₁ p xs t')

theorem Splits.skip {t t' : Tree} {x a b : NodeId} {n na nb : SSTNode} {L R : List Entry}
    (P : Splits t t' x a b n na nb L R) {k : NodeId} (hk : t'.next ≤ k) :
    Splits t { t' with next := k } x a b n na nb L R where
  toHalves := P.toHalves
  fresh_a := ⟨P.fresh_a.1, lt_of_lt_of_le P.fresh_a.2 hk⟩
  fresh_b := ⟨P.fresh_b.1, lt_of_lt_of_le P.fresh_b.2 hk⟩
  ne := P.ne
  at_a := P.at_a
  at_b := P.at_b
  gone := P.gone
  root := P.root.imp id fun ⟨h₁, h₂, h₃, h₄⟩ => ⟨h₁, h₂, lt_of_lt_of_le h₃ hk, h₄⟩
  other := P.other

theorem Revises.rank {t t' : Tree} {x : NodeId} {n n' : SSTNode} (R : Revises t t' x n n')
    (S : t.Sound) (l : Nat) : t'.rank l = t.rank l := by
  have hkids : t'.view.kids = t.view.kids := by
    funext y
    rw [View.kids, View.kids, R.view, Function.update_apply]
    split
    · rename_i hy
      rw [hy, R.here]
      exact R.kids
    · rfl
  have hshape : Shape t'.view t'.root t.height := by
    rw [R.view, R.root]
    exact S.update_shape R.here R.id R.level R.kids
  rw [Tree.rank, Tree.rank, Tree.height_eq hshape, View.row, hkids, R.root]

/-- A split leaves the levels below alone. -/
theorem Splits.rank {t t' : Tree} {x a b : NodeId} {n na nb : SSTNode} {L R : List Entry}
    (P : Splits t t' x a b n na nb L R) (S : t.Sound) {l : Nat} (hl : l < n.level) :
    t'.rank l = t.rank l := by
  have hle := (S.shape.mem_row P.here).2.1
  have hx : x ∉ t.view.row t.root (t.height - l) := fun h => by
    have := (S.shape.mem_row_iff P.here).mp h
    omega
  by_cases hroot : x = t.root
  · obtain ⟨hk, hs⟩ := P.shape_root S hroot
    rw [Tree.rank, Tree.rank, Tree.height_eq hs, Nat.sub_add_comm (by omega),
      (P.replaces S).row_grow S.shape (by rw [hk, ← hroot, splitAt_self]),
      flatMap_splitAt_of_notMem hx]
  · obtain ⟨hr, hs⟩ := P.shape_below S hroot
    rw [Tree.rank, Tree.rank, Tree.height_eq hs,
      (P.replaces S).row S.shape (by rw [splitAt_ne a b (Ne.symm hroot), hr]),
      flatMap_splitAt_of_notMem hx]

theorem relink_eq_self {x a b : NodeId} {n : SSTNode} (h : x ∉ n.childIds) :
    relink x a b n = n := by
  unfold relink
  rw [flatMap_splitAt_of_notMem h]

theorem length_flatMap_splitAt {x : NodeId} (a b : NodeId) {l : List NodeId} (hx : x ∈ l)
    (h : l.Nodup) : (l.flatMap (splitAt x a b)).length = l.length + 1 := by
  induction l with
  | nil => exact absurd hx List.not_mem_nil
  | cons y ys ih =>
    obtain ⟨hy, hys⟩ := List.nodup_cons.mp h
    rw [List.flatMap_cons, List.length_append]
    by_cases hyx : y = x
    · subst hyx
      rw [splitAt_self, flatMap_splitAt_of_notMem hy]
      simp
      omega
    · rw [splitAt_ne a b hyx, ih ((List.mem_cons.mp hx).resolve_left (Ne.symm hyx)) hys]
      simp
      omega

/-- A split leaves the nodes below alone. -/
theorem Splits.frame {t t' : Tree} {x a b : NodeId} {n na nb m : SSTNode} {L R : List Entry}
    (P : Splits t t' x a b n na nb L R) (S : t.Sound) {y : NodeId} (hy : t.view y = some m)
    (hl : m.level < n.level) : t'.view y = some m := by
  have hyx : y ≠ x := fun heq => by
    obtain rfl := Option.some.inj (P.here.symm.trans (heq ▸ hy))
    exact lt_irrefl _ hl
  rw [P.at_other S hy hyx, relink_eq_self]
  intro hx
  obtain ⟨k, hk, -, hlev⟩ := S.shape.child_mem hy hx
  obtain rfl := Option.some.inj (P.here.symm.trans hk)
  omega

/-- The nodes above a node that is split below the root were there before. -/
theorem Splits.origin_above {t t' : Tree} {x a b q y : NodeId} {n na nb m k : SSTNode}
    {L R : List Entry} (P : Splits t t' x a b n na nb L R) (S : t.Sound) (hq : t.view q = some m)
    (hx : x ∈ m.childIds) (hk : t'.view y = some k) (hl : n.level < k.level) :
    ∃ m₀, t.view y = some m₀ ∧ k = relink x a b m₀ := by
  rcases P.origin hk with ⟨-, rfl⟩ | ⟨-, rfl⟩ | ⟨hroot, -⟩ | ⟨-, m₀, hm₀, rfl⟩
  · exact absurd P.level_a hl.ne'
  · exact absurd P.level_b hl.ne'
  · exact absurd (hroot ▸ hx) (S.shape.root_notMem_kids hq)
  · exact ⟨m₀, hm₀, rfl⟩

/-- The node `n` is there in two halves, its children now being `ks`. -/
structure Parted (t' : Tree) (n : SSTNode) (ks : List NodeId) (na nb : SSTNode) : Prop where
  left : t'.view na.id = some na
  right : t'.view nb.id = some nb
  level : na.level = n.level ∧ nb.level = n.level
  kids : na.childIds ++ nb.childIds = ks
  full : ks.length = maxFanout + 1
  buffer : ∃ cut, na.buffer = sortBuffer (n.buffer.filter fun e => e.key < cut) ∧
    nb.buffer = sortBuffer (n.buffer.filter fun e => ¬ e.key < cut)

/-- The node `p` with `k` children and the full nodes above it, as far as no node between
has room. -/
inductive Overfull (v : View) (p : NodeId) (k : Nat) : NodeId → Prop
  | here {n} (hp : v p = some n) (hfull : n.childIds.length = k) : Overfull v p k p
  | up {x y m} (hx : Overfull v p k x) (hy : v y = some m) (hxy : x ∈ m.childIds)
      (hfull : m.childIds.length = maxFanout) : Overfull v p k y

theorem Overfull.start {v : View} {p x : NodeId} {k : Nat} (h : Overfull v p k x) :
    ∃ n, v p = some n ∧ n.childIds.length = k := by
  induction h with
  | here hp hfull => exact ⟨_, hp, hfull⟩
  | up _ _ _ _ ih => exact ih

theorem Overfull.level_le {t : Tree} {p x : NodeId} {k : Nat} (h : Overfull t.view p k x)
    (S : t.Sound) {n : SSTNode} (hp : t.view p = some n) :
    ∃ m, t.view x = some m ∧ n.level ≤ m.level := by
  induction h with
  | here => exact ⟨n, hp, le_rfl⟩
  | up _ hy hxy _ ih =>
    obtain ⟨m, hm, hle⟩ := ih
    obtain ⟨m', hm', -, hl⟩ := S.shape.child_mem hy hxy
    obtain rfl := Option.some.inj (hm.symm.trans hm')
    exact ⟨_, hy, by omega⟩

namespace Climbs

variable {t t' : Tree} {p : NodeId} {xs : List NodeId}

theorem steps (C : Climbs t p xs t') : Steps t [] t' := by
  induction C with
  | room h => exact .single (.revise h)
  | top h hl => exact .single (.splitNode h hl)
  | up h hl _ _ _ _ ih => exact (Steps.single (.splitNode h hl)).trans ih

theorem skip (C : Climbs t p xs t') {k : NodeId} (hk : t'.next ≤ k) :
    Climbs t p xs { t' with next := k } := by
  induction C with
  | room h hfan => exact .room { h with next := h.next.trans hk } hfan
  | top h hl hfull hroot => exact .top (h.skip hk) hl hfull hroot
  | up h hl hfull hq hp _ ih => exact .up h hl hfull hq hp (ih hk)

/-- **The levels below** the start are the same rows. -/
theorem rank (C : Climbs t p xs t') (S : t.Sound) {n : SSTNode} (hp : t.view p = some n) {l : Nat}
    (hl : l < n.level) : t'.rank l = t.rank l := by
  induction C generalizing n with
  | room h => exact h.rank S l
  | top h =>
    obtain rfl := Option.some.inj (h.here.symm.trans hp)
    exact h.rank S hl
  | up h _ _ hq hpm _ ih =>
    obtain rfl := Option.some.inj (h.here.symm.trans hp)
    obtain ⟨k, hk, -, hlev⟩ := S.shape.child_mem hq hpm
    obtain rfl := Option.some.inj (h.here.symm.trans hk)
    rw [ih (h.sound S) (h.at_other S hq (S.kid_ne hq hpm).symm) (by simp [relink]; omega),
      h.rank S hl]

/-- The nodes below the start are the same. -/
theorem frame (C : Climbs t p xs t') (S : t.Sound) {n m : SSTNode} (hp : t.view p = some n)
    {y : NodeId} (hy : t.view y = some m) (hl : m.level < n.level) : t'.view y = some m := by
  induction C generalizing n with
  | room h =>
    have hyp : y ≠ _ := fun heq => by
      obtain rfl := Option.some.inj (hp.symm.trans (heq ▸ hy))
      exact lt_irrefl _ hl
    rw [h.view, Function.update_of_ne hyp, hy]
  | top h =>
    obtain rfl := Option.some.inj (h.here.symm.trans hp)
    exact h.frame S hy hl
  | up h _ _ hq hpm _ ih =>
    obtain rfl := Option.some.inj (h.here.symm.trans hp)
    obtain ⟨k, hk, -, hlev⟩ := S.shape.child_mem hq hpm
    obtain rfl := Option.some.inj (h.here.symm.trans hk)
    exact ih (h.sound S) (h.at_other S hq (S.kid_ne hq hpm).symm) (h.frame S hy hl)
      (by simp [relink]; omega)

/-- **The nodes that are cut** are those that have no room, from the start upwards. -/
theorem overfull (C : Climbs t p xs t') (S : t.Sound) {y : NodeId} :
    y ∈ xs ↔ Overfull t.view p (maxFanout + 1) y := by
  induction C generalizing y with
  | room h hfan =>
    refine ⟨fun hy => absurd hy List.not_mem_nil, fun hO => ?_⟩
    obtain ⟨n, hn, hlen⟩ := hO.start
    obtain rfl := Option.some.inj (h.here.symm.trans hn)
    omega
  | top h _ hfull hroot =>
    rw [List.mem_singleton]
    refine ⟨fun hy => by rw [hy]; exact .here h.here hfull, fun hO => ?_⟩
    induction hO with
    | here => rfl
    | up _ hm hx _ ih =>
      exact absurd (hroot ▸ ih ▸ hx) (S.shape.root_notMem_kids hm)
  | @up t t₁ _ p q a b n _ _ m _ _ xs h hl hfull hq hpm hs ih =>
    have S₁ := h.sound S
    have hqp := (S.kid_ne hq hpm).symm
    have hq₁ := h.at_other S hq hqp
    obtain ⟨k, hk, -, hlev⟩ := S.shape.child_mem hq hpm
    obtain rfl := Option.some.inj (h.here.symm.trans hk)
    have hlen : (relink p a b m).childIds.length = m.childIds.length + 1 :=
      length_flatMap_splitAt a b hpm (S.shape.kids_nodup hq)
    -- from the second node on both climbs see the same nodes
    have hup : ∀ {z o}, t.view z = some o → m.level < o.level → t₁.view z = some o := by
      intro z o hz hlt
      have hzp : z ≠ p := fun heq => by
        obtain rfl := Option.some.inj (h.here.symm.trans (heq ▸ hz))
        omega
      rw [h.at_other S hz hzp, relink_eq_self]
      intro hpo
      obtain rfl := S.shape.parent_unique hz hq hpo hpm
      obtain rfl := Option.some.inj (hq.symm.trans hz)
      exact lt_irrefl _ hlt
    rw [List.mem_cons, ih S₁]
    constructor
    · rintro (rfl | hO)
      · exact .here h.here hfull
      · induction hO with
        | here hn hfan =>
          obtain rfl := Option.some.inj (hq₁.symm.trans hn)
          exact .up (.here h.here hfull) hq hpm (by omega)
        | up hx hy hxy hfan ihO =>
          obtain ⟨k, hk, hle⟩ := hx.level_le S₁ hq₁
          replace hle : m.level ≤ k.level := hle
          obtain ⟨k', hk', -, hlk⟩ := S₁.shape.child_mem hy hxy
          obtain rfl := Option.some.inj (hk.symm.trans hk')
          obtain ⟨o, ho, rfl⟩ := h.origin_above S hq hpm hy (by omega)
          have ho' := hup ho (show m.level < o.level from by simp only [relink] at hlk; omega)
          rw [Option.some.inj (hy.symm.trans ho')] at hxy hfan
          exact .up ihO ho hxy hfan
    · intro hO
      induction hO with
      | here => exact .inl rfl
      | @up x y o hx hy hxy hfan ihO =>
        refine .inr ?_
        rcases ihO with rfl | hx₁
        · obtain rfl := S.shape.parent_unique hq hy hpm hxy
          obtain rfl := Option.some.inj (hq.symm.trans hy)
          exact .here hq₁ (by omega)
        · obtain ⟨k, hk, hle⟩ := hx₁.level_le S₁ hq₁
          replace hle : m.level ≤ k.level := hle
          obtain ⟨k', hk', -, hlk⟩ := S.shape.child_mem hy hxy
          obtain ⟨k₀, hk₀, rfl⟩ := h.origin_above S hq hpm hk (by omega)
          obtain rfl := Option.some.inj (hk₀.symm.trans hk')
          exact .up hx₁ (hup hy (by simp only [relink] at hle; omega)) hxy hfan

/-- **The nodes that disappear** are those that are cut. -/
theorem lost (C : Climbs t p xs t') (S : t.Sound) {y : NodeId} {m : SSTNode}
    (hy : t.view y = some m) : t'.view y = none ↔ y ∈ xs := by
  induction C generalizing m with
  | room h =>
    rw [h.view, Function.update_apply]
    split <;> simp [hy]
  | top h =>
    rw [List.mem_singleton]
    refine ⟨fun hn => by_contra fun hne => ?_, fun heq => heq ▸ h.gone⟩
    simp [h.at_other S hy hne] at hn
  | @up _ _ _ p _ _ _ _ _ _ _ _ _ _ h _ _ _ _ hs ih =>
    rw [List.mem_cons]
    by_cases hyp : y = p
    · have hgone := (hs.steps.stable (h.sound S)).gone
        (lt_of_lt_of_le (S.below h.here) h.next_le) h.gone
      simp [hyp, hgone]
    · rw [ih (h.sound S) (h.at_other S hy hyp)]
      simp [hyp]

theorem parted_of_halves {a b : NodeId} {n na nb : SSTNode} {L R : List Entry}
    (h : Halves t.view p a b n na nb L R) (hl : n.level ≠ 0)
    (hfull : n.childIds.length = maxFanout + 1) (ha : t'.view a = some na)
    (hb : t'.view b = some nb) : Parted t' n n.childIds na nb where
  left := h.id_a ▸ ha
  right := h.id_b ▸ hb
  level := ⟨h.level_a, h.level_b⟩
  kids := h.kids
  full := hfull
  buffer := by
    obtain ⟨hL, hR⟩ := h.dealt hl
    exact ⟨_, by rw [h.buffer_a, hL], by rw [h.buffer_b, hR]⟩

/-- **Each of them** is there in two halves. -/
theorem parted (C : Climbs t p xs t') (S : t.Sound) : ∀ y ∈ xs, ∃ n ks na nb,
    t.view y = some n ∧ Parted t' n ks na nb ∧
      (y = p ∧ ks = n.childIds ∨
        y ≠ p ∧ ∃ x a b, x ∈ n.childIds ∧ ks = n.childIds.flatMap (splitAt x a b)) := by
  induction C with
  | room => simp
  | top h hl hfull =>
    intro y hy
    obtain rfl := List.mem_singleton.mp hy
    exact ⟨_, _, _, _, h.here, parted_of_halves h.toHalves hl hfull h.at_a h.at_b, .inl ⟨rfl, rfl⟩⟩
  | @up _ _ _ p q a b n na nb m _ _ xs h hl hfull hq hpm hs ih =>
    have hqp := (S.kid_ne hq hpm).symm
    have hq₁ := h.at_other S hq hqp
    obtain ⟨k, hk, -, hlev⟩ := S.shape.child_mem hq hpm
    obtain rfl := Option.some.inj (h.here.symm.trans hk)
    refine List.forall_mem_cons.mpr ⟨⟨n, n.childIds, na, nb, h.here, ?_, .inl ⟨rfl, rfl⟩⟩, ?_⟩
    · refine parted_of_halves h.toHalves hl hfull ?_ ?_
      · exact hs.frame (h.sound S) hq₁ h.at_a (by rw [h.level_a]; simp only [relink]; omega)
      · exact hs.frame (h.sound S) hq₁ h.at_b (by rw [h.level_b]; simp only [relink]; omega)
    intro y hy
    obtain ⟨n', ks, na', nb', hn', hP, hks⟩ := ih (h.sound S) y hy
    obtain ⟨m', hm', hle⟩ := ((hs.overfull (h.sound S)).mp hy).level_le (h.sound S) hq₁
    obtain rfl := Option.some.inj (hn'.symm.trans hm')
    simp only [relink] at hle
    obtain ⟨m₀, hm₀, rfl⟩ := h.origin_above S hq hpm hn' (by omega)
    refine ⟨m₀, ks, na', nb', hm₀, ⟨hP.left, hP.right, hP.level, hP.kids, hP.full, hP.buffer⟩,
      .inr ?_⟩
    have hyp : y ≠ p := fun heq => by
      rw [heq, h.here] at hm₀
      cases hm₀
      simp only [relink] at hle
      omega
    refine ⟨hyp, ?_⟩
    rcases hks with ⟨rfl, hks⟩ | ⟨hyq, x', a', b', hx', hks⟩
    · obtain rfl := Option.some.inj (hq.symm.trans hm₀)
      exact ⟨p, a, b, hpm, hks⟩
    · have hpm₀ : p ∉ m₀.childIds := fun h => hyq (S.shape.parent_unique hm₀ hq h hpm)
      rw [relink_eq_self hpm₀] at hx' hks
      exact ⟨x', a', b', hx', hks⟩

end Climbs

end GravTree
