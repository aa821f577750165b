import GravTree.Proof.Flat
import GravTree.Proof.Split
import GravTree.Proof.Warm

/-!
# Giving a node one child more

`insert_child` is called when a child was replaced by two nodes that its parent does not
know yet. If the parent is full it is halved, and so are the full nodes above it, up to a
new root. The row of the replaced child is the old one with the two nodes in its place,
and what disappears from the manifest is what was halved.

The halves are written by `create`, which keeps one version of each key. So an older
version of a key that the parent buffers is lost when the parent is halved, and only then.
-/

namespace GravTree

open Forest

/-- A call of `insert_child` by one of its callers: `c` is gone, and with `l` and `r` in
its place the tree is well formed, `l` and `r` on the level of `c`'s siblings. Every node is
listed and on disk, and `get_node` finds it; only the root has to be loaded. -/
structure Insertable (w : World) (p c l r : NodeId) : Prop where
  sound : (w.warm.linked c l r).Sound
  filed : Filed w.warm none
  root : w.view w.rest.root ≠ none
  gone : w.warm.view c = none
  parent : ∃ n, w.warm.view p = some n ∧ c ∈ n.childIds

/-- One of two halves holds the entry, and the other does not. -/
def KeptOnce (na nb : SSTNode) (e : Entry) : Prop :=
  e ∈ na.buffer ∧ e ∉ nb.buffer ∨ e ∉ na.buffer ∧ e ∈ nb.buffer

/-- No newer version of the entry's key comes before it in the buffer. -/
def Newest (n : SSTNode) (e : Entry) : Prop := n.buffer.find? (·.key = e.key) = some e

/-- The node `n` is there in two halves, which share its children and those of its entries
that have to be kept. One child was replaced before. -/
def HalvedIn (u : World) (keep : SSTNode → Entry → Prop) (n : SSTNode) : Prop :=
  ∃ x a b na nb, u.view na.id = some na ∧ u.view nb.id = some nb ∧ n.level ≠ 0 ∧
    na.level = n.level ∧ nb.level = n.level ∧ x ∈ n.childIds ∧
    na.childIds ++ nb.childIds = n.childIds.flatMap (splitAt x a b) ∧
    ∀ e ∈ n.buffer, keep n e → KeptOnce na nb e

/-- What `insert_child` does to the tree, when each node that it halves has to keep the
entries `keep`. -/
structure Inserted (w u : World) (p c l r : NodeId) (keep : SSTNode → Entry → Prop) : Prop where
  /-- The row of `c` has `l` and `r` in its place. -/
  row : ∀ n, w.view p = some n →
    u.tree.rank (n.level - 1) = (w.tree.rank (n.level - 1)).flatMap (splitAt c l r)
  fanout : ∀ x n, u.view x = some n → n.childIds.length ≤ maxFanout
  /-- Every node is reached, and every child is there, one level below. -/
  shape : Shape u.view u.rest.root u.tree.height
  /-- All leaves are at the same depth. -/
  leaves : ∀ x n, u.view x = some n → n.level = 0 → ∀ d, x ∈ u.view.row u.rest.root d →
    d = u.tree.height
  /-- Halved are `p` and the nodes above it, as far as they are full. -/
  halved : ∀ x, Overfull w.view p maxFanout x → ∃ n, w.view x = some n ∧ HalvedIn u keep n
  /-- They are the nodes that the manifest no longer lists. -/
  lost : ∀ x, (w.cell x).Valid ∧ ¬ (u.cell x).Valid ↔ Overfull w.view p maxFanout x

/-- The call returns, and does that to what `get_node` finds. -/
def InsertKeeps (w : World) (p c l r : NodeId) (keep : SSTNode → Entry → Prop) : Prop :=
  ∃ u, insertChild w.height p c l r ⟨w, none⟩ = .ok () ⟨u, none⟩ ∧
    Inserted w.warm u.warm p c l r keep

theorem find?_sortBuffer_filter {es : List Entry} (hs : Sorted es) (q : Bytes → Bool) {e : Entry}
    (h : es.find? (·.key = e.key) = some e) (hq : q e.key = true) :
    e ∈ sortBuffer (es.filter fun e => q e.key) := by
  have hfind : (sortBuffer (es.filter fun e => q e.key)).find? (·.key = e.key) = some e := by
    rw [sortBuffer_of_sorted (hs.filter _), find?_dedup, find?_filter_key, if_pos hq, h]
  exact List.mem_of_find?_eq_some hfind

theorem Parted.keptOnce {t' : Tree} {n na nb : SSTNode} {ks : List NodeId}
    (P : Parted t' n ks na nb) (hs : Sorted n.buffer) {e : Entry} (h : Newest n e) :
    KeptOnce na nb e := by
  obtain ⟨cut, ha, hb⟩ := P.buffer
  rw [KeptOnce, ha, hb]
  have hout : ∀ q : Bytes → Bool, q e.key = false →
      e ∉ sortBuffer (n.buffer.filter fun e => q e.key) := by
    intro q hq he
    have := (List.mem_filter.mp (mem_of_mem_sortBuffer he)).2
    simp [hq] at this
  by_cases hlt : e.key < cut
  · exact .inl ⟨find?_sortBuffer_filter hs (fun k => k < cut) h (by simpa using hlt),
      hout (fun k => ¬ k < cut) (by simpa using hlt)⟩
  · exact .inr ⟨hout (fun k => k < cut) (by simpa using hlt),
      find?_sortBuffer_filter hs (fun k => ¬ k < cut) h (by simpa using hlt)⟩

namespace Insertable

variable {w : World} {p c l r : NodeId}

/-- The row of `c`. -/
theorem rank (h : Insertable w p c l r) {n : SSTNode} (hp : w.warm.view p = some n)
    (hc : c ∈ n.childIds) :
    (w.warm.linked c l r).rank (n.level - 1) =
      (w.warm.tree.rank (n.level - 1)).flatMap (splitAt c l r) := by
  have S := h.sound
  have hp' : (w.warm.linked c l r).view p = some (relink c l r n) := by rw [linked_view, hp]; rfl
  have hlk : l ∈ (relink c l r n).childIds := mem_flatMap_splitAt.mpr (.inr ⟨hc, .inl rfl⟩)
  obtain ⟨m, hm, -, hml⟩ := S.shape.child_mem hp' hlk
  replace hml : m.level + 1 = n.level := hml
  have hheight : w.warm.tree.height = (w.warm.linked c l r).height := linked_height.symm
  have hkids : ∀ x, (w.warm.linked c l r).view.kids x =
      (w.warm.view.kids x).flatMap (splitAt c l r) := by
    intro x
    rw [View.kids, View.kids, linked_view]
    cases w.warm.view x <;> rfl
  have hroot : splitAt c l r w.warm.rest.root = [w.warm.rest.root] := by
    refine splitAt_ne l r fun heq => ?_
    obtain ⟨q, hq⟩ := S.root_some
    obtain ⟨q₀, hq₀, -⟩ := linked_some hq
    rw [linked_root, heq, h.gone] at hq₀
    cases hq₀
  have hdepth := (S.shape.mem_row_iff hm).mp (S.shape.mem_row hm).1
  -- `c` is not above its own row: `l` would be there
  have hstay : ∀ d < (w.warm.linked c l r).height - (n.level - 1),
      level (w.warm.linked c l r).view.kids w.warm.rest.root d =
        (level w.warm.view.kids w.warm.rest.root d).flatMap (splitAt c l r) →
      ∀ x ∈ level w.warm.view.kids w.warm.rest.root d, splitAt c l r x = [x] := by
    intro d hd hrow x hx
    refine splitAt_ne l r fun heq => ?_
    have hl : l ∈ (w.warm.linked c l r).view.row w.warm.rest.root d := by
      rw [View.row, hrow]
      exact mem_flatMap_splitAt.mpr (.inr ⟨heq ▸ hx, .inl rfl⟩)
    have := (S.shape.mem_row_iff hm).mp hl
    omega
  have key : ∀ e ≤ (w.warm.linked c l r).height - (n.level - 1),
      level (w.warm.linked c l r).view.kids w.warm.rest.root e =
        (level w.warm.view.kids w.warm.rest.root e).flatMap (splitAt c l r) := by
    intro e
    induction e using Nat.strong_induction_on with
    | _ e ih =>
      intro he
      exact level_flatMap_kids hkids hroot
        (fun d hd => hstay d (by omega) (ih d hd (by omega))) e le_rfl
  rw [Tree.rank, Tree.rank, hheight]
  exact key _ le_rfl

/-- The parent is full before if and only if it has a child too many with both nodes. -/
theorem overfull (h : Insertable w p c l r) {n : SSTNode} (hp : w.warm.view p = some n)
    (hc : c ∈ n.childIds) {x : NodeId} :
    Overfull (w.warm.linked c l r).view p (maxFanout + 1) x ↔
      Overfull w.warm.view p maxFanout x := by
  have S := h.sound
  have hp' : (w.warm.linked c l r).view p = some (relink c l r n) := by rw [linked_view, hp]; rfl
  have hnd : n.childIds.Nodup := nodup_of_flatMap_splitAt (S.shape.kids_nodup hp')
  have hlen : (relink c l r n).childIds.length = n.childIds.length + 1 :=
    length_flatMap_splitAt l r hc hnd
  constructor
  · intro hO
    induction hO with
    | here hn hfull =>
      obtain rfl := Option.some.inj (hp'.symm.trans hn)
      exact .here hp (by omega)
    | up hx hy hxy hfull ih =>
      obtain ⟨m, hm, hle⟩ := hx.level_le S hp'
      obtain ⟨m', hm', -, hl⟩ := S.shape.child_mem hy hxy
      obtain rfl := Option.some.inj (hm.symm.trans hm')
      refine .up ih (linked_view_other S hp hc ?_ ▸ hy) hxy hfull
      rintro rfl
      obtain rfl := Option.some.inj (hp'.symm.trans hy)
      omega
  · intro hO
    induction hO with
    | here hn hfull =>
      obtain rfl := Option.some.inj (hp.symm.trans hn)
      exact .here hp' (by omega)
    | @up x y o hx hy hxy hfull ih =>
      obtain ⟨m, hm, hle⟩ := ih.level_le S hp'
      have hy' : (w.warm.linked c l r).view y = some (relink c l r o) := by
        rw [linked_view, hy]
        rfl
      have hxc : x ≠ c := fun heq => by
        obtain ⟨m₀, hm₀, -⟩ := linked_some hm
        rw [heq, h.gone] at hm₀
        cases hm₀
      have hxy' : x ∈ (relink c l r o).childIds := mem_flatMap_splitAt.mpr (.inl ⟨hxy, hxc⟩)
      obtain ⟨m', hm', -, hl⟩ := S.shape.child_mem hy' hxy'
      obtain rfl := Option.some.inj (hm.symm.trans hm')
      have hyp : y ≠ p := by
        rintro rfl
        obtain rfl := Option.some.inj (hp.symm.trans hy)
        omega
      rw [← linked_view_other S hp hc hyp] at hy
      exact .up ih hy hxy hfull

/-- The call returns, and the tree gets there by a climb. -/
theorem runs (h : Insertable w p c l r) : ∃ u xs, insertChild w.warm.height p c l r ⟨w.warm, none⟩ =
    .ok () ⟨u, none⟩ ∧ Filed u none ∧ Climbs (w.warm.linked c l r) p xs u.tree := by
  obtain ⟨n, hp, hc⟩ := h.parent
  have S := h.sound
  -- a world whose parent names both nodes already
  obtain ⟨w₀, hw₀⟩ : ∃ v, v = w.warm.modifyNode p (relink c l r) := ⟨_, rfl⟩
  have hrest : w₀.rest = w.warm.rest := by rw [hw₀, World.rest_modifyNode]
  have htree : w₀.tree = w.warm.linked c l r := by
    have hview : w₀.view = (w.warm.linked c l r).view := by
      funext y
      show (w₀.cell y).node = _
      rw [hw₀, World.cell_modifyNode]
      split
      · rename_i hy
        rw [hy]
        rfl
      · rename_i hy
        exact (linked_view_other S hp hc hy).symm
    rw [World.tree, hview, hrest]
    rfl
  have hlead : LeadsTo w₀ (w.warm.linked c l r) w.warm.rest.splits := by
    rw [← htree, ← hrest]
    exact .refl w₀
  have hp' : (w.warm.linked c l r).view p = some (relink c l r n) := by rw [linked_view, hp]; rfl
  have hheight : (w.warm.linked c l r).height < n.level + w.warm.height := by
    obtain ⟨q, hq⟩ := S.root_some
    obtain ⟨q₀, hq₀, -⟩ := linked_some hq
    rw [linked_root] at hq₀
    rw [linked_height, height_of_root hq₀, hq₀]
    exact Nat.lt_add_left _ (Nat.lt_succ_self _)
  have hspec := insertChild_spec (d := False) (htree ▸ S) w.warm.height
    ⟨hlead, h.filed, False.elim⟩ hp hc hheight
  rcases hspec.undisturbed with ⟨_, u, hu, W⟩ | ⟨e, u, s, -, ⟨k, hk⟩, -⟩
  · obtain ⟨xs, hxs⟩ := W.climbs
    exact ⟨u, xs, hu, W.filed, hxs⟩
  · cases hk

end Insertable

/-- If everything is loaded, every half keeps the newest versions. -/
theorem Insertable.inserted {w : World} {p c l r : NodeId} (h : Insertable w p c l r) :
    ∃ u, insertChild w.warm.height p c l r ⟨w.warm, none⟩ = .ok () ⟨u, none⟩ ∧ Filed u none ∧
      Inserted w.warm u p c l r Newest := by
  obtain ⟨u, xs, hu, F, C⟩ := h.runs
  obtain ⟨n, hp, hc⟩ := h.parent
  have S := h.sound
  have Su := C.steps.sound S
  have hp' : (w.warm.linked c l r).view p = some (relink c l r n) := by rw [linked_view, hp]; rfl
  have hpos : n.level ≠ 0 := by
    obtain ⟨m, -, -, hm⟩ := S.shape.child_mem hp'
      (mem_flatMap_splitAt.mpr (.inr ⟨hc, .inl rfl⟩) : l ∈ (relink c l r n).childIds)
    exact fun h0 => absurd (hm.trans h0) (Nat.succ_ne_zero _)
  have hcut : ∀ {x}, x ∈ xs ↔ Overfull w.warm.view p maxFanout x :=
    (C.overfull S).trans (h.overfull hp hc)
  refine ⟨u, hu, F, ⟨?_, fun x m hx => F.fanout hx, Su.shape, ?_, ?_, ?_⟩⟩
  · intro m hm
    obtain rfl := Option.some.inj (hp.symm.trans hm)
    rw [← h.rank hp hc]
    exact C.rank S hp' (by simp only [relink]; omega)
  · intro x m hx hl d hd
    have := (Su.shape.mem_row_iff hx).mp hd
    omega
  · intro x hx
    obtain ⟨m, ks, na, nb, hm, P, hks⟩ := C.parted S x (hcut.mpr hx)
    obtain ⟨m', hm', hle⟩ := ((C.overfull S).mp (hcut.mpr hx)).level_le S hp'
    obtain rfl := Option.some.inj (hm.symm.trans hm')
    have hl : m.level ≠ 0 := fun h0 => hpos (Nat.le_zero.mp (h0 ▸ hle))
    have hkeep : ∀ e ∈ m.buffer, m.buffer.find? (·.key = e.key) = some e → KeptOnce na nb e :=
      fun e _ he => P.keptOnce (S.sorted hm) he
    -- the parent was given both nodes before it was halved, a node above one of two halves
    rcases hks with ⟨rfl, rfl⟩ | ⟨hxp, y, a, b, hy, rfl⟩
    · obtain rfl := Option.some.inj (hp'.symm.trans hm)
      exact ⟨n, hp, c, l, r, na, nb, P.left, P.right, hpos, P.level.1, P.level.2, hc, P.kids, hkeep⟩
    · rw [linked_view_other S hp hc hxp] at hm
      exact ⟨m, hm, y, a, b, na, nb, P.left, P.right, hl, P.level.1, P.level.2, hy, P.kids, hkeep⟩
  · intro x
    rw [h.filed.valid, F.valid, not_not, ← hcut]
    constructor
    · intro h
      obtain ⟨hx, hu⟩ := h
      obtain ⟨m, hm⟩ := Option.ne_none_iff_exists'.mp hx
      have hm' : (w.warm.linked c l r).view x = some (relink c l r m) := by
        rw [linked_view, show w.warm.view x = some m from hm]
        rfl
      exact (C.lost S hm').mp hu
    · intro hx
      obtain ⟨m, hm, -⟩ := ((C.overfull S).mp hx).level_le S hp'
      obtain ⟨m₀, hm₀, -⟩ := linked_some hm
      exact ⟨by rw [show (w.warm.cell x).node = some m₀ from hm₀]; exact Option.some_ne_none _,
        (C.lost S hm).mpr hx⟩

namespace Insertable

variable {w : World} {p c l r : NodeId}

theorem thaws (h : Insertable w p c l r) : Thaws w.frost w w.warm := by
  refine h.filed.thaws (fun {x n} hx => ?_) h.root
  have hx' : (w.warm.linked c l r).view x = some (relink c l r n) := by rw [linked_view, hx]; rfl
  have hid : (relink c l r n).id = x := (h.sound.shape.mem_row hx').2.2
  exact hid

/-- Everything is loaded already. -/
theorem of_cached (S : (w.linked c l r).Sound) (F : Filed w none) (hgone : w.view c = none)
    (hparent : ∃ n, w.view p = some n ∧ c ∈ n.childIds) : Insertable w p c l r := by
  have hw := F.warm_eq
  obtain ⟨q, hq⟩ := S.root_some
  obtain ⟨q₀, hq₀, -⟩ := linked_some hq
  have hroot : w.view w.rest.root ≠ none := by
    rw [show w.view w.rest.root = some q₀ from hq₀]
    exact Option.some_ne_none q₀
  exact ⟨hw.symm ▸ S, hw.symm ▸ F, hroot, hw.symm ▸ hgone, hw.symm ▸ hparent⟩

/-- A node need not be loaded, unless it is the root. -/
theorem eraseNode (h : Insertable w p c l r) {y : NodeId} (hy : w.rest.root ≠ y) :
    Insertable (w.eraseNode y) p c l r := by
  have hlag : none ≠ some y := (Option.some_ne_none y).symm
  have ht := h.filed.tree_eraseNode hlag
  have hview : (w.eraseNode y).warm.view = w.warm.view := congrArg Tree.view ht
  have hroot := view_eraseNode (w := w) hy
  exact ⟨linked_congr c l r ht ▸ h.sound, (h.filed.calm_eraseNode hlag).filed h.filed,
    hroot ▸ h.root, hview.symm ▸ h.gone, hview.symm ▸ h.parent⟩

end Insertable

theorem Inserted.congr {w u v : World} {p c l r : NodeId} {keep : SSTNode → Entry → Prop}
    (I : Inserted w v p c l r keep) (ht : u.tree = v.tree) (hc : ∀ x, u.cell x = v.cell x) :
    Inserted w u p c l r keep := by
  have hview : u.view = v.view := congrArg Tree.view ht
  have hroot : u.rest.root = v.rest.root := congrArg Tree.root ht
  refine ⟨ht ▸ I.row, hview ▸ I.fanout, ?_, ?_, fun x hx => ?_, fun x => ?_⟩
  · rw [hview, hroot, ht]
    exact I.shape
  · rw [hview, hroot, ht]
    exact I.leaves
  · obtain ⟨n, hn, hh⟩ := I.halved x hx
    refine ⟨n, hn, ?_⟩
    rw [HalvedIn, hview]
    exact hh
  · rw [hc]
    exact I.lost x

/-- **The leaf sequence is preserved**, and every half keeps the newest versions. -/
theorem insertKeeps_newest (w : World) (p c l r : NodeId) (h : Insertable w p c l r) :
    InsertKeeps w p c l r Newest := by
  obtain ⟨v, hv, L, I⟩ := h.inserted
  rw [← h.thaws.height] at hv
  obtain ⟨u, G, hu, T⟩ := (melts_insertChild w.height p c l r).run h.thaws hv
  exact ⟨u, hu, I.congr (T.tree_eq L) (T.cell_warm_eq L)⟩

/-! ## Flat trees -/

theorem insertable_flat {ks ids : List NodeId} {es : List Entry} {next c l r : NodeId}
    (hids : ks.flatMap (splitAt c l r) = ids) (hnd : ids.Nodup) (h1 : 1 ∉ ids) (hc : c ∈ ks)
    (hcids : c ∉ ids) (hc1 : c ≠ 1) (hs : Sorted es) (hfan : ks.length ≤ maxFanout) (hnext : 1 < next)
    (hlt : ∀ x ∈ ids, x < next) : Insertable (World.flat ks ids es next) 1 c l r := by
  have hview : ∀ x, ((World.flat ks ids es next).linked c l r).view x =
      if x = 1 then some (relink c l r (flatRoot ks es))
      else if x ∈ ids then some (flatLeaf x) else none := by
    intro x
    rw [linked_view, view_flat]
    split
    · rfl
    · split <;> rfl
  have hroot : ((World.flat ks ids es next).linked c l r).root = 1 := rest_flat.1
  have hr := hview 1
  rw [if_pos rfl] at hr
  have hsome : ∀ {x n}, ((World.flat ks ids es next).linked c l r).view x = some n →
      x = 1 ∧ n = relink c l r (flatRoot ks es) ∨ x ∈ ids ∧ n = flatLeaf x := by
    intro x n hx
    rw [hview] at hx
    split at hx
    · exact .inl ⟨‹_›, (Option.some.inj hx).symm⟩
    · split at hx
      · exact .inr ⟨‹_›, (Option.some.inj hx).symm⟩
      · cases hx
  have hne : ks.flatMap (splitAt c l r) ≠ [] := by
    intro h0
    have := length_le_flatMap_splitAt c l r ks
    rw [h0] at this
    exact absurd (List.length_pos_of_mem hc) (not_lt_of_ge this)
  have hshape : Shape ((World.flat ks ids es next).linked c l r).view
      ((World.flat ks ids es next).linked c l r).root 1 := by
    rw [hroot]
    have hkids : (relink c l r (flatRoot ks es)).childIds = ids := hids
    refine Shape.flat hr rfl rfl hne (hkids ▸ hnd) (fun y hy => ?_) fun hx => ?_
    · have hy' : y ∈ ids := hkids ▸ hy
      refine ⟨flatLeaf y, ?_, rfl, rfl, rfl⟩
      rw [hview, if_neg (ne_of_mem_of_not_mem hy' h1), if_pos hy']
    · exact (hsome hx).imp And.left fun h => hkids.symm ▸ h.1
  refine .of_cached ⟨Tree.height_eq hshape ▸ hshape, hroot ▸ Nat.one_pos, fun hx => ?_,
    fun hx => ?_, fun hx hne => ?_⟩ (filed_flat hfan ⟨hnext, hlt⟩) ?_ ⟨flatRoot ks es, ?_, hc⟩
  · rw [linked_next, rest_flat.2]
    rcases hsome hx with ⟨rfl, -⟩ | ⟨hx, -⟩
    · exact hnext
    · exact hlt _ hx
  · rcases hsome hx with ⟨-, rfl⟩ | ⟨-, rfl⟩
    · exact hs
    · exact List.pairwise_singleton _ _
  · rcases hsome hx with ⟨h, -⟩ | ⟨-, rfl⟩
    · exact absurd (h.trans hroot.symm) hne
    · exact List.pairwise_singleton _ _
  · rw [view_flat, if_neg hc1, if_neg hcids]
  · rw [view_flat, if_pos rfl]

/-- A full root, and two of its children are not loaded: one of them begins the right half. -/
def World.sleeping : World :=
  ((World.flat (List.range' 2 15 ++ [19]) (List.range' 2 17) [] 20).eraseNode 10).eraseNode 3

theorem insertKeeps_sleeping : InsertKeeps World.sleeping 1 19 17 18 Newest := by
  have h : Insertable (World.flat (List.range' 2 15 ++ [19]) (List.range' 2 17) [] 20) 1 19 17 18 :=
    insertable_flat (by decide) (by decide) (by decide) (by decide) (by decide) (by decide)
      List.Pairwise.nil (by decide) (by decide) (by decide)
  refine insertKeeps_newest _ 1 19 17 18 ((h.eraseNode ?_).eraseNode ?_)
  · rw [rest_flat.1]
    decide
  · rw [World.rest_eraseNode, rest_flat.1]
    decide

/-- A full root that buffers two versions of a key: the older one is gone afterwards. -/
theorem insertKeeps_all_versions : ∃ w p c l r, Insertable w p c l r ∧
    ¬ InsertKeeps w p c l r fun _ _ => True := by
  obtain ⟨old, hold⟩ : ∃ e : Entry, e = { key := .byte 5, seqNo := 2 } := ⟨_, rfl⟩
  obtain ⟨w, hw⟩ : ∃ w, w = World.flat (List.range' 2 15 ++ [19]) (List.range' 2 17)
    [{ key := .byte 5, seqNo := 3 }, { key := .byte 5, seqNo := 2 }] 20 := ⟨_, rfl⟩
  refine ⟨w, 1, 19, 17, 18, ?_, ?_⟩
  · rw [hw]
    exact insertable_flat (by decide) (by decide) (by decide) (by decide) (by decide) (by decide)
      (by rw [Sorted, List.pairwise_pair]; decide) (by decide) (by decide) (by decide)
  · intro h
    obtain ⟨u, hu, hI⟩ := h
    -- no node that `get_node` finds afterwards has the older version
    have hgone : (Act.exec (insertChild w.height 1 19 17 18) ⟨w, none⟩).warm.cache.entries.all
        (fun c => c.2.buffer.all fun e => e.seqNo ≠ 2) = true := by
      rw [hw]
      decide +kernel
    rw [Act.exec, hu, List.all_eq_true] at hgone
    have hout : ∀ {x n}, u.warm.view x = some n → old ∉ n.buffer := fun hx he => by
      have := List.all_eq_true.mp (hgone ⟨_, _⟩ (AList.mem_lookup_iff.mp hx)) old he
      rw [hold] at this
      exact absurd rfl (of_decide_eq_true this)
    have F : Filed w none := by
      rw [hw]
      exact filed_flat (by decide) (by decide)
    have hroot : w.warm.view 1 = some (flatRoot (List.range' 2 15 ++ [19])
        [{ key := .byte 5, seqNo := 3 }, { key := .byte 5, seqNo := 2 }]) := by
      rw [F.warm_eq, hw, view_flat, if_pos rfl]
    obtain ⟨n, hn, _, _, _, na, nb, ha, hb, -, -, -, -, -, hkeep⟩ :=
      hI.halved 1 (.here hroot (by decide))
    obtain rfl := Option.some.inj (hroot.symm.trans hn)
    rcases hkeep old (by rw [hold]; simp [flatRoot]) trivial with ⟨h, -⟩ | ⟨-, h⟩
    · exact hout ha h
    · exact hout hb h

end GravTree
