import GravTree.Agreement
import GravTree.Proof.Serve

/-!
# Search order

In an ordered tree the children of a node are in the order of their minima, and the
keys below a child lie between its minimum and the next child's. Then the node of
every stored entry is on the path of its key.

Every clean run keeps the order. A split whose left half is empty does not: the half's
minimum is the empty string, and it sits between its neighbours all the same.
-/

namespace GravTree

open Forest Fence

/-- `key_range.min_key` of the node that `get_node` returns. -/
def World.minKey (w : World) (x : NodeId) : Bytes := (w.fetch x).elim .empty (·.keyRange.minKey)

/-- The entry is stored in the subtree of `c`. -/
def World.Below (w : World) (c : NodeId) (e : Entry) : Prop :=
  ∃ path y n, descend w.kids c path = some y ∧ w.fetch y = some n ∧ e ∈ n.buffer

/-- The tree is in search order. -/
structure SearchOrdered (w : World) : Prop where
  ascending : ∀ {path x}, w.walk path = some x →
    ((w.kids x).map w.minKey).Pairwise (· ≤ ·)
  lower : ∀ {path x i c e}, w.walk path = some x → (w.kids x)[i]? = some c → 1 ≤ i →
    w.Below c e → w.minKey c ≤ e.key
  upper : ∀ {path x i c d e}, w.walk path = some x → (w.kids x)[i]? = some c →
    (w.kids x)[i + 1]? = some d → w.Below c e → e.key < w.minKey d
  found : ∀ {path x n e}, w.walk path = some x → w.fetch x = some n → e ∈ n.buffer →
    ∃ ids, Act.eval (findPath e.key) ⟨w, none⟩ = .ok ids ∧ x ∈ ids

/-! ## Ownership along a path -/

namespace Tree.Ordered

variable {t : Tree} {k : Bytes}

/-- The path from an owner meets the owner in every row further down. -/
theorem mem_route (O : t.Ordered) (S : t.Sound) : ∀ h {d x}, d + h = t.height →
    Owns t.view.minKey (t.view.row t.root d) k x → ∀ {d' y}, d ≤ d' → d' ≤ t.height →
      Owns t.view.minKey (t.view.row t.root d') k y → y ∈ t.view.route k h x := by
  intro h
  induction h with
  | zero =>
    intro d x hd hx d' y hle hle' hy
    obtain rfl : d = d' := by omega
    exact hx.unique hy ▸ List.mem_singleton_self x
  | succ h ih =>
    intro d x hd hx d' y hle hle' hy
    rw [View.route]
    rcases Nat.eq_or_lt_of_le hle with rfl | hlt
    · exact hx.unique hy ▸ List.mem_cons_self
    · obtain ⟨n, hn, -, hl⟩ := S.shape.node hx.mem
      have hnext := O.owns_next S hn (by omega) hx
      rw [View.kids_some hn]
      exact List.mem_cons_of_mem _ (ih (by omega) hnext hlt hle' hy)

/-- Every row has an owner of every key. -/
theorem exists_owner (O : t.Ordered) (S : t.Sound) (k : Bytes) : ∀ {d}, d ≤ t.height →
    ∃ x, Owns t.view.minKey (t.view.row t.root d) k x := by
  intro d
  induction d with
  | zero => exact fun _ => ⟨t.root, owns_singleton _⟩
  | succ d ih =>
    intro hd
    obtain ⟨x, hx⟩ := ih (by omega)
    obtain ⟨n, hn, -, hl⟩ := S.shape.node hx.mem
    exact ⟨_, O.owns_next S hn (by omega) hx⟩

/-- The parent of an owner is an owner. -/
theorem owns_parent (O : t.Ordered) (S : t.Sound) {d : Nat} {x c : NodeId} {n : SSTNode}
    (hx : t.view x = some n) (hc : c ∈ n.childIds)
    (h : Owns t.view.minKey (t.view.row t.root (d + 1)) k c) :
    Owns t.view.minKey (t.view.row t.root d) k x := by
  obtain ⟨m, hm, -, hml⟩ := S.shape.node h.mem
  obtain ⟨m', hm', -, hl⟩ := S.shape.child_mem hx hc
  obtain rfl : m = m' := Option.some.inj (hm.symm.trans hm')
  obtain ⟨y, hy⟩ := O.exists_owner S k (show d ≤ t.height by omega)
  obtain ⟨r, hr, -, hrl⟩ := S.shape.node hy.mem
  have hnext := O.owns_next S hr (by omega) hy
  have hkid : scan t.view.minKey k (r.childIds.headD invalidNodeId) r.childIds ∈ r.childIds :=
    S.shape.scan_kid hr (by omega)
  rw [hnext.unique h] at hkid
  exact S.shape.parent_unique hx hr hc hkid ▸ hy

/-- The ancestors of an owner are owners. -/
theorem owns_descend (O : t.Ordered) (S : t.Sound) : ∀ {path : List Nat} {d : Nat} {c y : NodeId},
    c ∈ t.view.row t.root d → descend t.view.kids c path = some y →
    Owns t.view.minKey (t.view.row t.root (d + path.length)) k y →
    Owns t.view.minKey (t.view.row t.root d) k c := by
  intro path
  induction path with
  | nil =>
    intro d c y _ hy h
    obtain rfl : c = y := by simpa [descend] using hy
    exact h
  | cons i is ih =>
    intro d c y hc hy h
    obtain ⟨m, hm, -, -⟩ := S.shape.node hc
    simp only [descend, View.kids_some hm, Option.bind_eq_some_iff] at hy
    obtain ⟨z, hz, hy⟩ := hy
    have hzm : z ∈ m.childIds := List.mem_of_getElem? hz
    have hzr : z ∈ t.view.row t.root (d + 1) :=
      mem_level_succ.mpr ⟨c, hc, by rwa [View.kids_some hm]⟩
    refine O.owns_parent S hm hzm (ih hzr hy ?_)
    rwa [List.length_cons, show d + (is.length + 1) = d + 1 + is.length by omega] at h

end Tree.Ordered

section Tidy

variable {w : World} {lag : Option NodeId}

theorem Tidy.minKey (T : Tidy w lag) : w.minKey = w.view.minKey := by
  funext x
  rw [World.minKey, T.fetch, View.minKey]

/-- The children of a node in a row are in the next row, in order. -/
theorem Tidy.kids_sublist (T : Tidy w lag) {path : List Nat} {x : NodeId}
    (h : w.walk path = some x) :
    (w.kids x).Sublist (w.view.row w.rest.root (path.length + 1)) := by
  have := (List.singleton_sublist.mpr (T.walk_row h)).flatMap w.view.kids
  simpa [T.kids, View.row, level_succ] using this

/-- A child owns every key that is stored below it. -/
theorem Tidy.owns_below (T : Tidy w lag) (O : w.tree.Ordered) {path : List Nat} {x c : NodeId}
    {e : Entry} (h : w.walk path = some x) (hc : c ∈ w.kids x) (he : w.Below c e) :
    Owns w.view.minKey (w.view.row w.rest.root (path.length + 1)) e.key c := by
  obtain ⟨sub, y, n, hy, hn, he⟩ := he
  rw [T.kids] at hy
  rw [T.fetch] at hn
  have hcr := (T.kids_sublist h).subset hc
  refine O.owns_descend T.sound hcr hy (O.owns ?_ hn e he)
  -- the node lies as many rows further down as the path is long
  obtain ⟨m, hm, -, -⟩ := T.sound.shape.node hcr
  obtain ⟨p, hp⟩ := exists_descend hcr
  have hrow : descend w.view.kids w.rest.root (p ++ sub) = some y := by
    rw [descend_append, hp.2, Option.bind_some, hy]
  have := descend_mem_level hrow
  rwa [List.length_append, hp.1] at this

/-- **An ordered tree** is in search order. -/
theorem Tidy.searchOrdered (T : Tidy w lag) (O : w.tree.Ordered) : SearchOrdered w where
  ascending := by
    intro path x h
    rw [List.pairwise_map, T.minKey]
    exact (O.asc _).sublist (T.kids_sublist h)
  lower := by
    intro path x i c e h hi hpos he
    have hown := T.owns_below O h (List.mem_of_getElem? hi) he
    have hsub := T.kids_sublist h
    rw [T.minKey]
    refine hown.fence_le (T.sound.shape.nodup _) ?_
    -- the first child comes before it
    obtain ⟨b, hb⟩ : ∃ b, (w.kids x)[0]? = some b := by
      have := (List.getElem?_eq_some_iff.mp hi).1
      exact ⟨_, List.getElem?_eq_getElem (by omega)⟩
    exact mem_tail_of_pair ((pair_sublist_of_lt (by omega) hb hi).trans hsub)
  upper := by
    intro path x i c d e h hi hd he
    have hown := T.owns_below O h (List.mem_of_getElem? hi) he
    rw [T.minKey]
    exact hown.lt_of_pair (T.sound.shape.nodup _)
      ((pair_sublist_of_lt (by omega) hi hd).trans (T.kids_sublist h))
  found := by
    intro path x n e h hn he
    rw [T.fetch] at hn
    have hx := T.walk_row h
    refine ⟨w.view.route e.key w.tree.height w.rest.root, ?_, ?_⟩
    · exact Act.Spec.eval_ok ((findPath_serves T.sound.shape T.serves e.key).mono
        (fun _ _ h => h.1) fun _ _ h => h)
    · obtain ⟨m, hm, -, hl⟩ := T.sound.shape.node hx
      exact O.mem_route T.sound w.tree.height (Nat.zero_add _) (owns_singleton _)
        (Nat.zero_le _) (by omega) (O.owns hx hn e he)

end Tidy

/-! ## Every run is in search order -/

/-- **Every state** of a clean run is in search order. -/
theorem searchOrdered_run (sizing : Sizing) (ops : List Op)
    (hC : Clean ((Db.start sizing).run ops).world.splits) :
    SearchOrdered ((Db.start sizing).run ops).world :=
  (tidy_run sizing ops hC.attached).searchOrdered (ordered_run sizing ops hC)

/-- Leaves that are split between two keys. -/
theorem searchOrdered_round : SearchOrdered
    ((Db.start fun _ => (64, 7)).run (round [10, 20] ++ round [11, 21])).world :=
  searchOrdered_run _ _ (by decide +kernel)

/-- Two leaves, and then one entry that fills the second on its own. -/
def lone : List Op := round [10, 20] ++ [.insert (.byte 20) (.zeros (2 ^ 22)), .cycle]

/-- The empty half stands between the two leaves, and its minimum is the empty string. -/
theorem searchOrdered_lone : ¬ SearchOrdered ((Db.start fun _ => (64, 7)).run lone).world := by
  intro h
  have hroot : ((Db.start fun _ => (64, 7)).run lone).world.walk [] =
      some ((Db.start fun _ => (64, 7)).run lone).world.manifest.rootId := rfl
  have := h.ascending hroot
  have hno : ¬ ((((Db.start fun _ => (64, 7)).run lone).world.kids
      ((Db.start fun _ => (64, 7)).run lone).world.manifest.rootId).map
        ((Db.start fun _ => (64, 7)).run lone).world.minKey).Pairwise (· ≤ ·) := by
    decide +kernel
  exact hno this

end GravTree
