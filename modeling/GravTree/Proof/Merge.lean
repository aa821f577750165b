import GravTree.Proof.Answer
import GravTree.Proof.Split

/-!
# Merging into the root

Writes enter the tree through the root's buffer. That is no step of the tree machine:
the tree gets new entries. What it needs to stay layered is that they are newer than
everything the tree holds.
-/

namespace GravTree

open Forest Fence

/-- The root's buffer is extended by `es` and sorted. -/
structure Fills (t t' : Tree) (n : SSTNode) (es : List Entry) : Prop where
  here : t.view t.root = some n
  view : t'.view = Function.update t.view t.root
    (some { n with buffer := stableSort (n.buffer ++ es) })
  root : t'.root = t.root
  next : t'.next = t.next

namespace Fills

variable {t t' : Tree} {n : SSTNode} {es : List Entry}

theorem at_root (P : Fills t t' n es) :
    t'.view t.root = some { n with buffer := stableSort (n.buffer ++ es) } := by
  rw [P.view, Function.update_self]

theorem at_other (P : Fills t t' n es) {y : NodeId} (hy : y ≠ t.root) :
    t'.view y = t.view y := by
  rw [P.view, Function.update_of_ne hy]

theorem origin (P : Fills t t' n es) {y : NodeId} {m' : SSTNode} (h : t'.view y = some m') :
    y = t.root ∧ m' = { n with buffer := stableSort (n.buffer ++ es) } ∨
      y ≠ t.root ∧ t.view y = some m' := by
  by_cases hy : y = t.root
  · rw [hy, P.at_root] at h
    exact .inl ⟨hy, (Option.some.inj h).symm⟩
  · exact .inr ⟨hy, P.at_other hy ▸ h⟩

theorem minKey (P : Fills t t' n es) (y : NodeId) : t'.view.minKey y = t.view.minKey y := by
  by_cases hy : y = t.root
  · rw [hy, View.minKey_some P.at_root, View.minKey_some P.here]
  · rw [View.minKey, View.minKey, P.at_other hy]

theorem kids (P : Fills t t' n es) : t'.view.kids = t.view.kids := by
  funext y
  by_cases hy : y = t.root
  · rw [hy, View.kids_some P.at_root, View.kids_some P.here]
  · rw [View.kids, View.kids, P.at_other hy]

theorem row (P : Fills t t' n es) (d : Nat) : t'.view.row t'.root d = t.view.row t.root d := by
  rw [View.row, P.kids, P.root]

theorem sound (P : Fills t t' n es) (S : t.Sound) : t'.Sound := by
  have hsh : Shape t'.view t'.root t.height := by
    rw [P.view, P.root]
    exact S.update_shape P.here (S.shape.mem_row P.here).2.2 rfl rfl
  refine ⟨Tree.height_eq hsh ▸ hsh, P.root ▸ S.rootPos, fun hy => ?_, fun hy => ?_,
    fun hy hne => ?_⟩
  · rcases P.origin hy with ⟨rfl, -⟩ | ⟨-, hy⟩
    · exact P.next ▸ S.below P.here
    · exact P.next ▸ S.below hy
  · rcases P.origin hy with ⟨-, rfl⟩ | ⟨-, hy⟩
    · exact sorted_stableSort _
    · exact S.sorted hy
  · rcases P.origin hy with ⟨rfl, -⟩ | ⟨-, hy⟩
    · exact absurd P.root.symm hne
    · exact S.unique hy (P.root ▸ hne)

theorem ordered (P : Fills t t' n es) (S : t.Sound) (O : t.Ordered) : t'.Ordered where
  asc d := by
    rw [P.row, funext P.minKey]
    exact O.asc d
  owns := by
    intro d x m hx hm e he
    rw [P.row] at hx ⊢
    rw [funext P.minKey]
    rcases P.origin hm with ⟨rfl, -⟩ | ⟨-, hm⟩
    · obtain rfl : 0 = d := S.shape.depth_unique (Shape.root_mem t.view t.root) hx
      exact owns_singleton t.root
    · exact O.owns hx hm e he
  fit := by
    intro d x m hx hm
    rw [P.row] at hx
    rcases P.origin hm with ⟨rfl, -⟩ | ⟨-, hm⟩
    · exact absurd hx S.root_notMem_tail
    · have F := O.fit hx hm
      exact ⟨fun hl => (F.head hl).trans (P.minKey _).symm, F.proper, F.leaf⟩

theorem stored (P : Fills t t' n es) {e : Entry} :
    t'.view.Stored e ↔ t.view.Stored e ∨ e ∈ es := by
  constructor
  · rintro ⟨y, m, hm, he⟩
    rcases P.origin hm with ⟨-, rfl⟩ | ⟨-, hm⟩
    · exact (List.mem_append.mp (mem_stableSort.mp he)).imp_left fun he => ⟨_, n, P.here, he⟩
    · exact .inl ⟨y, m, hm, he⟩
  · rintro (⟨y, m, hm, he⟩ | he)
    · by_cases hy : y = t.root
      · subst hy
        obtain rfl : n = m := Option.some.inj (P.here.symm.trans hm)
        exact ⟨_, _, P.at_root, mem_stableSort.mpr (List.mem_append_left _ he)⟩
      · exact ⟨y, m, (P.at_other hy).trans hm, he⟩
    · exact ⟨_, _, P.at_root, mem_stableSort.mpr (List.mem_append_right _ he)⟩

/-- Entries may lie on top if they are newer than what lies below the root. -/
theorem layered_above (P : Fills t t' n es) (S : t.Sound) (V : t.Layered)
    (hnew : ∀ e ∈ es, ∀ y m, y ≠ t.root → t.view y = some m → ∀ e' ∈ m.buffer, e.key = e'.key →
      e'.seqNo < e.seqNo) : t'.Layered := by
  intro x y m k hx hy hlt e he e' he' hk
  have hlev : ∀ {z k'}, t.view z = some k' → k'.level ≤ n.level := by
    intro z k' hz
    have := (S.shape.mem_row hz).2.1
    obtain ⟨r, hr, -, hl⟩ := S.shape.root_some
    obtain rfl : n = r := Option.some.inj (P.here.symm.trans hr)
    exact hl ▸ this
  rcases P.origin hy with ⟨-, rfl⟩ | ⟨hne, hy⟩
  · rcases P.origin hx with ⟨-, rfl⟩ | ⟨-, hx⟩
    · exact absurd hlt (lt_irrefl _)
    · exact absurd hlt (not_lt_of_ge (hlev hx))
  rcases P.origin hx with ⟨-, rfl⟩ | ⟨-, hx⟩
  · rcases List.mem_append.mp (mem_stableSort.mp he) with he | he
    · exact V P.here hy hlt e he e' he' hk
    · exact hnew e he y k hne hy e' he' hk
  · exact V hx hy hlt e he e' he' hk

/-- Newer entries may lie on top. -/
theorem layered (P : Fills t t' n es) (S : t.Sound) (V : t.Layered)
    (hnew : ∀ e ∈ es, ∀ e', t.view.Stored e' → e.key = e'.key → e'.seqNo < e.seqNo) :
    t'.Layered :=
  P.layered_above S V fun e he y m _ hy e' he' hk => hnew e he e' ⟨y, m, hy, he'⟩ hk

end Fills

/-! ## The merge in the world -/

/-- The world with `es` merged into the root. -/
def World.merged (w : World) (es : List Entry) : World :=
  w.modifyNode w.rest.root fun root => { root with buffer := stableSort (root.buffer ++ es) }

section Merged

variable {w : World} {n : SSTNode} {es : List Entry}

@[simp] theorem rest_merged : (w.merged es).rest = w.rest := World.rest_modifyNode ..

theorem cell_merged_other {y : NodeId} (hy : y ≠ w.rest.root) :
    (w.merged es).cell y = w.cell y := by
  rw [World.merged, World.cell_modifyNode, if_neg hy]

theorem node_merged (hr : w.view w.rest.root = some n) :
    ((w.merged es).cell w.rest.root).node =
      some { n with buffer := stableSort (n.buffer ++ es) } := by
  rw [World.merged, World.cell_modifyNode, if_pos rfl]
  show (w.view w.rest.root).map _ = _
  rw [hr]
  rfl

theorem files_merged (w : World) (es : List Entry) (y : NodeId) :
    ((w.merged es).cell y).record = (w.cell y).record ∧
      ((w.merged es).cell y).file = (w.cell y).file := by
  rw [World.merged, World.cell_modifyNode]
  split <;> exact ⟨rfl, rfl⟩

theorem disk_modifyNode (w : World) (x : NodeId) (f : SSTNode → SSTNode) :
    (w.modifyNode x f).disk = w.disk := by
  unfold World.modifyNode
  split <;> rfl

theorem fills_merged (hr : w.view w.rest.root = some n) :
    Fills w.tree (w.merged es).tree n es where
  here := hr
  view := by
    funext y
    rw [Function.update_apply]
    split
    · rename_i hy
      rw [hy]
      exact node_merged hr
    · rename_i hy
      show ((w.merged es).cell y).node = _
      rw [cell_merged_other hy]
      rfl
  root := by
    show (w.merged es).rest.root = _
    rw [rest_merged]
    rfl
  next := by
    show (w.merged es).rest.next = _
    rw [rest_merged]
    rfl

theorem Lags.merged {n₀ : SSTNode} (hs : Sorted n.buffer) (h : n₀.loaded = n ∨ Lags n₀ n) :
    Lags n₀ { n with buffer := stableSort (n.buffer ++ es) } := by
  have hsub : n.buffer ⊆ stableSort (n.buffer ++ es) := fun e he =>
    mem_stableSort.mpr (List.mem_append_left _ he)
  rcases h with rfl | h
  · exact ⟨rfl, rfl, rfl, hs, hsub⟩
  · exact ⟨h.id, h.level, h.kids, h.sorted, List.Subset.trans h.buffer hsub⟩

/-- Only the root's file lags behind. -/
theorem Tidy.merged (T : Tidy w (some w.rest.root)) : Tidy (w.merged es) (some w.rest.root) := by
  obtain ⟨n, hr⟩ := T.sound.root_some
  refine ⟨(fills_merged hr).sound T.sound, ?_, ?_⟩
  · rw [filed_iff]
    intro y
    rw [rest_merged]
    by_cases hy : y = w.rest.root
    · subst hy
      obtain ⟨hrec, hfile⟩ := files_merged w es w.rest.root
      have hnode : ((w.merged es).cell w.rest.root).node =
          some { n with buffer := stableSort (n.buffer ++ es) } := node_merged hr
      have F := filed_iff.mp T.filed w.rest.root
      refine ⟨fun h => ?_, fun h => ?_, ?_, fun h => F.place (hrec ▸ h), fun h => ?_⟩
      · cases hnode.symm.trans h
        exact F.fanout (n := n) hr
      · cases hnode.symm.trans h
        exact F.loaded (n := n) hr
      · rw [Cell.Valid, hrec, hnode]
        exact ⟨fun _ => Option.some_ne_none _, fun _ => F.valid.mpr (by
          rw [show (w.cell w.rest.root).node = some n from hr]
          exact Option.some_ne_none _)⟩
      · cases hnode.symm.trans h
        obtain ⟨n₀, h₀, h⟩ := F.file (n := n) hr
        exact ⟨n₀, hfile.trans h₀, .inr ⟨rfl, .merged (T.sound.sorted hr) (h.imp_right (·.2))⟩⟩
    · rw [cell_merged_other hy]
      exact filed_iff.mp T.filed y
  · obtain ⟨m, hm, hroot, hnext, hvalid, hplace⟩ := T.saved
    refine ⟨m, ?_, ?_, ?_, fun x => ?_, fun x r hx => ?_⟩
    · rw [rest_merged]
      exact hm
    · rw [rest_merged]
      exact hroot
    · rw [rest_merged]
      exact hnext
    · rw [hvalid x]
      by_cases hx : x = w.rest.root
      · subst hx
        rw [node_merged hr, show (w.cell w.rest.root).node = some n from hr]
        simp
      · rw [cell_merged_other hx]
    · rw [rest_merged]
      exact hplace x r hx

end Merged

end GravTree
