import GravTree.Proof.Cycle
import GravTree.Splitting

/-!
# Pushing a buffer down is local

When no child overflows, `do_flush` moves the entries of one node to its children and
touches nothing else: every key is answered as before, the ranges of the children stay in
order, and what is cached, listed and stored under any other identifier is what it was.
-/

namespace GravTree

open Forest Fence

/-- The range of `a` ends before the range of `b` begins. The empty string is no bound. -/
def View.Before (v : View) (a b : NodeId) : Prop :=
  v.minKey a ≤ v.minKey b ∧ (v.maxKey a = .empty ∨ v.maxKey a < v.minKey b)

/-- In every level the ranges are in order and disjoint. -/
def Tree.Apart (t : Tree) : Prop := ∀ d, (t.view.row t.root d).Pairwise t.view.Before

/-- The child `c` as it is once it has received its part of `n`'s buffer. -/
def View.receiving (v : View) (n : SSTNode) (c : NodeId) (m : SSTNode) : SSTNode :=
  { m with buffer := sortBuffer (mergeSortedEntries (v.part n c) m.buffer) }

/-- A call of `do_flush` on an internal node of a well-formed tree, none of whose children
overflows. The node's own file may be behind. Every node is one that `get_node` finds; only
the root has to be loaded. -/
structure Flushable (w : World) (p : NodeId) : Prop where
  tidy : Tidy w.warm (some p)
  root : w.view w.rest.root ≠ none
  ordered : w.warm.tree.Ordered
  apart : w.warm.tree.Apart
  layered : w.warm.tree.Layered
  inner : ∃ n, w.warm.view p = some n ∧ n.level ≠ 0
  room : ∀ n, w.warm.view p = some n → ∀ c ∈ n.childIds, ∀ m, w.warm.view c = some m →
    (w.warm.view.receiving n c m).bufferFull = false

/-- What `do_flush` does to the node `n`, which becomes `n'`: each child stays where it is or
is replaced by a new node. -/
structure Flushed (w u : World) (p : NodeId) (n n' : SSTNode) (σ : NodeId → NodeId) : Prop where
  here : u.view p = some n'
  buffer : n'.buffer = []
  kids : n'.childIds = n.childIds.map σ
  kept : ∀ c ∈ n.childIds, w.view.part n c = [] → σ c = c
  made : ∀ c ∈ n.childIds, w.view.part n c ≠ [] → w.rest.next ≤ σ c ∧ u.view c = none
  child : ∀ c ∈ n.childIds, ∀ m, w.view c = some m → ∃ m', u.view (σ c) = some m' ∧
    m'.level = m.level ∧ m'.childIds = m.childIds ∧ m'.buffer = (w.view.receiving n c m).buffer
  ranges : n'.childIds.Pairwise u.view.Before
  other : ∀ x, x ≠ p → x ∉ n.childIds → w.view x ≠ none → u.cell x = w.cell x

/-- The call returns, every key is answered as before, and `get_node` finds no other changes. -/
def FlushKeeps (w : World) (p : NodeId) : Prop :=
  ∃ u n n' σ, w.warm.view p = some n ∧ doFlush n.level p ⟨w, none⟩ = .ok () ⟨u, none⟩ ∧
    (∀ k, Act.eval (findEntry k) ⟨u, none⟩ = Act.eval (findEntry k) ⟨w, none⟩) ∧
    Flushed w.warm u.warm p n n' σ

/-- Children that do not overflow are left alone. -/
theorem checkChildren_reads {f : NodeId → M Unit} {p : NodeId} {w : World} :
    ∀ {ids : List NodeId}, (∀ c ∈ ids, ∀ m, w.view c = some m → m.bufferFull = false) →
      Act.Reads (checkChildren f p ids) w () := by
  intro ids
  induction ids with
  | nil => exact fun _ => Act.Runs.pure () w
  | cons c ids ih =>
    intro h
    obtain ⟨hc, hids⟩ := List.forall_mem_cons.mp h
    unfold checkChildren
    refine Act.Runs.world_bind ?_
    split
    · rename_i m hm
      rw [hc m hm, if_neg Bool.false_ne_true]
      exact ih hids
    · exact ih hids

theorem bufferFull_congr {n m : SSTNode} (h : n.buffer = m.buffer) :
    n.bufferFull = m.bufferFull := by
  rw [SSTNode.bufferFull, SSTNode.bufferFull, SSTNode.bufferSizeBytes, SSTNode.bufferSizeBytes, h]

namespace Pushes

variable {t t' : Tree} {p : NodeId} {n n' : SSTNode} {f : NodeId → SSTNode}

theorem buffer_child (P : Pushes t t' p n n' f) (S : t.Sound) {c : NodeId} (hc : c ∈ n.childIds)
    {m : SSTNode} (hm : t.view c = some m) : (f c).buffer = (t.view.receiving n c m).buffer := by
  by_cases hp : t.view.part n c = []
  · have hu := S.unique hm fun h => S.shape.root_notMem_kids P.here (h ▸ hc)
    rw [(P.kept c hc m hm hp).2.1, View.receiving, hp]
    simp [mergeSortedEntries, sortBuffer_eq_self hu]
  · exact (P.made c hc m hm hp).2.2.1

/-- The maximum of a child stays below the fence of the next one. -/
theorem max_lt (P : Pushes t t' p n n' f) (S : t.Sound) (O : t.Ordered) (A : t.Apart)
    (hcap : ∀ c ∈ n.childIds, ∀ m, t.view c = some m → Capped t.view (f c) m.keyRange.maxKey)
    {d : Nat} {c c' : NodeId} (hc : c ∈ n.childIds)
    (hpair : [c, c'].Sublist (t.view.row t.root d)) :
    (f c).keyRange.maxKey = .empty ∨ (f c).keyRange.maxKey < t.view.minKey c' := by
  obtain ⟨m, hm, -, -⟩ := S.shape.child_mem P.here hc
  have hcd : c ∈ t.view.row t.root d := hpair.subset (by simp)
  have hapart : ∀ {e x y}, [x, y].Sublist (t.view.row t.root e) →
      t.view.maxKey x = .empty ∨ t.view.maxKey x < t.view.minKey y := fun h =>
    (List.pairwise_iff_forall_sublist.mp (A _) h).2
  rcases hcap c hc m hm with hmax | ⟨e, he, hmax⟩ | ⟨hne, hmax⟩
  · rw [hmax, ← View.maxKey_some hm]
    exact hapart hpair
  · rw [← hmax]
    exact .inr (Owns.lt_of_pair (S.shape.nodup d) (P.owns_child S O hc hcd he) hpair)
  · -- the last grandchild comes before the first child of the next node
    have hkids := (P.child c hc m hm).2
    rw [hkids] at hne hmax
    have hlast : m.childIds.getLastD invalidNodeId ∈ m.childIds := by
      rw [List.getLastD_eq_getLast?, List.getLast?_eq_some_getLast hne]
      exact List.getLast_mem hne
    obtain ⟨m', hm', -, hl'⟩ := S.shape.node (hpair.subset (by simp) : c' ∈ t.view.row t.root d)
    have hl : m'.level ≠ 0 := by
      have := (S.shape.mem_row_iff hm).mp hcd
      intro h0
      exact hne ((S.shape.fit hm).2 (by omega))
    have hct : c' ∈ (t.view.row t.root d).tail := mem_tail_of_pair hpair
    rw [hmax, View.minKey_some hm', (O.fit hct hm').head hl]
    exact hapart (Tree.kids_pair hpair hm hm' hlast (S.headKid hm' hl))

/-- **The ranges of the children** are in order again. -/
theorem ranges (P : Pushes t t' p n n' f) (S : t.Sound) (O : t.Ordered) (A : t.Apart)
    (hcap : ∀ c ∈ n.childIds, ∀ m, t.view c = some m → Capped t.view (f c) m.keyRange.maxKey) :
    n'.childIds.Pairwise t'.view.Before := by
  obtain ⟨d, hd⟩ := S.shape.all P.here
  have hsub : n.childIds.Sublist (t.view.row t.root (d + 1)) := by
    have := (List.singleton_sublist.mpr hd).flatMap t.view.kids
    simpa [View.kids_some P.here, View.row, level_succ] using this
  rw [P.kids, List.pairwise_map]
  refine List.pairwise_iff_forall_sublist.mpr fun {c c'} hcc => ?_
  have hc : c ∈ n.childIds := hcc.subset (by simp)
  have hc' : c' ∈ n.childIds := hcc.subset (by simp)
  have hpair := hcc.trans hsub
  obtain ⟨m', hm', -, -⟩ := S.shape.child_mem P.here hc'
  have hlow : t'.view.minKey (f c').id = t.view.minKey c' := by
    rw [P.minKey_child hc', P.low_child S O hc' (mem_tail_of_pair hpair) hm', View.minKey_some hm']
  have hmax : t'.view.maxKey (f c).id = (f c).keyRange.maxKey :=
    View.maxKey_some (P.at_child c hc)
  rw [View.Before, hlow, hmax, P.minKey_child hc]
  exact ⟨P.up_child S O hc hpair, P.max_lt S O A hcap hc hpair⟩

end Pushes

/-- What was pushed down. -/
theorem Pushed.flushed {w u : World} {p : NodeId} {n n' : SSTNode} {F : NodeId → SSTNode}
    (P : Pushed w u p n n' F) (S : w.tree.Sound) (O : w.tree.Ordered) (A : w.tree.Apart) :
    Flushed w u p n n' fun c => (F c).id := by
  have hp := P.pushes.here
  refine ⟨P.pushes.at_p, P.pushes.buffer, P.pushes.kids, ?_, ?_, ?_, P.pushes.ranges S O A P.cap,
    P.other⟩
  · intro c hc hpt
    obtain ⟨m, hm, -, -⟩ := S.shape.child_mem hp hc
    exact (P.pushes.kept c hc m hm hpt).1
  · intro c hc hpt
    obtain ⟨m, hm, -, -⟩ := S.shape.child_mem hp hc
    refine ⟨(P.pushes.made c hc m hm hpt).1, ?_⟩
    have hout : ∀ c' ∈ n.childIds, (F c').id ≠ c := by
      intro c' hc' heq
      obtain ⟨m', hm', -, -⟩ := S.shape.child_mem hp hc'
      by_cases hpt' : w.view.part n c' = []
      · rw [(P.pushes.kept c' hc' m' hm' hpt').1] at heq
        exact hpt (heq ▸ hpt')
      · exact absurd (S.below hm)
          (not_lt_of_ge (heq ▸ (P.pushes.made c' hc' m' hm' hpt').1))
    have hgone := P.pushes.other c (S.kid_ne hp hc) hout
    rwa [if_pos hc] at hgone
  · intro c hc m hm
    obtain ⟨hlev, hkids⟩ := P.pushes.child c hc m hm
    exact ⟨F c, P.pushes.at_child c hc, hlev, hkids, P.pushes.buffer_child S hc hm⟩

namespace Flushable

variable {w : World} {p : NodeId}

/-- If everything is loaded, the call returns when the node's buffer was pushed down. -/
theorem runs (h : Flushable w p) {n : SSTNode} (hp : w.warm.view p = some n) (hl : n.level ≠ 0) :
    ∃ v n' F, doFlush n.level p ⟨w.warm, none⟩ = .ok () ⟨v, none⟩ ∧ Pushed w.warm v p n n' F := by
  have S := h.tidy.sound
  obtain ⟨k, hk⟩ := Nat.exists_eq_succ_of_ne_zero hl
  have hspec : Act.Spec (doFlush n.level p) w.warm (fun _ v => ∃ n' F, Pushed w.warm v p n n' F)
      (Stopped fun v => False → Halt w.warm v) := by
    rw [hk]
    unfold doFlush
    refine Act.Spec.bind (pushDown_pushes (d := False) h.tidy hp hl False.elim) fun _ v hv => ?_
    obtain ⟨n', F, P, rfl⟩ := hv
    -- no child overflows now, so the loop over them only looks
    refine Act.Spec.mono (checkChildren_reads fun c hc m hm => ?_) (fun _ u hu => ?_)
      fun _ _ h => h.2.elim
    · obtain ⟨c₀, hc₀, rfl⟩ := List.mem_map.mp (P.pushes.kids ▸ hc)
      obtain rfl : F c₀ = m := Option.some.inj ((P.pushes.at_child c₀ hc₀).symm.trans hm)
      obtain ⟨m₀, hm₀, -, -⟩ := S.shape.child_mem hp hc₀
      rw [bufferFull_congr (P.pushes.buffer_child S hc₀ hm₀)]
      exact h.room n hp c₀ hc₀ m₀ hm₀
    · obtain ⟨-, rfl⟩ := hu
      exact ⟨n', F, P⟩
  rcases hspec.undisturbed with ⟨_, v, hv, n', F, P⟩ | ⟨e, v, s, -, ⟨k, hk⟩, -⟩
  · exact ⟨v, n', F, hv, P⟩
  · cases hk

theorem thaws (h : Flushable w p) : Thaws w.frost w w.warm :=
  h.tidy.filed.thaws (fun hx => (h.tidy.sound.shape.mem_row hx).2.2) h.root

/-- Everything is loaded already. -/
theorem of_cached (T : Tidy w (some p)) (O : w.tree.Ordered) (A : w.tree.Apart)
    (V : w.tree.Layered) (hinner : ∃ n, w.view p = some n ∧ n.level ≠ 0)
    (hroom : ∀ n, w.view p = some n → ∀ c ∈ n.childIds, ∀ m, w.view c = some m →
      (w.view.receiving n c m).bufferFull = false) : Flushable w p := by
  have hw := T.filed.warm_eq
  have hroot : w.view w.rest.root ≠ none := by
    obtain ⟨r, hr, -⟩ := T.sound.shape.root_some
    rw [show w.view w.rest.root = some r from hr]
    exact Option.some_ne_none r
  exact ⟨hw.symm ▸ T, hroot, hw.symm ▸ O, hw.symm ▸ A, hw.symm ▸ V, hw.symm ▸ hinner,
    hw.symm ▸ hroom⟩

/-- A node whose file is up to date need not be loaded, unless it is the root. -/
theorem eraseNode {y : NodeId} (h : Flushable w p) (hp : p ≠ y) (hy : w.rest.root ≠ y) :
    Flushable (w.eraseNode y) p := by
  have hlag : some p ≠ some y := fun h => hp (Option.some.inj h)
  have ht := h.tidy.filed.tree_eraseNode hlag
  have hview : (w.eraseNode y).warm.view = w.warm.view := congrArg Tree.view ht
  have hroot := view_eraseNode (w := w) hy
  exact ⟨(h.tidy.filed.calm_eraseNode hlag).tidy h.tidy, hroot ▸ h.root, ht.symm ▸ h.ordered,
    ht.symm ▸ h.apart, ht.symm ▸ h.layered, hview.symm ▸ h.inner, hview.symm ▸ h.room⟩

end Flushable

/-- **`do_flush` keeps the reads and is local.** -/
theorem flushKeeps (w : World) (p : NodeId) (h : Flushable w p) : FlushKeeps w p := by
  obtain ⟨n, hp, hl⟩ := h.inner
  obtain ⟨v, n', F, hv, P⟩ := h.runs hp hl
  obtain ⟨u, G, hu, T⟩ := (melts_doFlush n.level p).run h.thaws hv
  refine ⟨u, n, n', fun c => (F c).id, hp, hu, fun k => ?_, ?_⟩
  · have hs : Steps w.warm.tree [] v.tree := .single (.push P.pushes)
    rw [T.findEntry_eq P.tidy, h.thaws.findEntry_eq h.tidy, P.tidy.findEntry_eq,
      h.tidy.findEntry_eq, hs.answer h.tidy.sound h.ordered h.layered (by simp) k]
  · -- what `get_node` finds is what is cached where everything was loaded
    have hview : u.warm.view = v.view := congrArg Tree.view (T.tree_eq P.tidy.filed)
    have D := P.flushed h.tidy.sound h.ordered h.apart
    refine ⟨hview ▸ D.here, D.buffer, D.kids, D.kept, hview ▸ D.made, hview ▸ D.child,
      hview ▸ D.ranges, fun x hx hn hne => ?_⟩
    exact (T.cell_warm_eq P.tidy.filed x).trans (D.other x hx hn hne)

/-- Newer writes in the root of a tree of two levels. -/
theorem flushable_merged {w : World} {es : List Entry} {ks : List NodeId} (T : Tidy w none)
    (O : w.tree.Ordered) (V : w.tree.Layered) (hheight : w.tree.height = 1)
    (hrow : w.tree.view.row w.tree.root 1 = ks) (hks : ks.Pairwise w.tree.view.Before)
    (hnew : es.all fun e => w.cache.entries.all fun c => c.2.buffer.all fun e' =>
      e'.seqNo < e.seqNo)
    (hroom : ((w.merged es).view w.rest.root).all fun n => n.childIds.all fun c =>
      ((w.merged es).view c).all fun m => !((w.merged es).view.receiving n c m).bufferFull) :
    Flushable (w.merged es) w.rest.root := by
  obtain ⟨r, hr, -, hl⟩ := T.sound.shape.root_some
  have hfill : Fills w.tree (w.merged es).tree r es := fills_merged hr
  have hS := hfill.sound T.sound
  have hmin : (w.merged es).tree.view.minKey = w.tree.view.minKey := funext hfill.minKey
  have hmax : (w.merged es).tree.view.maxKey = w.tree.view.maxKey := by
    funext x
    by_cases hx : x = w.tree.root
    · rw [hx, View.maxKey_some hfill.at_root, View.maxKey_some hfill.here]
    · rw [View.maxKey, View.maxKey, hfill.at_other hx]
  have hbefore : (w.merged es).tree.view.Before = w.tree.view.Before := by
    funext a b
    rw [View.Before, View.Before, hmin, hmax]
  have Tm : Tidy (w.merged es) (some w.rest.root) := (T.lag _).merged
  refine .of_cached Tm (hfill.ordered T.sound O) (fun d => ?_) (hfill.layered T.sound V ?_)
    ⟨_, hfill.at_root, ?_⟩ fun n hn c hc m hm => ?_
  · rw [hfill.row, hbefore]
    obtain _ | _ | d := d
    · exact List.pairwise_singleton _ _
    · exact hrow ▸ hks
    · -- there is no third level
      have hnil : w.tree.view.row w.tree.root (d + 2) = [] := by
        refine List.eq_nil_iff_forall_not_mem.mpr fun x hx => ?_
        obtain ⟨n, -, -, hl⟩ := T.sound.shape.node hx
        omega
      rw [hnil]
      exact List.Pairwise.nil
  · intro e he e' hstored _
    obtain ⟨x, n, hx, he'⟩ := hstored
    have hcache := List.all_eq_true.mp (List.all_eq_true.mp hnew e he) ⟨x, n⟩
      (AList.mem_lookup_iff.mp hx)
    exact of_decide_eq_true (List.all_eq_true.mp hcache e' he')
  · show r.level ≠ 0
    omega
  · rw [hn, Option.all_some, List.all_eq_true] at hroom
    have hfull := hroom c hc
    rw [hm, Option.all_some] at hfull
    simpa using hfull

/-- A newer version of the first key in the root, and no leaf is loaded. -/
def World.pending : World :=
  (((World.halves (puts [1, 2])).merged [{ key := .byte 1, seqNo := 3 }]).eraseNode 2).eraseNode 3

theorem flushable_pending : Flushable World.pending 4 := by
  obtain ⟨T, O, V⟩ := tidy_two
  have hroot : (World.halves (puts [1, 2])).rest.root = 4 := by decide +kernel
  have hheight : (World.halves (puts [1, 2])).tree.height = 1 := by decide +kernel
  have hrow : (World.halves (puts [1, 2])).tree.view.row (World.halves (puts [1, 2])).tree.root 1 =
      [2, 3] := by
    decide +kernel
  have hks : [2, 3].Pairwise (World.halves (puts [1, 2])).tree.view.Before := by
    refine List.pairwise_pair.mpr ?_
    rw [View.Before]
    decide +kernel
  have h := @flushable_merged _ [{ key := .byte 1, seqNo := 3 }] _ T O V hheight hrow hks
    (by decide +kernel) (by decide +kernel)
  rw [hroot] at h
  refine (h.eraseNode (by decide) ?_).eraseNode (by decide) ?_
  · rw [rest_merged, hroot]
    decide
  · rw [World.rest_eraseNode, rest_merged, hroot]
    decide

/-- The leaves are read from their files, and the version moves to the first one. -/
theorem flushKeeps_pending : FlushKeeps World.pending 4 := flushKeeps _ 4 flushable_pending

end GravTree
