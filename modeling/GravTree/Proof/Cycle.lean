import GravTree.Proof.Merge
import GravTree.Proof.PushDown
import GravTree.Proof.Slack

/-!
# Background cycles and `flush()`

`do_flush` pushes a buffer down and then splits or flushes the children that have
overflowed. Each child is looked up again before it is touched, so what the loop knows
of a child is what a node that stays in place can rely on.
-/

namespace GravTree

/-! ## `do_flush` -/

/-- A call of `split_leaf` since `w` threw because its parent was gone. -/
def Lost (w : World) (e : Exc) (u : World) : Prop :=
  (∃ e', e = .thrown e') ∧ ∃ cs, u.rest.splits = cs ++ w.rest.splits ∧ ∃ c ∈ cs, c.Stale

/-- How a restructuring ends when it does not return. -/
def FlushStops (w : World) (e : Exc) (u : World) : Prop := Stopped (Halt w) e u ∨ Lost w e u

theorem FlushStops.trans {w w' u : World} {e : Exc}
    (h : LeadsTo w w'.tree w'.rest.splits) (T : Tidy w' none) (h' : FlushStops w' e u) :
    FlushStops w e u := by
  rcases h' with ⟨hk, hu⟩ | ⟨he, cs, hcs, hc⟩
  · exact .inl ⟨hk, hu.trans h T⟩
  · obtain ⟨l, hl⟩ := h.suffix
    obtain ⟨c, hc, hs⟩ := hc
    exact .inr ⟨he, cs ++ l, by rw [hcs, hl, List.append_assoc], c, List.mem_append_left _ hc, hs⟩

theorem SplitStops.flush {w u : World} {c : SplitCall} {e : Exc} (h : SplitStops w c e u) :
    FlushStops w e u :=
  h.imp_right fun ⟨he, hs, hc⟩ => ⟨he, [c], hs, c, List.mem_singleton_self c, hc⟩

/-- What `do_flush` knows of the children it is going to check: those that are still
there have the level below and are children of `p`, if `p` is still there. -/
structure Checks (t : Tree) (p : NodeId) (level : Nat) (ids : List NodeId) : Prop where
  parent : p < t.next
  below : ∀ c ∈ ids, c < t.next
  level : ∀ c ∈ ids, ∀ m, t.view c = some m → m.level = level
  kid : ∀ c ∈ ids, ∀ m, t.view c = some m → ∀ n, t.view p = some n → c ∈ n.childIds

theorem Checks.stable {t t' : Tree} {p : NodeId} {level : Nat} {ids : List NodeId}
    (K : Checks t p level ids) (h : Stable t t') : Checks t' p level ids where
  parent := lt_of_lt_of_le K.parent h.next
  below c hc := lt_of_lt_of_le (K.below c hc) h.next
  level c hc m' hm' := by
    obtain ⟨m, hm⟩ := h.some (K.below c hc) hm'
    exact (h.level hm hm').trans (K.level c hc m hm)
  kid c hc m' hm' n' hn' := by
    obtain ⟨m, hm⟩ := h.some (K.below c hc) hm'
    obtain ⟨n, hn⟩ := h.some K.parent hn'
    exact h.kids hn (K.kid c hc m hm n hn) hn' hm'

theorem Checks.tail {t : Tree} {p c : NodeId} {level : Nat} {ids : List NodeId}
    (K : Checks t p level (c :: ids)) : Checks t p level ids where
  parent := K.parent
  below x hx := K.below x (List.mem_cons_of_mem _ hx)
  level x hx := K.level x (List.mem_cons_of_mem _ hx)
  kid x hx := K.kid x (List.mem_cons_of_mem _ hx)

theorem buffer_ne_nil_of_full {n : SSTNode} (h : n.bufferFull = true) : n.buffer ≠ [] := by
  rintro hb
  simp [SSTNode.bufferFull, SSTNode.bufferSizeBytes, hb, bufferThreshold] at h

/-- A child that needs no work. -/
theorem Eased.pass {w : World} {P : Limit} {l : Nat} {c : NodeId} (T : Tidy w none)
    (h : Fitting P w.rest.splits → ¬ w.tree.Beyond P c) : Eased P l [c] w w where
  tidy := T
  lead := .refl w
  spares _ _ _ _ hroomy _ := hroomy
  beyond F _ hy := ⟨hy, fun hc => h F (List.mem_singleton.mp hc ▸ hy)⟩

/-- A leaf that is split. -/
theorem Eased.split {w u : World} {P : Limit} {l : Nat} {x : NodeId} {n : SSTNode}
    {path : List NodeId} (S : w.tree.Sound) (T : Tidy u none)
    (hl : LeadsTo w u.tree u.rest.splits)
    (hs : u.rest.splits = ⟨w.toStore, x, path⟩ :: w.rest.splits) (C : Cleaves w.tree x u.tree)
    (hx : w.view x = some n) (hroomy : w.tree.Roomy P x) : Eased P l [x] w u where
  tidy := T
  lead := hl
  spares _ _ hy _ hr hne := C.roomy S hr (S.below hy) hne
  beyond F y hy := by
    have hd := F.deals ⟨w.toStore, x, path⟩ (hs ▸ List.mem_cons_self)
    have hbuf : SplitCall.buffer ⟨w.toStore, x, path⟩ = n.buffer := by
      have hx' : w.cache.lookup x = some n := hx
      rw [SplitCall.buffer, hx']
      exact stableSort_eq_self (S.sorted hx)
    obtain ⟨hw, hne⟩ := C.beyond S hroomy (fun m hm => by
      obtain rfl : n = m := Option.some.inj (hx.symm.trans hm)
      rw [SplitCall.Deals, hbuf] at hd
      exact hd) hy
    exact ⟨hw, fun h => hne (List.mem_singleton.mp h)⟩

/-- The loop over the children. -/
theorem checkChildren_spec {P : Limit} {l p : Nat} {flushChild : NodeId → M Unit}
    (hflush : ∀ {w : World} {c n}, Tidy w none → w.view c = some n → n.level = l →
      n.level ≠ 0 → n.buffer ≠ [] → w.tree.Roomy P c → Act.Spec (flushChild c) w
        (fun _ u => Eased P l [c] w u) (FlushStops w)) :
    ∀ (ids : List NodeId) {w : World}, Tidy w none → Checks w.tree p l ids →
      (∀ c ∈ ids, w.view c ≠ none → w.tree.Roomy P c) →
      Act.Spec (checkChildren flushChild p ids) w (fun _ u => Eased P l ids w u)
        (FlushStops w) := by
  intro ids
  induction ids with
  | nil => exact fun {w} T _ _ => Act.Spec.pure (.refl T P l)
  | cons c ids ih =>
    intro w T K hroomy
    have S := T.sound
    -- the rest of the loop, from wherever this child leaves the tree
    have hrest : ∀ (u : World), Eased P l [c] w u → Act.Spec (checkChildren flushChild p ids) u
        (fun _ u => Eased P l (c :: ids) w u) (FlushStops w) := by
      intro u hu
      have hs := hu.stable S
      have hr : ∀ d ∈ ids, u.view d ≠ none → u.tree.Roomy P d := by
        intro d hd hne
        obtain ⟨m, hm⟩ := Option.ne_none_iff_exists'.mp hne
        obtain ⟨m₀, hm₀⟩ := hs.some (K.below d (by simp [hd])) hm
        exact hu.spares d m₀ hm₀ (K.level d (by simp [hd]) m₀ hm₀).ge
          (hroomy d (by simp [hd]) (by simp [show w.view d = some m₀ from hm₀])) hne
      exact (ih hu.tidy (K.tail.stable hs) hr).mono (fun _ _ h => hu.trans h S le_rfl)
        fun _ _ h => h.trans hu.lead hu.tidy
    unfold checkChildren
    refine Act.Spec.world_bind ?_
    split
    · rename_i child hc
      have hchild : w.view c = some child := hc
      have hlevel := K.level c (by simp) child hchild
      have hr := hroomy c (by simp) (by simp [hchild])
      split
      · rename_i hfull
        have hb := buffer_ne_nil_of_full hfull
        split
        · rename_i hleaf
          have hl : child.level = 0 := by
            have := (Bool.and_eq_true _ _ ▸ hleaf).1
            simpa [SSTNode.isLeaf] using this
          refine Act.Spec.bind ((splitLeaf_spec T (fun _ h => nomatch h) hchild hl hb
            (.inr ⟨p, rfl, K.parent, fun m hm => K.kid c (by simp) child hchild m hm⟩)).mono
            (fun _ _ h => h) fun _ _ h => h.flush) ?_
          rintro _ u ⟨hT, hlead, hs, hC⟩
          exact hrest u (.split S hT hlead hs hC hchild hr)
        · split
          · rename_i hkids
            have hl : child.level ≠ 0 := fun h0 => by
              simp [(S.shape.fit hchild).2 h0] at hkids
            exact Act.Spec.bind (hflush T hchild hlevel hl hb hr) fun _ u hu => hrest u hu
          · rename_i hleaf hkids
            -- a node without children is a leaf
            have hk : child.childIds = [] := by simpa using hkids
            have hl : child.level ≠ 0 := fun h0 => hleaf (by simp [SSTNode.isLeaf, h0, hk])
            have := (S.shape.fit hchild).1 hl
            simp [hk] at this
      · rename_i hfull
        refine hrest w (.pass T ?_)
        rintro F ⟨m, hm, hno⟩
        obtain rfl : child = m := Option.some.inj (hchild.symm.trans hm)
        exact hno (F.full child (by simpa using hfull))
    · rename_i hc
      refine hrest w (.pass T ?_)
      rintro - ⟨m, hm, -⟩
      exact nomatch (hc.symm.trans hm)

/-- A push, and then work on the children. -/
theorem Pushed.eased {P : Limit} {w u v : World} {p : NodeId} {n n' : SSTNode} {l : Nat}
    {F : NodeId → SSTNode} (D : Pushed w u p n n' F) (S : w.tree.Sound)
    (h : Eased P l n'.childIds u v) (hl : l ≤ n.level) : Eased P n.level [p] w v := by
  have hs := (Step.push D.pushes).stable S
  refine ⟨h.tidy, D.lead.trans h.lead, ?_, fun Fit y hy => ?_⟩
  · have hspares : Tree.Spares P n.level w.tree u.tree :=
      fun x m hx hle hr _ => D.pushes.roomy S hr hx hle
    exact hspares.trans h.spares S hs (h.stable D.tidy.sound) hl
  · obtain ⟨hu, hno⟩ := h.beyond Fit hy
    obtain ⟨hyp, hw⟩ := (D.pushes.beyond hu).resolve_left hno
    exact ⟨hw, fun hmem => hyp (List.mem_singleton.mp hmem)⟩

/-- **`do_flush`** restructures the tree below a node. If every leaf it splits deals out its
buffer, it leaves nothing beyond the limit that was not there before. -/
theorem doFlush_spec {P : Limit} : ∀ (fuel : Nat) {w : World} {p : NodeId} {n : SSTNode},
    Tidy w (some p) → w.view p = some n → n.level = fuel → n.level ≠ 0 → n.buffer ≠ [] →
    w.tree.Roomy P p →
    Act.Spec (doFlush fuel p) w (fun _ u => Eased P n.level [p] w u) (FlushStops w) := by
  intro fuel
  induction fuel with
  | zero => exact fun _ _ h0 hl _ _ => absurd h0 hl
  | succ fuel ih =>
    intro w p n T hp hlev hl hb hroomy
    unfold doFlush
    refine Act.Spec.bind ((pushDown_pushes (d := True) T hp hl fun _ => hb).mono (fun _ _ h => h)
      fun _ _ h => .inl ⟨h.1, h.2 trivial⟩) ?_
    rintro ids u ⟨n', F, D, rfl⟩
    have hT := D.tidy
    have S := hT.sound
    have hn' : u.view p = some n' := D.pushes.at_p
    have hlev' : n'.level = fuel + 1 := D.pushes.level.trans hlev
    have K : Checks u.tree p fuel n'.childIds := by
      refine ⟨S.below hn', fun c hc => S.kid_lt hn' hc, fun c hc m hm => ?_, fun c hc m _ k hk => ?_⟩
      · obtain ⟨m', hm', -, hl'⟩ := S.shape.child_mem hn' hc
        obtain rfl : m = m' := Option.some.inj (hm.symm.trans hm')
        omega
      · obtain rfl : n' = k := Option.some.inj (hn'.symm.trans hk)
        exact hc
    have hkids : ∀ c ∈ n'.childIds, u.tree.Roomy P c := fun c hc =>
      (D.pushes.roomy T.sound hroomy hp le_rfl).tail ⟨n', hn', D.pushes.buffer ▸ P.nil, hc⟩
    refine (checkChildren_spec (P := P) (l := fuel) (fun T hc hl hl' hb hr => ?_) _ hT K
      fun c hc _ => hkids c hc).mono (fun _ v h => D.eased T.sound h (by omega)) fun _ _ h =>
        h.trans D.lead hT
    exact hl ▸ ih (T.lag _) hc hl hl' hb hr

/-! ## A background cycle -/

theorem mergeIntoRoot_runs {w : World} {n : SSTNode} {H : World → Prop} (es : List Entry)
    (hr : w.view w.rest.root = some n) : Act.Runs (mergeIntoRoot es) w
      { n with buffer := stableSort (n.buffer ++ es) } (w.merged es) H := by
  unfold mergeIntoRoot
  refine Act.Runs.world_bind (Act.Reads.bind (getNode_reads hr) (Act.Runs.update_bind ?_))
  exact (getNode_reads (w := w.merged es) (node_merged hr)).runs

theorem findPath_leaf {w : World} {n : SSTNode} (hr : w.view w.rest.root = some n)
    (hl : n.level = 0) (k : Bytes) : Act.Reads (findPath k) w [w.rest.root] := by
  refine Act.Runs.world_bind ?_
  rw [height_of_root hr, hl]
  refine Act.Reads.bind (getNode_reads (x := w.rest.root) hr) ?_
  rw [if_pos (by simp [SSTNode.isLeaf, hl])]
  exact Act.Runs.pure _ w

/-- After a cycle that returns the root's file may be behind, if the cycle left the merged
root alone. -/
theorem Tidy.drained {w u : World} {es : List Entry} (T : Tidy w (some w.rest.root))
    (h : u = w.merged es ∨ Tidy u none) : Tidy u (some u.rest.root) := by
  rcases h with rfl | h
  · rw [rest_merged]
    exact T.merged
  · exact h.lag _

/-- **A cycle** restructures the tree that holds the drained entries, and works on the
root. -/
theorem flushPending_eases {w : World} (P : Limit) (T : Tidy w (some w.rest.root))
    (es : List Entry) : Act.Spec (flushPending es) w
      (fun _ u => (u = w.merged es ∨ Tidy u none) ∧ LeadsTo (w.merged es) u.tree u.rest.splits ∧
        (Fitting P u.rest.splits → ∀ {y}, u.tree.Beyond P y →
          (w.merged es).tree.Beyond P y ∧ y ∉ [w.rest.root]))
      (FlushStops (w.merged es)) := by
  obtain ⟨n, hr⟩ := T.sound.root_some
  obtain ⟨w₁, hw₁⟩ : ∃ v, v = w.merged es := ⟨_, rfl⟩
  obtain ⟨n₁, hn₁⟩ : ∃ m, m = ({ n with buffer := stableSort (n.buffer ++ es) } : SSTNode) :=
    ⟨_, rfl⟩
  have T₁ : Tidy w₁ (some w.rest.root) := hw₁ ▸ T.merged
  have hroot₁ : w₁.rest.root = w.rest.root := by rw [hw₁, rest_merged]
  have hr₁ : w₁.view w.rest.root = some n₁ := by
    rw [hw₁, hn₁]
    exact node_merged hr
  have hroomy : w₁.tree.Roomy P w.rest.root := by
    rw [show w.rest.root = w₁.tree.root from hroot₁.symm]
  unfold flushPending
  refine Act.Spec.world_bind ?_
  refine (mergeIntoRoot_runs (H := fun _ => False) es hr).spec_bind (fun _ _ => False.elim) ?_
  rw [← hw₁, ← hn₁]
  split
  · rename_i hfull
    have hb := buffer_ne_nil_of_full hfull
    split
    · rename_i hleaf
      have hl : n₁.level = 0 := by
        have := (Bool.and_eq_true _ _ ▸ hleaf).1
        simpa [SSTNode.isLeaf] using this
      refine (hroot₁ ▸ findPath_leaf (hroot₁ ▸ hr₁) hl _).spec_bind ?_
      refine (splitLeaf_spec T₁ (fun y h => (Option.some.inj h).symm) hr₁ hl hb
        (.inl ⟨hroot₁.symm, rfl⟩)).mono ?_ fun _ _ h => h.flush
      rintro _ u ⟨hT, hl, hs, hC⟩
      exact ⟨.inr hT, hl, (Eased.split (l := 0) T₁.sound hT hl hs hC hr₁ hroomy).beyond⟩
    · split
      · rename_i hkids
        have hl : n₁.level ≠ 0 := fun h0 => by
          simp [(T₁.sound.shape.fit hr₁).2 h0] at hkids
        exact (doFlush_spec _ T₁ hr₁ rfl hl hb hroomy).mono
          (fun _ u h => ⟨.inr h.tidy, h.lead, h.beyond⟩) fun _ _ h => h
      · rename_i hleaf hkids
        have hk : n₁.childIds = [] := by simpa using hkids
        have hl : n₁.level ≠ 0 := fun h0 => hleaf (by simp [SSTNode.isLeaf, h0, hk])
        have := (T₁.sound.shape.fit hr₁).1 hl
        simp [hk] at this
  · rename_i hfull
    refine Act.Spec.pure ⟨.inl rfl, .refl w₁, fun F y hy => ⟨hy, fun hmem => ?_⟩⟩
    obtain rfl := List.mem_singleton.mp hmem
    obtain ⟨m, hm, hno⟩ := hy
    obtain rfl : n₁ = m := Option.some.inj (hr₁.symm.trans hm)
    exact hno (F.full n₁ (by simpa using hfull))

/-- **A cycle** restructures the tree that holds the drained entries. -/
theorem flushPending_spec {w : World} (T : Tidy w (some w.rest.root)) (es : List Entry) :
    Act.Spec (flushPending es) w
      (fun _ u => (u = w.merged es ∨ Tidy u none) ∧ LeadsTo (w.merged es) u.tree u.rest.splits)
      (FlushStops (w.merged es)) :=
  (flushPending_eases .any T es).mono (fun _ _ h => ⟨h.1, h.2.1⟩) fun _ _ h => h

/-! ## `flush()` -/

/-- Every file is up to date, or the root's is behind by an empty buffer. -/
def Settled (w : World) : Prop :=
  Tidy w none ∨ Tidy w (some w.rest.root) ∧ ∃ n, w.view w.rest.root = some n ∧ n.buffer = []

theorem Settled.tidy {w : World} (h : Settled w) : Tidy w (some w.rest.root) :=
  h.elim (Tidy.lag · _) (·.1)

/-- Writing the root brings its file up to date. -/
theorem Tidy.rewrite_root {w : World} {n : SSTNode} (T : Tidy w (some w.rest.root))
    (hr : w.view w.rest.root = some n) :
    Tidy (w.rewrite w.rest.root n) none ∧
      LeadsTo w (w.rewrite w.rest.root n).tree w.rest.splits := by
  have hid : n.id = w.rest.root := (T.sound.shape.mem_row hr).2.2
  have hcell := cell_rewrite hr hid
  have hrest : (w.rewrite w.rest.root n).rest =
      { w.rest with effects := (w.rewrite w.rest.root n).rest.effects } := by
    rw [rest_rewrite hid]
  have hroot : (w.rewrite w.rest.root n).rest.root = w.rest.root := by rw [hrest]
  have hnext : (w.rewrite w.rest.root n).rest.next = w.rest.next := by rw [hrest]
  have hstored : (w.rewrite w.rest.root n).rest.stored = w.rest.stored := by rw [hrest]
  have hrev : Revises w.tree (w.rewrite w.rest.root n).tree w.rest.root n
      (flushed w.rest.sizing n) := by
    refine ⟨hr, hid, rfl, rfl, rfl, fun h => absurd rfl h, ?_, hroot, hnext.ge⟩
    funext y
    show ((w.rewrite w.rest.root n).cell y).node = Function.update w.view w.rest.root _ y
    rw [hcell, Function.update_apply]
    split <;> rfl
  refine ⟨⟨T.sound.revise hrev, ?_, ?_⟩, (LeadsTo.refl w).step (.revise hrev)⟩
  · rw [filed_iff]
    intro y
    rw [hcell, hnext]
    split
    · rename_i hy
      subst hy
      exact .written (T.filed.fanout (n := n) hr) (by rw [flushed_filePath, hid]) rfl rfl
        (T.sound.below hr)
    · rename_i hy
      exact (filed_iff.mp T.filed y).settled (fun h => hy (Option.some.inj h).symm) none
  · obtain ⟨m, hm, hmr, hmn, hvalid, hplace⟩ := T.saved
    refine ⟨m, hstored.trans hm, hmr.trans hroot.symm, hmn.trans hnext.ge, fun x => ?_,
      fun x r hx => hnext.symm ▸ hplace x r hx⟩
    rw [hvalid x, hcell]
    split
    · rename_i hx
      subst hx
      rw [show (w.cell w.rest.root).node = some n from hr]
      simp
    · rfl

/-- **`flush()`** merges into the root and writes it, unless there is nothing to write. It
may be stopped before the file is renamed, or after. -/
theorem persistRoot_runs {w : World} (T : Tidy w (some w.rest.root)) (es : List Entry)
    {n : SSTNode} (hn : (w.merged es).view w.rest.root = some n) :
    Act.Runs (persistRoot es) w ()
      (if n.buffer ≠ [] then ((w.merged es).rewrite w.rest.root n).saved else w.merged es)
      fun u => u.disk = w.disk ∨ n.buffer ≠ [] ∧ u = (w.merged es).rewrite w.rest.root n := by
  obtain ⟨r, hr⟩ := T.sound.root_some
  obtain ⟨w₁, hw₁⟩ : ∃ v, v = w.merged es := ⟨_, rfl⟩
  have hn' : n = { r with buffer := stableSort (r.buffer ++ es) } :=
    Option.some.inj (hn.symm.trans (node_merged hr))
  have hroot₁ : w₁.rest.root = w.rest.root := by rw [hw₁, rest_merged]
  have hr₁ : w₁.view w₁.rest.root = some n := by
    rw [hroot₁, hw₁]
    exact hn
  have hid₁ : n.id = w₁.rest.root := by
    rw [hn', hroot₁]
    exact (T.sound.shape.mem_row hr).2.2
  have hdisk₁ : w₁.disk = w.disk := by
    rw [hw₁]
    exact disk_modifyNode ..
  unfold persistRoot
  refine Act.Runs.world_bind (Act.Runs.bind (mergeIntoRoot_runs es hr) ?_)
  rw [← hn', ← hw₁, ← hroot₁, show w.manifest.rootId = w₁.rest.root from hroot₁.symm]
  by_cases hb : n.buffer ≠ []
  · rw [if_pos hb, if_pos hb]
    refine Act.Runs.bind ((flushNode_runs (H := (·.disk = w.disk)) hr₁ ?_).mono
      fun _ hu => .inl hu) ?_
    · rw [disk_modifyNode, hdisk₁]
    refine Act.Reads.bind (getNode_reads (node_written hr₁ hid₁)) (Act.Runs.update_bind ?_)
    have hreg : ((((w₁.modifyNode w₁.rest.root (·.prepare w₁.rest.sizing)).renamed
        (n.prepare w₁.rest.sizing)).modifyNode w₁.rest.root fun m =>
          { m with filePath := ⟨n.id⟩, entriesLoaded := true }).registerNode w₁.rest.root
        (flushed w₁.rest.sizing n).level (flushed w₁.rest.sizing n).filePath) =
        w₁.rewrite w₁.rest.root n := by
      unfold World.rewrite
      rw [flushed_level, flushed_filePath, hid₁]
    rw [hreg]
    exact save_runs (.inr ⟨hb, rfl⟩)
  · rw [if_neg hb, if_neg hb]
    exact Act.Runs.pure _ _

/-- It leaves every entry on disk. -/
theorem persistRoot_spec {w : World} (T : Tidy w (some w.rest.root)) (es : List Entry) :
    Act.Spec (persistRoot es) w
      (fun _ u => Settled u ∧ LeadsTo (w.merged es) u.tree u.rest.splits)
      (Stopped fun u => u.disk = w.disk ∨ Tidy u none ∧
        LeadsTo (w.merged es) u.tree u.rest.splits) := by
  have hroot : (w.merged es).rest.root = w.rest.root := by rw [rest_merged]
  have T₁ : Tidy (w.merged es) (some (w.merged es).rest.root) := by
    rw [hroot]
    exact T.merged
  obtain ⟨n, hn⟩ := T₁.sound.root_some
  have hn' : (w.merged es).view w.rest.root = some n := by
    rw [← hroot]
    exact hn
  have hid : n.id = (w.merged es).rest.root := (T₁.sound.shape.mem_row hn).2.2
  obtain ⟨T₂, hlead₂⟩ := T₁.rewrite_root hn
  have hlead : LeadsTo (w.merged es) ((w.merged es).rewrite (w.merged es).rest.root n).tree
      ((w.merged es).rewrite (w.merged es).rest.root n).rest.splits := by
    rw [rest_rewrite hid]
    exact hlead₂
  refine Act.Spec.mono (persistRoot_runs T es hn') ?_ ?_
  · rintro _ u ⟨-, rfl⟩
    rw [← hroot]
    split
    · exact ⟨.inl (T₂.filed.tidy_saved T₂.sound), hlead⟩
    · rename_i hb
      exact ⟨.inr ⟨T₁, n, hn, not_not.mp hb⟩, .refl _⟩
  · rintro e u ⟨hk, hu⟩
    refine ⟨hk, hu.imp_right fun ⟨_, hu⟩ => ?_⟩
    rw [hu, ← hroot]
    exact ⟨T₂, hlead⟩

end GravTree
