import GravTree.Proof.Named

/-!
# The root

Between two operations of the tree the root has a valid record, or a split of the root was
broken off after the old root was given up and before there was a new one. In the second case
every later operation throws as it looks for the root, so nothing is written any more and the
manifest on disk stays the one from before the split.
-/

namespace GravTree

/-- The root has a valid record. -/
structure Firm (w : World) : Prop where
  named : Named w.rest.next w
  root : (w.cell w.rest.root).Valid

/-- The root was given up, and nothing has taken its place. -/
structure Uprooted (w : World) : Prop where
  named : Named w.rest.next w
  node : (w.cell w.rest.root).node = none
  record : ¬ (w.cell w.rest.root).Valid

/-- What holds between two operations, however they ended. -/
def Footing (w : World) : Prop := Firm w ∨ Uprooted w

/-- An id that has been given out and is not the root. -/
def World.Inner (w : World) (x : NodeId) : Prop := x < w.rest.next ∧ x ≠ w.rest.root

/-- The root has a valid record, and if it is another one it is a new one. -/
structure Ahead (w u : World) : Prop where
  firm : Firm u
  next : w.rest.next ≤ u.rest.next
  root : u.rest.root = w.rest.root ∨ w.rest.next ≤ u.rest.root

/-- A program that ends with a root, or is broken off with the manifest on disk in order. -/
abbrev Proceeds {α : Type} (x : M α) (w : World) (A : α → World → Prop) : Prop :=
  Act.Leads Ahead (fun _ u => Footing u) x w A

namespace Ahead

variable {w u v : World} {x : NodeId} {n : SSTNode}

theorem trans (h : Ahead w u) (h' : Ahead u v) : Ahead w v where
  firm := h'.firm
  next := h.next.trans h'.next
  root := by
    rcases h'.root with hr | hr
    · exact hr ▸ h.root
    · exact .inr (h.next.trans hr)

instance : Act.Course Ahead (fun _ u => Footing u) := ⟨trans, fun _ h => h⟩

theorem inner (h : Ahead w u) (hx : w.Inner x) : u.Inner x := by
  refine ⟨lt_of_lt_of_le hx.1 h.next, ?_⟩
  rcases h.root with hr | hr
  · exact hr ▸ hx.2
  · exact (lt_of_lt_of_le hx.1 hr).ne

theorem names (h : Ahead w u) (hn : n.Names w.rest.next w.rest.root x) :
    n.Names u.rest.next u.rest.root x :=
  ⟨hn.id, hn.path, fun c hc => h.inner (hn.kids c hc)⟩

end Ahead

namespace Firm

variable {w : World} (F : Firm w)

include F

theorem ahead : Ahead w w := ⟨F, le_rfl, .inl rfl⟩

theorem of_writing {u : World} (h : Writing w.rest.next w u) : Ahead w u :=
  ⟨⟨h.named.mono h.next le_rfl, h.root.symm ▸ h.valid.mpr F.root⟩, h.next, .inl h.root⟩

/-- What reads nodes and writes files goes ahead. -/
theorem proceeds {α : Type} {x : M α} {A : α → World → Prop} (h : Writes w.rest.next x w A) :
    Proceeds x w fun a u => Writing w.rest.next w u ∧ A a u :=
  h.mono (fun _ => F.of_writing) (fun _ h => .inl (F.of_writing h).firm) fun _ _ h ha => ⟨h, ha⟩

theorem setNode {x : NodeId} {n : SSTNode} (h : n.Names w.rest.next w.rest.root x) :
    Ahead w (w.setNode x n) := by
  refine ⟨⟨F.named.setNode h, ?_⟩, le_rfl, .inl rfl⟩
  show Cell.Valid ((w.setNode x n).cell w.rest.root)
  rw [World.cell_setNode]
  split <;> exact F.root

theorem eraseNode (x : NodeId) : Ahead w (w.eraseNode x) := by
  refine ⟨⟨F.named.eraseNode x, ?_⟩, le_rfl, .inl rfl⟩
  show Cell.Valid ((w.eraseNode x).cell w.rest.root)
  rw [World.cell_eraseNode]
  split <;> exact F.root

theorem registerNode {x : NodeId} (level : Nat) (h : ∃ n, (w.cell x).file = some n) :
    Ahead w (w.registerNode x level ⟨x⟩) := by
  refine ⟨⟨F.named.registerNode level h, ?_⟩, le_rfl, .inl rfl⟩
  show Cell.Valid ((w.registerNode x level ⟨x⟩).cell w.rest.root)
  rw [World.cell_registerNode]
  split
  · exact ⟨_, rfl, rfl⟩
  · exact F.root

theorem invalidateNode {x : NodeId} (h : x ≠ w.rest.root) : Ahead w (w.invalidateNode x) := by
  have hrest := World.rest_invalidateNode w x
  refine ⟨⟨?_, ?_⟩, by rw [hrest], .inl (by rw [hrest])⟩
  · rw [hrest]
    exact F.named.invalidateNode x
  · rw [hrest, World.cell_invalidateNode, if_neg h.symm]
    exact F.root

theorem saved : Ahead w w.saved := ⟨⟨F.named.saved F.root, F.root⟩, le_rfl, .inl rfl⟩

end Firm

/-! ## Committing -/

/-- The manifest on disk has no valid record that the one in memory has not. -/
def Synced (w : World) : Prop :=
  ∀ m, w.rest.stored = some m → ∀ {x r}, m.nodes.lookup x = some r → r.valid = true →
    (w.cell x).Valid

/-- `gc` removes files that neither manifest needs. -/
theorem Firm.collected {w : World} (F : Firm w) (S : Synced w) {x : NodeId} {r : NodeMeta}
    (hr : (w.cell x).record = some r) (hv : r.valid = false) :
    Ahead w (w.collected x r) ∧ Synced (w.collected x r) := by
  have hinv : ∀ {y}, (w.cell y).Valid → y ≠ x := fun hy hyx => by
    subst hyx
    obtain ⟨r', hr', hv'⟩ := hy
    rw [hr] at hr'
    cases hr'
    rw [hv] at hv'
    cases hv'
  have hcell := fun y => World.cell_collected w x y r (F.named.record hr).1
  have hother : ∀ {y}, (w.cell y).Valid → (w.collected x r).cell y = w.cell y := fun hy => by
    rw [hcell, if_neg (hinv hy)]
  refine ⟨⟨⟨⟨F.named.pos, F.named.lt, F.named.le, fun {y n} hn => ?_, fun {y n} hn => ?_,
    fun {y r'} hr' => ?_, ?_⟩, ?_⟩, le_rfl, .inl rfl⟩, fun m hm y r' hy hv' => ?_⟩
  · rw [hcell] at hn
    split at hn <;> exact F.named.node hn
  · rw [hcell] at hn
    split at hn
    · cases hn
    · exact F.named.file hn
  · rw [hcell] at hr' ⊢
    split at hr'
    · cases hr'
    · rename_i hyx
      rw [if_neg hyx]
      exact F.named.record hr'
  · obtain ⟨m, hm, M⟩ := F.named.stored
    refine ⟨m, hm, M.pos, M.root, fun {y r'} hy hv' => ⟨(M.file hy hv').1, ?_⟩⟩
    show ∃ n, ((w.collected x r).cell y).file = some n
    rw [hother (S m hm hy hv')]
    exact (M.file hy hv').2
  · show ((w.collected x r).cell w.rest.root).Valid
    rw [hother F.root]
    exact F.root
  · have hval := S m hm hy hv'
    rw [hother hval]
    exact hval

theorem proceeds_gcLoop : ∀ (ids : List NodeId) {w : World}, Firm w → Synced w →
    Proceeds (gcLoop ids) w fun _ _ => True
  | [], _, F, _ => .pure F.ahead trivial
  | id :: ids, w, F, S => by
    unfold gcLoop
    refine .world_bind ?_
    split
    · rename_i r hr
      split
      · rename_i hv
        refine .bind (.op _ F.ahead (.inl F)) fun _ u _ hu => ?_
        subst hu
        obtain ⟨h, hS⟩ := F.collected S (x := id) hr (by simpa using hv)
        exact .update_bind h (proceeds_gcLoop ids h.firm hS)
      · exact proceeds_gcLoop ids F S
    · exact proceeds_gcLoop ids F S

section Commit

variable {w : World} (F : Firm w)

include F

theorem proceeds_save : Proceeds save w fun _ u => Synced u :=
  .bind (.op _ F.ahead (.inl F)) fun _ u _ hu => by
    subst hu
    refine .update F.saved fun m hm x r hx hv => ?_
    obtain rfl := Option.some.inj hm
    exact ⟨r, hx, hv⟩

theorem proceeds_gc (S : Synced w) : Proceeds gc w fun _ _ => True :=
  .world_bind (proceeds_gcLoop _ F S)

/-- The end of a restructuring. -/
theorem proceeds_commit : Proceeds (save >>= fun _ => gc) w fun _ _ => True :=
  .bind (proceeds_save F) fun _ _ h hS => proceeds_gc h.firm hS

end Commit

/-! ## Splits -/

theorem Footing.of_writing {w u : World} (F : Footing w) (h : Writing w.rest.next w u) :
    Footing u := by
  rcases F with F | U
  · exact .inl (F.of_writing h).firm
  · refine .inr ⟨h.named.mono h.next le_rfl, ?_, ?_⟩
    · rw [h.root]
      exact h.gone _ U.node U.record
    · rw [h.root, h.valid]
      exact U.record

/-- A part of a restructuring that reads nodes and writes files. -/
theorem Footing.writes_bind {α β : Type} {w₀ w : World} (F : Footing w₀)
    (h₀ : Writing w₀.rest.next w₀ w) {x : M α} {f : α → M β} {A : α → World → Prop}
    {Q : β → World → Prop} (hx : Writes w₀.rest.next x w A)
    (hf : ∀ a u, Writing w₀.rest.next w₀ u → Writing w₀.rest.next w u → A a u →
      Act.Spec (f a) u Q fun _ u => Footing u) :
    Act.Spec (x >>= f) w Q fun _ u => Footing u :=
  Act.Spec.bind (Act.Spec.mono hx (fun _ _ h => h) fun _ _ h => F.of_writing (h₀.trans h))
    fun a u h => hf a u (h₀.trans h.1) h.1 h.2

/-- A new root over two nodes. -/
theorem proceeds_growRoot {w : World} (U : Uprooted w) (level : Nat) {l r : NodeId}
    (hl : w.Inner l) (hr : w.Inner r) : Proceeds (growRoot level l r) w fun _ _ => True := by
  have F : Footing w := .inr U
  unfold growRoot
  refine F.writes_bind (.refl U.named) (writes_nextNodeId U.named) fun id u₁ h₁ _ hid => ?_
  obtain ⟨rfl, hid⟩ := hid
  have hkids : ∀ c ∈ [l, r], c < w.rest.next ∧ c ≠ u₁.rest.root := by
    rw [h₁.root]
    simpa using ⟨hl, hr⟩
  refine F.writes_bind h₁ (writes_create h₁.named hkids) fun n u₂ h₂ g₂ hn => ?_
  refine F.writes_bind h₂ (writes_spanKeyRange h₂.named n) fun range u₃ h₃ g₃ _ => ?_
  have hn₃ : ({ n with keyRange := range } : SSTNode).Names w.rest.next u₃.rest.root
      w.rest.next := by
    rw [g₃.root]
    exact hn.1.congr rfl (hn.1.path.trans (by rw [hn.1.id])) rfl
  refine F.writes_bind h₃ (writes_flushToDisk h₃.named hn₃) fun m u₄ h₄ g₄ hm => ?_
  obtain ⟨hm, hfile⟩ := hm
  rw [hm.path]
  refine .update_bind (.update_bind (.update ⟨?_, trivial⟩))
  have hlt : w.rest.next < u₄.rest.next :=
    lt_of_lt_of_le hid (g₂.next.trans (g₃.next.trans g₄.next))
  -- nobody has the new root for a child yet
  have N := (h₄.named.registerNode level hfile).setRoot (h₄.root ▸ U.named.lt) hlt
  refine ⟨⟨(N.setNode ⟨hm.id, hm.path, fun c hc => ?_⟩).mono hlt.le le_rfl, ?_⟩, h₄.next,
    .inr le_rfl⟩
  · exact ⟨(hm.kids c hc).1, (hm.kids c hc).1.ne⟩
  · show Cell.Valid (World.cell _ w.rest.next)
    rw [World.cell_setNode, if_pos rfl, World.cell_setRoot, World.cell_registerNode, if_pos rfl]
    exact ⟨_, rfl, rfl⟩

section Split

variable {w : World} (F : Firm w)

include F

/-- A cached node that has just been written gets its record. -/
theorem proceeds_registerCached {id : NodeId} (h : ∃ m, (w.cell id).file = some m) :
    Proceeds (registerCached id) w fun _ _ => True :=
  .bind (F.proceeds (writes_getNode F.named id)) fun n u hu hn => by
    obtain ⟨hw, hn, -⟩ := hn
    rw [hn.id, hn.path]
    exact .update (hu.firm.registerNode n.level (hw.grow id h)) trivial

theorem proceeds_flushNode (id : NodeId) :
    Proceeds (flushNode id >>= fun _ => registerCached id) w fun _ _ => True :=
  .bind (F.proceeds (writes_flushNode F.named id)) fun _ _ hu h =>
    proceeds_registerCached hu.firm h.2

theorem proceeds_finishParent (id : NodeId) : Proceeds (finishParent id) w fun _ _ => True := by
  refine .bind (F.proceeds (writes_getNode F.named id)) fun n u hu _ => ?_
  split
  · refine .bind (hu.firm.proceeds (writes_spanKeyRange hu.firm.named n)) fun range v hv _ => ?_
    have hw : Writing v.rest.next v (v.modifyNode id fun p => { p with keyRange := range }) :=
      .modifyNode hv.firm.named fun _ h => ⟨h.id, h.path, h.kids⟩
    exact .update_bind (hv.firm.of_writing hw) (proceeds_flushNode (hv.firm.of_writing hw).firm id)
  · exact proceeds_flushNode hu.firm id

end Split

/-- The node `x` has been given up for two others. -/
structure Replaced (b x : NodeId) (u v : World) : Prop where
  named : Named b v
  root : v.rest.root = u.rest.root
  next : v.rest.next = u.rest.next
  gone : u.rest.root = x → (v.cell x).node = none ∧ ¬ (v.cell x).Valid
  kept : u.rest.root ≠ x → (u.cell u.rest.root).Valid → (v.cell u.rest.root).Valid

namespace Replaced

variable {b x l r : NodeId} {u v : World} {ln rn : SSTNode} (level : Nat)

/-- The cache is refreshed once the records have changed. -/
theorem of_records (N : Named b v) (hroot : v.rest.root = u.rest.root)
    (hnext : v.rest.next = u.rest.next) (hln : ln.Names b u.rest.root l)
    (hrn : rn.Names b u.rest.root r)
    (hgone : u.rest.root = x → ¬ (v.cell x).Valid)
    (hkept : u.rest.root ≠ x → (u.cell u.rest.root).Valid → (v.cell u.rest.root).Valid) :
    Replaced b x u (((v.setNode l ln).setNode r rn).eraseNode x) := by
  have hcell : ∀ y, ((((v.setNode l ln).setNode r rn).eraseNode x).cell y).Valid ↔
      (v.cell y).Valid := fun y => by
    rw [World.cell_eraseNode, World.cell_setNode, World.cell_setNode]
    split <;> split <;> split <;> rfl
  refine ⟨((N.setNode (hroot ▸ hln)).setNode ?_).eraseNode x, hroot, hnext, fun hx => ⟨?_, ?_⟩,
    fun hx hv => (hcell _).mpr (hkept hx hv)⟩
  · rw [World.rest_setNode, hroot]
    exact hrn
  · rw [World.cell_eraseNode, if_pos rfl]
  · rw [hcell]
    exact hgone hx

variable (N : Named b u) (hln : ln.Names b u.rest.root l) (hrn : rn.Names b u.rest.root r)
  (hl : ∃ m, (u.cell l).file = some m) (hr : ∃ m, (u.cell r).file = some m)
  (hlr : l ≠ u.rest.root) (hrr : r ≠ u.rest.root)

include N hln hrn hl hr hlr hrr

/-- The order of `insert_child`. -/
theorem internal : Replaced b x u ((((((u.invalidateNode x).registerNode l level
    ⟨l⟩).registerNode r level ⟨r⟩).setNode l ln).setNode r rn).eraseNode x) := by
  have hfile : ∀ {y}, (∃ m, (u.cell y).file = some m) →
      ∃ m, ((u.invalidateNode x).cell y).file = some m := fun hy => by
    rw [World.cell_invalidateNode]
    split <;> exact hy
  have hfile' : ∃ m, (((u.invalidateNode x).registerNode l level ⟨l⟩).cell r).file = some m := by
    rw [World.cell_registerNode]
    split
    · exact hfile hr
    · exact hfile hr
  refine of_records (((N.invalidateNode x).registerNode level (hfile hl)).registerNode level hfile')
    (by simp) (by simp) hln hrn (fun hx hv => ?_) fun hx hv => ?_
  · subst hx
    obtain ⟨r', hr', hv⟩ := hv
    rw [World.cell_registerNode, if_neg hrr.symm, World.cell_registerNode, if_neg hlr.symm,
      World.cell_invalidateNode, if_pos rfl] at hr'
    obtain ⟨r'', -, rfl⟩ := Option.map_eq_some_iff.mp hr'
    cases hv
  · rw [World.cell_registerNode, if_neg hrr.symm, World.cell_registerNode, if_neg hlr.symm,
      World.cell_invalidateNode, if_neg hx]
    exact hv

/-- The order of `split_leaf`. -/
theorem leaf : Replaced b x u ((((((u.registerNode l level ⟨l⟩).registerNode r level
    ⟨r⟩).invalidateNode x).setNode l ln).setNode r rn).eraseNode x) := by
  have hfile : ∃ m, ((u.registerNode l level ⟨l⟩).cell r).file = some m := by
    rw [World.cell_registerNode]
    split
    · exact hr
    · exact hr
  refine of_records (((N.registerNode level hl).registerNode level hfile).invalidateNode x)
    (by simp) (by simp) hln hrn (fun hx hv => ?_) fun hx hv => ?_
  · obtain ⟨r', hr', hv⟩ := hv
    rw [World.cell_invalidateNode, if_pos rfl] at hr'
    obtain ⟨r'', -, rfl⟩ := Option.map_eq_some_iff.mp hr'
    cases hv
  · rw [World.cell_invalidateNode, if_neg hx, World.cell_registerNode, if_neg hrr.symm,
      World.cell_registerNode, if_neg hlr.symm]
    exact hv

end Replaced

/-- Seen from an earlier world with the same root. -/
theorem proceeds_from {α : Type} {x : M α} {A : α → World → Prop} {w v : World}
    (hnext : w.rest.next ≤ v.rest.next) (hroot : v.rest.root = w.rest.root)
    (h : Proceeds x v A) : Act.Spec x v (fun a u => Ahead w u ∧ A a u) fun _ u => Footing u :=
  Act.Spec.mono h (fun _ _ h => ⟨⟨h.1.firm, hnext.trans h.1.next,
    h.1.root.imp (·.trans hroot) hnext.trans⟩, h.2⟩) fun _ _ h => h

/-- What `split_leaf` and `insert_child` do once a node is replaced: above the root there is a
new root, elsewhere the parent takes the two. -/
theorem Replaced.proceeds {w u v : World} {x l r : NodeId} (F : Firm w)
    (h : Writing w.rest.next w u) (R : Replaced w.rest.next x u v)
    (hl : l < u.rest.next) (hlr : l ≠ u.rest.root) (hr : r < u.rest.next) (hrr : r ≠ u.rest.root)
    {path : List NodeId} (hpath : path.length = 1 ↔ u.rest.root = x) (level : Nat)
    {insert : M Unit} (hinsert : Firm v → Proceeds insert v fun _ _ => True) :
    Act.Spec (if path.length = 1 then growRoot level l r >>= fun _ => save >>= fun _ => gc
      else insert >>= fun _ => save >>= fun _ => gc) v (fun _ u => Ahead w u ∧ True)
      fun _ u => Footing u := by
  have hle : w.rest.next ≤ v.rest.next := h.next.trans R.next.ge
  have hv : v.rest.root = w.rest.root := R.root.trans h.root
  have hval := (F.of_writing h).firm.root
  split
  · rename_i hp
    have hx := hpath.mp hp
    obtain ⟨hnode, hrec⟩ := R.gone hx
    have U : Uprooted v := by
      refine ⟨R.named.mono hle le_rfl, ?_, ?_⟩
      · rw [R.root, hx]
        exact hnode
      · rw [R.root, hx]
        exact hrec
    have hgrow := proceeds_growRoot U level (l := l) (r := r) ⟨R.next ▸ hl, R.root ▸ hlr⟩
      ⟨R.next ▸ hr, R.root ▸ hrr⟩
    exact proceeds_from hle hv (.bind hgrow fun _ _ h _ => proceeds_commit h.firm)
  · rename_i hp
    have hx : u.rest.root ≠ x := fun hx => hp (hpath.mpr hx)
    have Fv : Firm v := ⟨R.named.mono hle le_rfl, R.root.symm ▸ R.kept hx hval⟩
    exact proceeds_from hle hv (.bind (hinsert Fv) fun _ _ h _ => proceeds_commit h.firm)

theorem mem_of_mem_replaceChild {old left right c : NodeId} : ∀ {ids : List NodeId},
    c ∈ replaceChild old left right ids → c = left ∨ c = right ∨ c ∈ ids
  | [], h => nomatch h
  | id :: ids, h => by
    unfold replaceChild at h
    split at h
    · rcases List.mem_cons.mp h with rfl | h
      · exact .inl rfl
      · exact .inr ((List.mem_cons.mp h).imp_right (List.mem_cons_of_mem _))
    · rcases List.mem_cons.mp h with rfl | h
      · exact .inr (.inr List.mem_cons_self)
      · exact (mem_of_mem_replaceChild h).imp_right (.imp_right (List.mem_cons_of_mem _))

theorem proceeds_insertChild : ∀ (fuel : Nat) (p x l r : NodeId) {w : World}, Firm w →
    w.Inner l → w.Inner r → Proceeds (insertChild fuel p x l r) w fun _ _ => True
  | 0, _, _, _, _, _, F, _, _ => .fail _ (.inl F)
  | fuel + 1, p, x, l, r, w, F, hl, hr => by
    have hkids : ∀ {n : SSTNode}, n.Names w.rest.next w.rest.root p →
        ∀ c ∈ replaceChild x l r n.childIds, c < w.rest.next ∧ c ≠ w.rest.root := fun hn c hc => by
      rcases mem_of_mem_replaceChild hc with rfl | rfl | hc
      · exact hl
      · exact hr
      · exact hn.kids c hc
    have F₀ : Footing w := .inl F
    unfold insertChild
    refine F₀.writes_bind (.refl F.named) (writes_getNode F.named p) fun parent u₀ h₀ _ hp => ?_
    obtain ⟨hp, -⟩ := hp
    rw [h₀.root] at hp
    obtain rfl : parent.id = p := hp.id
    have A₀ := F.of_writing h₀
    split
    · -- the parent has room
      have hw : Writing w.rest.next u₀ (u₀.modifyNode parent.id fun p =>
          { p with childIds := replaceChild x l r p.childIds }) :=
        .modifyNode h₀.named fun n hn => ⟨hn.id, hn.path, by
          rw [h₀.root] at hn ⊢
          exact hkids hn⟩
      have A₁ := F.of_writing (h₀.trans hw)
      exact .update_bind (proceeds_from A₁.next (h₀.trans hw).root
        (proceeds_finishParent A₁.firm parent.id))
    split
    · exact proceeds_from A₀.next h₀.root (proceeds_finishParent A₀.firm parent.id)
    -- both halves are written before the records change
    have hhalf : ∀ {u : World} {c}, Writing w.rest.next w u →
        c ∈ replaceChild x l r parent.childIds → c < w.rest.next ∧ c ≠ u.rest.root :=
      fun hu hc => hu.root.symm ▸ hkids hp _ hc
    refine F₀.writes_bind h₀ (writes_getNode h₀.named _) fun _ u₁ h₁ _ _ => ?_
    refine F₀.writes_bind h₁ (writes_nextNodeId h₁.named) fun lid u₂ h₂ g₂ hlid => ?_
    refine F₀.writes_bind h₂ (writes_nextNodeId h₂.named) fun rid u₃ h₃ g₃ hrid => ?_
    refine F₀.writes_bind h₃ (writes_create h₃.named fun c hc =>
      hhalf h₃ (List.mem_of_mem_take hc)) fun ln u₄ h₄ g₄ hln => ?_
    refine F₀.writes_bind h₄ (writes_create h₄.named fun c hc =>
      hhalf h₄ (List.mem_of_mem_drop hc)) fun rn u₅ h₅ g₅ hrn => ?_
    refine F₀.writes_bind h₅ (writes_spanKeyRange h₅.named _) fun lrange u₆ h₆ g₆ _ => ?_
    refine F₀.writes_bind h₆ (writes_spanKeyRange h₆.named _) fun rrange u₇ h₇ g₇ _ => ?_
    have hln : ({ ln with keyRange := lrange } : SSTNode).Names w.rest.next u₇.rest.root lid := by
      rw [h₇.root, ← h₄.root]
      exact ⟨hln.1.id, hln.1.path, hln.1.kids⟩
    refine F₀.writes_bind h₇ (writes_flushToDisk h₇.named hln) fun ln u₈ h₈ g₈ hln => ?_
    have hrn : ({ rn with keyRange := rrange } : SSTNode).Names w.rest.next u₈.rest.root rid := by
      rw [h₈.root, ← h₅.root]
      exact ⟨hrn.1.id, hrn.1.path, hrn.1.kids⟩
    refine F₀.writes_bind h₈ (writes_flushToDisk h₈.named hrn) fun rn u₉ h₉ g₉ hrn => ?_
    refine F₀.writes_bind h₉ (writes_pathTo h₉.named _) fun path u h g hpath => ?_
    have g₈' := g₉.trans g
    have g₃' := g₄.trans (g₅.trans (g₆.trans (g₇.trans (g₈.trans g₈'))))
    have hlt : ∀ {y}, w.rest.next ≤ y → y ≠ u.rest.root := fun hy => by
      rw [h.root]
      exact (lt_of_lt_of_le F.named.lt hy).ne'
    have hlid' : lid < u.rest.next := lt_of_lt_of_le hlid.2 (g₃.trans g₃').next
    have hrid' : rid < u.rest.next := lt_of_lt_of_le hrid.2 g₃'.next
    have hlne : lid ≠ u.rest.root := hlt (h₁.next.trans hlid.1.ge)
    have hrne : rid ≠ u.rest.root := hlt (h₂.next.trans hrid.1.ge)
    have R := Replaced.internal (x := parent.id) parent.level h.named
      (by rw [h.root, ← h₈.root]; exact hln.1) (by rw [h.root, ← h₉.root]; exact hrn.1)
      (g₈'.grow _ hln.2) (g.grow _ hrn.2) hlne hrne
    rw [hln.1.path, hrn.1.path]
    refine .update_bind (.update_bind (.update_bind ?_))
    refine .update_bind (.update_bind (.update_bind ?_))
    exact R.proceeds F h hlid' hlne hrid' hrne (h₉.root.trans h.root.symm ▸ hpath)
      (parent.level + 1) fun Fv => proceeds_insertChild fuel _ _ _ _ Fv
        ⟨R.next ▸ hlid', R.root ▸ hlne⟩ ⟨R.next ▸ hrid', R.root ▸ hrne⟩

/-- The root is split by the path that says so. -/
theorem proceeds_splitLeaf {w : World} (F : Firm w) {x : NodeId} {path : List NodeId}
    (hpath : path.length = 1 ↔ w.rest.root = x) :
    Proceeds (splitLeaf x path) w fun _ _ => True := by
  have F₀ : Footing w := .inl F
  unfold splitLeaf
  refine F₀.writes_bind (.refl F.named) (writes_getNode F.named x) fun _ u₁ h₁ _ _ => ?_
  have h₂ : Writing w.rest.next w (u₁.splitting x path) :=
    ⟨h₁.named.splitting x path, h₁.root, h₁.next, h₁.record, h₁.grow, h₁.gone⟩
  have h₃ := h₂.trans (.modifyNode h₂.named (x := x)
    (f := fun leaf => { leaf with buffer := stableSort leaf.buffer })
    fun _ hn => ⟨hn.id, hn.path, hn.kids⟩)
  refine .update_bind (.update_bind ?_)
  refine F₀.writes_bind h₃ (writes_getNode h₃.named x) fun leaf u₄ h₄ _ _ => ?_
  refine F₀.writes_bind h₄ (writes_nextNodeId h₄.named) fun lid u₅ h₅ g₅ hlid => ?_
  refine F₀.writes_bind h₅ (writes_nextNodeId h₅.named) fun rid u₆ h₆ g₆ hrid => ?_
  refine F₀.writes_bind h₆ (writes_create h₆.named (by simp)) fun ln u₇ h₇ g₇ hln => ?_
  refine F₀.writes_bind h₇ (writes_create h₇.named (by simp)) fun rn u h g hrn => ?_
  have hlt : ∀ {y}, w.rest.next ≤ y → y ≠ u.rest.root := fun hy => by
    rw [h.root]
    exact (lt_of_lt_of_le F.named.lt hy).ne'
  have hlid' : lid < u.rest.next := lt_of_lt_of_le hlid.2 (g₆.trans (g₇.trans g)).next
  have hrid' : rid < u.rest.next := lt_of_lt_of_le hrid.2 (g₇.trans g).next
  have hlne : lid ≠ u.rest.root := hlt (h₄.next.trans hlid.1.ge)
  have hrne : rid ≠ u.rest.root := hlt (h₅.next.trans hrid.1.ge)
  have R := Replaced.leaf (x := x) 0 h.named (by rw [h.root, ← h₇.root]; exact hln.1) hrn.1
    (g.grow _ hln.2) hrn.2 hlne hrne
  rw [hln.1.path, hrn.1.path]
  refine .update_bind (.update_bind (.update_bind ?_))
  refine .update_bind (.update_bind (.update_bind ?_))
  exact R.proceeds F h hlid' hlne hrid' hrne (h.root.symm ▸ hpath) 1 fun Fv => show
    Proceeds (Act.world >>= fun w => insertChild w.height _ _ _ _) _ _ from
      .world_bind (proceeds_insertChild _ _ _ _ _ Fv
        ⟨R.next ▸ hlid', R.root ▸ hlne⟩ ⟨R.next ▸ hrid', R.root ▸ hrne⟩)

/-! ## Flushes -/

/-- Children under their own ids, none of which is the root. -/
def World.Children (w : World) (cs : List SSTNode) : Prop :=
  ∀ c ∈ cs, w.Inner c.id ∧ c.Names w.rest.next w.rest.root c.id

theorem Ahead.children {w u : World} (h : Ahead w u) {cs : List SSTNode} (hc : w.Children cs) :
    u.Children cs := fun c hmem => ⟨h.inner (hc c hmem).1, h.names (hc c hmem).2⟩

theorem proceeds_localFlushLoop : ∀ (cs : List (SSTNode × List Entry)) {w : World}, Firm w →
    w.Children (cs.map Prod.fst) → Proceeds (localFlushLoop cs) w fun r u =>
      u.Children r.1 ∧ ∀ id ∈ r.2.newChildIds, u.Inner id
  | [], _, F, _ => .pure F.ahead ⟨fun _ h => (nomatch h), fun _ h => nomatch h⟩
  | (child, part) :: cs, w, F, h => by
    obtain ⟨⟨hin, hchild⟩, hcs⟩ := List.forall_mem_cons.mp h
    unfold localFlushLoop
    split
    · refine .bind (proceeds_localFlushLoop cs F hcs) fun r u hu hr => ?_
      exact .pure hu.firm.ahead ⟨List.forall_mem_cons.mpr ⟨⟨hu.inner hin, hu.names hchild⟩, hr.1⟩,
        List.forall_mem_cons.mpr ⟨hu.inner hin, hr.2⟩⟩
    · refine .bind (F.proceeds (writes_loadEntries F.named hchild)) fun c u hu hc => ?_
      obtain ⟨-, rfl, hc⟩ := hc
      refine .bind (F.proceeds (writes_nextNodeId F.named)) fun id u₁ h₁ hid => ?_
      obtain ⟨hw₁, rfl, hid⟩ := hid
      have hc₁ := h₁.names hc
      refine .bind (h₁.firm.proceeds (writes_create h₁.firm.named hc₁.kids)) fun n u₂ h₂ hn => ?_
      obtain ⟨hw₂, hn, hfile⟩ := hn
      rw [hn.path]
      have h₃ := h₂.firm.registerNode c.level hfile
      have hin₃ := h₃.inner (h₂.inner (h₁.inner hin))
      have h₄ := h₃.firm.invalidateNode (hc.id.symm ▸ hin₃.2)
      refine .update_bind h₃ (.update_bind h₄ ?_)
      have h := h₁.trans (h₂.trans (h₃.trans h₄))
      refine .bind (proceeds_localFlushLoop cs h₄.firm (h.children hcs)) fun r v hv hr => ?_
      -- the new child is not the root: its id has just been given out
      have hnew : u₁.Inner u.rest.next := ⟨hid, by
        rw [hw₁.root]
        exact F.named.lt.ne'⟩
      have h₅ := h₂.trans (h₃.trans (h₄.trans hv))
      have hn₂ := hn.mono h₂.next
      refine .pure hv.firm.ahead ⟨List.forall_mem_cons.mpr ⟨?_, hr.1⟩,
        List.forall_mem_cons.mpr ⟨h₅.inner hnew, hr.2⟩⟩
      rw [hn.id]
      exact ⟨h₅.inner hnew, (h₃.trans (h₄.trans hv)).names hn₂⟩

theorem proceeds_localFlush {w : World} (F : Firm w) (p : NodeId) {cs : List SSTNode}
    (h : w.Children cs) : Proceeds (localFlush p cs) w fun r u =>
      u.Children r.1 ∧ ∀ id ∈ r.2.newChildIds, u.Inner id := by
  have hw : Writing w.rest.next w
      (w.modifyNode p fun p => { p with buffer := stableSort p.buffer }) :=
    .modifyNode F.named fun _ hn => ⟨hn.id, hn.path, hn.kids⟩
  have h₁ := F.of_writing hw
  refine .update_bind h₁ <| .bind (h₁.firm.proceeds (writes_getNode h₁.firm.named p))
    fun parent u hu _ => proceeds_localFlushLoop _ hu.firm fun c hc => ?_
  obtain ⟨⟨c, part⟩, hmem, rfl⟩ := List.mem_map.mp hc
  exact (h₁.trans hu).children h c (List.of_mem_zip hmem).1

theorem proceeds_refreshChild {w : World} (F : Firm w) {c : SSTNode}
    (h : c.Names w.rest.next w.rest.root c.id) : Proceeds (refreshChild c) w fun m u =>
      m.Names u.rest.next u.rest.root m.id := by
  unfold refreshChild
  split
  · refine .bind (F.proceeds (writes_spanKeyRange F.named c)) fun span u hu _ => ?_
    refine .bind (hu.firm.proceeds (writes_flushToDisk hu.firm.named (x := c.id)
      (n := { c with keyRange := _ }) ((hu.names h).congr rfl (hu.names h).path rfl)))
      fun m v hv hm => ?_
    obtain ⟨hw, hm, hfile⟩ := hm
    rw [hm.path, hm.id]
    have h' := hv.firm.registerNode m.level hfile
    exact .update_bind h' (.pure h'.firm.ahead (hm.id.symm ▸ h'.names (hm.mono hv.next)))
  · exact .pure F.ahead h

theorem proceeds_refreshCache : ∀ (cs : List SSTNode) (olds : List NodeId) {w : World}, Firm w →
    (∀ c ∈ cs, c.Names w.rest.next w.rest.root c.id) →
    Proceeds (refreshCache cs olds) w fun _ _ => True
  | [], _, _, F, _ => .pure F.ahead trivial
  | c :: cs, olds, w, F, h => by
    obtain ⟨hc, hcs⟩ := List.forall_mem_cons.mp h
    have hrest : ∀ {w' : World}, Ahead w w' → Proceeds (refreshChild c >>= fun c =>
        setNode c.id c >>= fun _ => refreshCache cs olds.tail) w' fun _ _ => True := fun h' =>
      .bind (proceeds_refreshChild h'.firm (h'.names hc)) fun m u hu hm =>
        .update_bind (hu.firm.setNode hm) <| proceeds_refreshCache cs _ (hu.firm.setNode hm).firm
          fun c hc => (h'.trans (hu.trans (hu.firm.setNode hm))).names (hcs c hc)
    unfold refreshCache
    cases olds with
    | nil => exact hrest F.ahead
    | cons old olds => exact .update_bind (F.eraseNode old) (hrest (F.eraseNode old))

theorem proceeds_pushDown {w : World} (F : Firm w) (p : NodeId) :
    Proceeds (pushDown p) w fun ids u => ∀ id ∈ ids, u.Inner id := by
  unfold pushDown
  refine .bind (F.proceeds (writes_getNode F.named p)) fun parent u₁ h₁ hp => ?_
  obtain ⟨hw₁, hp, -⟩ := hp
  have hkids := (h₁.firm.of_writing (.refl h₁.firm.named)).names (hp.mono h₁.next)
  refine .bind (h₁.firm.proceeds (writes_loadChildren parent.childIds h₁.firm.named))
    fun cs u₂ h₂ hcs => ?_
  have hchildren : u₂.Children cs := fun c hc =>
    ⟨h₂.inner (hkids.kids _ (hcs.2 c hc).1), (hcs.2 c hc).2.mono h₂.next⟩
  refine .bind (proceeds_localFlush h₂.firm p hchildren) fun r u₃ h₃ hr => ?_
  have hw₄ : Writing u₃.rest.next u₃ (u₃.modifyNode p fun p => { p with
      childIds := List.zipWith (fun old new => if old ∈ r.2.oldChildIds then new else old)
        p.childIds r.2.newChildIds }) := by
    refine .modifyNode h₃.firm.named fun n hn => ⟨hn.id, hn.path, fun c hc => ?_⟩
    obtain ⟨i, hi, rfl⟩ := List.mem_iff_getElem.mp hc
    rw [List.length_zipWith] at hi
    rw [List.getElem_zipWith]
    split
    · exact hr.2 _ (List.getElem_mem _)
    · exact hn.kids _ (List.getElem_mem _)
  have h₄ := h₃.firm.of_writing hw₄
  refine .update_bind h₄ ?_
  refine .bind (proceeds_refreshCache _ _ h₄.firm fun c hc => h₄.names (hr.1 c hc).2)
    fun _ u₅ h₅ _ => ?_
  have hw₆ : Writing u₅.rest.next u₅ (u₅.modifyNode p fun p => { p with buffer := [] }) :=
    .modifyNode h₅.firm.named fun _ hn => ⟨hn.id, hn.path, hn.kids⟩
  have h₆ := h₅.firm.of_writing hw₆
  refine .update_bind h₆ <| .bind (h₆.firm.proceeds (writes_getNode h₆.firm.named p))
    fun n u₇ h₇ _ => ?_
  have hids : ∀ id ∈ r.2.newChildIds, u₇.Inner id := fun id hid =>
    (h₄.trans (h₅.trans (h₆.trans h₇))).inner (hr.2 id hid)
  have hend : ∀ {v : World}, Ahead u₇ v → Proceeds (flushNode p >>= fun _ => registerCached p >>=
      fun _ => save >>= fun _ => gc >>= fun _ => pure r.2.newChildIds) v
        fun ids u => ∀ id ∈ ids, u.Inner id := fun h =>
    .bind (h.firm.proceeds (writes_flushNode h.firm.named p)) fun _ _ hu hfile =>
      .bind (proceeds_registerCached hu.firm hfile.2) fun _ _ hu' _ =>
      .bind (proceeds_save hu'.firm) fun _ _ hs hS => .bind (proceeds_gc hs.firm hS) fun _ _ hg _ =>
      .pure hg.firm.ahead fun id hid =>
        (h.trans (hu.trans (hu'.trans (hs.trans hg)))).inner (hids id hid)
  split
  · refine .bind (h₇.firm.proceeds (writes_spanKeyRange h₇.firm.named n)) fun range v hv _ => ?_
    have hw : Writing v.rest.next v (v.modifyNode p fun p => { p with keyRange := range }) :=
      .modifyNode hv.firm.named fun _ h => ⟨h.id, h.path, h.kids⟩
    exact .update_bind (hv.firm.of_writing hw) (hend (hv.trans (hv.firm.of_writing hw)))
  · exact hend h₇.firm.ahead

theorem proceeds_checkChildren {flushChild : NodeId → M Unit}
    (h : ∀ id {w : World}, Firm w → Proceeds (flushChild id) w fun _ _ => True) (p : NodeId) :
    ∀ (ids : List NodeId) {w : World}, Firm w → (∀ id ∈ ids, w.Inner id) →
      Proceeds (checkChildren flushChild p ids) w fun _ _ => True
  | [], _, F, _ => .pure F.ahead trivial
  | id :: ids, w, F, hids => by
    obtain ⟨hid, hids⟩ := List.forall_mem_cons.mp hids
    have hrest : ∀ {u : World}, Ahead w u →
        Proceeds (checkChildren flushChild p ids) u fun _ _ => True := fun hu =>
      proceeds_checkChildren h p ids hu.firm fun id hid => hu.inner (hids id hid)
    refine .world_bind ?_
    split
    · split
      · split
        · refine .bind (proceeds_splitLeaf F ⟨fun hlen => ?_, fun hroot => ?_⟩)
            fun _ _ hu _ => hrest hu
          · simp at hlen
          · exact absurd hroot.symm hid.2
        · split
          · exact .bind (h id F) fun _ _ hu _ => hrest hu
          · exact hrest F.ahead
      · exact hrest F.ahead
    · exact hrest F.ahead

theorem proceeds_doFlush : ∀ (fuel : Nat) (p : NodeId) {w : World}, Firm w →
    Proceeds (doFlush fuel p) w fun _ _ => True
  | 0, _, _, F => .fail _ (.inl F)
  | fuel + 1, p, _, F => .bind (proceeds_pushDown F p) fun ids _ hu hids =>
      proceeds_checkChildren (proceeds_doFlush fuel) p ids hu.firm hids

/-! ## The operations -/

/-- A leaf that is the root is its own path. -/
theorem findPath_reads {w : World} (key : Bytes) {n : SSTNode}
    (hn : (w.cell w.rest.root).node = some n) (hleaf : n.isLeaf = true) :
    Act.Reads (findPath key) w [w.rest.root] := by
  have hheight : w.height = 1 := by
    have hn : w.cache.lookup w.manifest.rootId = some n := hn
    rw [World.height, hn]
    simpa [SSTNode.isLeaf] using hleaf
  refine Act.Runs.world_bind ?_
  rw [hheight]
  refine Act.Reads.bind (getNode_reads hn) ?_
  rw [if_pos hleaf]
  exact Act.Runs.pure _ _

section Operations

variable {w : World} (F : Firm w) (pending : List Entry)

include F

theorem proceeds_mergeIntoRoot : Proceeds (mergeIntoRoot pending) w fun n u =>
    u.rest.root = w.rest.root ∧ (u.cell u.rest.root).node = some n := by
  refine .world_bind <| .bind (F.proceeds (writes_getNode F.named _)) fun _ u hu h => ?_
  have hw : Writing u.rest.next u (u.modifyNode w.rest.root fun root =>
      { root with buffer := stableSort (root.buffer ++ pending) }) :=
    .modifyNode hu.firm.named fun _ hn => ⟨hn.id, hn.path, hn.kids⟩
  have h' := hu.firm.of_writing hw
  refine .update_bind h' <| (h'.firm.proceeds (writes_getNode h'.firm.named _)).mono
    (fun _ h => h) (fun _ h => h) fun n v _ hn => ?_
  have hroot : v.rest.root = w.rest.root := hn.1.root.trans (hw.root.trans h.1.root)
  exact ⟨hroot, hroot.symm ▸ hn.2.2⟩

theorem proceeds_flushPending : Proceeds (flushPending pending) w fun _ _ => True := by
  refine .world_bind <| .bind (proceeds_mergeIntoRoot F pending) fun n u hu hn => ?_
  obtain ⟨hroot, hn⟩ := hn
  have hid : w.manifest.rootId = u.rest.root := hroot.symm
  rw [hid]
  split
  · split
    · rename_i hleaf
      have hleaf : n.isLeaf = true := (Bool.and_eq_true_iff.mp hleaf).1
      refine (findPath_reads _ hn hleaf).spec_bind ?_
      exact proceeds_splitLeaf hu.firm (by simp)
    · split
      · exact proceeds_doFlush _ _ hu.firm
      · exact .pure hu.firm.ahead trivial
  · exact .pure hu.firm.ahead trivial

theorem proceeds_persistRoot : Proceeds (persistRoot pending) w fun _ _ => True := by
  refine .world_bind <| .bind (proceeds_mergeIntoRoot F pending) fun n u hu hn => ?_
  split
  · refine .bind (hu.firm.proceeds (writes_flushNode hu.firm.named _)) fun _ v hv hfile => ?_
    obtain ⟨hw, hfile⟩ := hfile
    refine .bind (hv.firm.proceeds (writes_getNode hv.firm.named _)) fun m v' hv' hm => ?_
    obtain ⟨hw', hm, -⟩ := hm
    rw [hm.path]
    have h := hv'.firm.registerNode m.level (hw'.grow _ hfile)
    refine .update_bind h <| .bind (.op _ h.firm.ahead (.inl h.firm)) fun _ u' _ hu' => ?_
    subst hu'
    exact .update h.firm.saved trivial
  · exact .pure hu.firm.ahead trivial

/-- The destructor ends like a `flush()`. -/
theorem proceeds_destroyTree : Proceeds (destroyTree pending) w fun _ _ => True := by
  refine .world_bind ?_
  split
  · exact proceeds_persistRoot F pending
  · exact .pure F.ahead trivial

end Operations

/-- **Every operation of the tree**, however it ends. -/
theorem Footing.exec {α : Type} {w : World} (F : Footing w) {x : M α}
    (hfirm : Firm w → Proceeds x w fun _ _ => True)
    (hgone : Uprooted w → Act.Spec x w (fun _ u => u = w) fun _ u => u = w)
    (plan : Option (Nat × Stop)) : Footing (Act.exec x ⟨w, plan⟩) := by
  rcases F with F | U
  · exact (hfirm F).exec (fun _ h => .inl h.firm) plan
  · have h : Act.exec x ⟨w, plan⟩ = w :=
      ((hgone U).exec plan).elim (fun ⟨_, h⟩ => h) fun ⟨_, h⟩ => h
    rw [h]
    exact .inr U

namespace Uprooted

variable {w : World} (U : Uprooted w)

include U

theorem getNode_fails {Q : SSTNode → World → Prop} :
    Act.Spec (getNode w.rest.root) w Q fun _ u => u = w := by
  have hnode : w.cache.lookup w.rest.root = none := U.node
  have hpath : w.manifest.nodePath w.rest.root = none := by
    have hrec := U.record
    rw [Manifest.nodePath]
    cases hr : w.manifest.nodes.lookup w.rest.root with
    | none => rfl
    | some r => exact if_neg fun hv => hrec ⟨r, hr, hv⟩
  refine .world_bind ?_
  rw [hnode]
  refine .world_bind ?_
  rw [hpath]
  exact .fail rfl

theorem mergeIntoRoot_fails (pending : List Entry) {Q : SSTNode → World → Prop} :
    Act.Spec (mergeIntoRoot pending) w Q fun _ u => u = w :=
  .world_bind (.bind (R := fun _ _ => False) U.getNode_fails fun _ _ h => h.elim)

theorem flushPending_fails (pending : List Entry) {Q : Unit → World → Prop} :
    Act.Spec (flushPending pending) w Q fun _ u => u = w :=
  .world_bind (.bind (R := fun _ _ => False) (U.mergeIntoRoot_fails pending) fun _ _ h => h.elim)

theorem persistRoot_fails (pending : List Entry) {Q : Unit → World → Prop} :
    Act.Spec (persistRoot pending) w Q fun _ u => u = w :=
  .world_bind (.bind (R := fun _ _ => False) (U.mergeIntoRoot_fails pending) fun _ _ h => h.elim)

theorem destroyTree_fails (pending : List Entry) :
    Act.Spec (destroyTree pending) w (fun _ u => u = w) fun _ u => u = w := by
  refine .world_bind ?_
  split
  · exact U.persistRoot_fails pending
  · exact .pure rfl

theorem getFromTree_fails (key : Bytes) {Q : Option Bytes → World → Prop} :
    Act.Spec (getFromTree key) w Q fun _ u => u = w := by
  have hheight : w.height = 0 := by
    have hnode : w.cache.lookup w.manifest.rootId = none := U.node
    rw [World.height, hnode]
  have hpath : Act.Spec (findPath key) w (fun _ _ => False) fun _ u => u = w := by
    refine .world_bind ?_
    rw [hheight]
    exact .fail rfl
  exact .bind hpath fun _ _ h => h.elim

end Uprooted

end GravTree
