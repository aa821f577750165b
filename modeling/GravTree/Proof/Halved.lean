import GravTree.Proof.Written

/-!
# Cutting a node in two

Both `split_leaf` and `insert_child` write two new nodes, list them, drop the node
they come from, and either put them under a new root or hand them to the parent.
This module says what the cells hold at each of these points.
-/

namespace GravTree

open Forest

/-! ## Files, one identifier at a time -/

/-- What `Filed` says of one identifier. -/
structure Cell.Filed (c : Cell) (x next : NodeId) (lag : Option NodeId) : Prop where
  fanout : ∀ {n}, c.node = some n → n.childIds.length ≤ maxFanout
  loaded : ∀ {n}, c.node = some n → n.filePath = ⟨x⟩ ∧ n.entriesLoaded = true
  valid : c.Valid ↔ c.node ≠ none
  place : ∀ {r}, c.record = some r → r.filePath = ⟨x⟩ ∧ r.id = x ∧ x < next
  file : ∀ {n}, c.node = some n →
    ∃ n₀, c.file = some n₀ ∧ (n₀.loaded = n ∨ lag = some x ∧ Lags n₀ n)

theorem filed_iff {w : World} {lag : Option NodeId} :
    Filed w lag ↔ ∀ x, (w.cell x).Filed x w.rest.next lag where
  mp F _ := ⟨F.fanout, F.loaded, F.valid, F.place, F.file⟩
  mpr h := ⟨(h _).fanout, (h _).loaded, (h _).valid, (h _).place, (h _).file⟩

namespace Cell.Filed

variable {c : Cell} {x next next' : NodeId} {lag : Option NodeId}

theorem mono (F : c.Filed x next lag) (h : next ≤ next') : c.Filed x next' lag where
  fanout := F.fanout
  loaded := F.loaded
  valid := F.valid
  place hr := ⟨(F.place hr).1, (F.place hr).2.1, lt_of_lt_of_le (F.place hr).2.2 h⟩
  file := F.file

theorem settled (F : c.Filed x next lag) (h : lag ≠ some x) (lag' : Option NodeId) :
    c.Filed x next lag' where
  fanout := F.fanout
  loaded := F.loaded
  valid := F.valid
  place := F.place
  file hn := by
    obtain ⟨n₀, h₀, hl | ⟨hl, -⟩⟩ := F.file hn
    · exact ⟨n₀, h₀, .inl hl⟩
    · exact absurd hl h

/-- A node that was just written. -/
theorem written {n n₀ : SSTNode} {level : Nat} (hfan : n.childIds.length ≤ maxFanout)
    (hpath : n.filePath = ⟨x⟩) (hload : n.entriesLoaded = true) (h₀ : n₀.loaded = n)
    (hx : x < next) :
    Cell.Filed ⟨some n, some { id := x, level, filePath := ⟨x⟩ }, some n₀⟩ x next lag where
  fanout hn := by cases hn; exact hfan
  loaded hn := by cases hn; exact ⟨hpath, hload⟩
  valid := ⟨fun _ => Option.some_ne_none _, fun _ => ⟨_, rfl, rfl⟩⟩
  place hr := by cases hr; exact ⟨rfl, rfl, hx⟩
  file hn := by cases hn; exact ⟨n₀, rfl, .inl h₀⟩

/-- A node that was dropped and invalidated. -/
theorem dropped (F : c.Filed x next lag) (lag' : Option NodeId) : Cell.Filed
    { c with node := none, record := c.record.map ({ · with valid := false }) } x next lag' where
  fanout hn := nomatch hn
  loaded hn := nomatch hn
  valid := by
    refine ⟨?_, fun h => absurd rfl h⟩
    rintro ⟨r, hr, hv⟩
    obtain ⟨r', -, rfl⟩ := Option.map_eq_some_iff.mp hr
    simp at hv
  place hr := by
    obtain ⟨r', hr', rfl⟩ := Option.map_eq_some_iff.mp hr
    exact F.place (r := r') hr'
  file hn := nomatch hn

end Cell.Filed

/-- A file under a fresh name changes nothing that counts. -/
theorem Going.renamed {w₀ w : World} (S : w₀.tree.Sound) (h : Going w₀ w) {n : SSTNode}
    (hn : w₀.rest.next ≤ n.id) : Going w₀ (w.renamed n) := by
  have hfile : ∀ y, y < w₀.rest.next → ((w.renamed n).cell y).file = (w.cell y).file := by
    intro y hy
    rw [World.cell_renamed, if_neg (lt_of_lt_of_le hy hn).ne]
  have hnode : ∀ y, ((w.renamed n).cell y).node = (w.cell y).node ∧
      ((w.renamed n).cell y).record = (w.cell y).record := by
    intro y
    rw [World.cell_renamed]
    split <;> exact ⟨rfl, rfl⟩
  refine ⟨h.1.imp (fun C => ?_) (fun M => ?_), h.2⟩
  · refine ⟨fun y => (hnode y).1.trans (C.node y), fun y => (hnode y).2 ▸ C.record y,
      fun y hy => ?_, C.root, C.stored, C.next⟩
    obtain ⟨m, hm⟩ := Option.ne_none_iff_exists'.mp hy
    rw [hfile y (S.below hm), C.file y hy]
  · refine M.step S (fun y _ hv => ?_) hfile rfl (fun he => he.rename _ _)
    rwa [Cell.Valid, (hnode y).2]

/-! ## Nodes over given children -/

/-- A node made over the children `ks` and written again with the range that spans them. -/
def spanning (sizing : Sizing) (v : View) (id level : Nat) (es : List Entry)
    (ks : List NodeId) : SSTNode :=
  flushed sizing { created sizing id level es ks with
    keyRange := v.span (created sizing id level es ks) }

section Spanning

variable (sizing : Sizing) (v : View) (id level : Nat) (es : List Entry) (ks : List NodeId)

@[simp] theorem spanning_id : (spanning sizing v id level es ks).id = id := rfl

@[simp] theorem spanning_level : (spanning sizing v id level es ks).level = level := rfl

@[simp] theorem spanning_filePath : (spanning sizing v id level es ks).filePath = ⟨id⟩ := rfl

@[simp] theorem spanning_buffer :
    (spanning sizing v id level es ks).buffer = sortBuffer es :=
  sortBuffer_eq_self (uniqueKeys_sortBuffer es)

theorem spanning_childIds (h : ks.length ≤ maxFanout) :
    (spanning sizing v id level es ks).childIds = ks :=
  created_childIds sizing id level es ks h

theorem fenced_spanning : Fenced v (spanning sizing v id level es ks)
    (v.headMin (spanning sizing v id level es ks)) :=
  fenced_flushed sizing rfl

end Spanning

/-! ## The two halves -/

/-- `x` was replaced in cache and manifest by the new nodes `na` and `nb`; its parent
still names it. -/
structure Halved (w u : World) (x : NodeId) (na nb : SSTNode) : Prop where
  id_a : na.id = w.rest.next
  id_b : nb.id = w.rest.next + 1
  rest : u.rest = { w.rest with next := w.rest.next + 2, effects := u.rest.effects }
  exposed : Exposed w.rest.effects → Exposed u.rest.effects
  at_x : u.cell x = { w.cell x with
    node := none, record := (w.cell x).record.map ({ · with valid := false }) }
  at_a : ∃ n₀, n₀.loaded = na ∧
    u.cell na.id = ⟨some na, some { id := na.id, level := na.level, filePath := ⟨na.id⟩ }, some n₀⟩
  at_b : ∃ n₀, n₀.loaded = nb ∧
    u.cell nb.id = ⟨some nb, some { id := nb.id, level := nb.level, filePath := ⟨nb.id⟩ }, some n₀⟩
  other : ∀ y, y ≠ x → y ≠ na.id → y ≠ nb.id → u.cell y = w.cell y

/-- The files of `na` and `nb` were written under the next two names. -/
structure Drafted (w u : World) (na nb : SSTNode) : Prop where
  id_a : na.id = w.rest.next
  id_b : nb.id = w.rest.next + 1
  rest : u.rest = { w.rest with next := w.rest.next + 2, effects := u.rest.effects }
  exposed : Exposed w.rest.effects → Exposed u.rest.effects
  file_a : ∃ n₀, n₀.loaded = na ∧ (u.cell na.id).file = some n₀
  file_b : ∃ n₀, n₀.loaded = nb ∧ (u.cell nb.id).file = some n₀
  node : ∀ y, (u.cell y).node = (w.cell y).node
  record : ∀ y, (u.cell y).record = (w.cell y).record
  other : ∀ y, y ≠ na.id → y ≠ nb.id → u.cell y = w.cell y

/-- Both nodes are put into the cache in the place of `x`. -/
theorem Drafted.halved {w u u' : World} {x : NodeId} {na nb : SSTNode} (D : Drafted w u na nb)
    (hx : x < w.rest.next) (hrest : u'.rest = u.rest)
    (hcell : ∀ y, u'.cell y = if y = x then { u.cell y with
          node := none, record := (u.cell y).record.map ({ · with valid := false }) }
      else if y = na.id then { u.cell y with
        node := some na, record := some { id := y, level := na.level, filePath := ⟨y⟩ } }
      else if y = nb.id then { u.cell y with
        node := some nb, record := some { id := y, level := nb.level, filePath := ⟨y⟩ } }
      else u.cell y) : Halved w u' x na nb := by
  have hxa : x ≠ na.id := D.id_a ▸ hx.ne
  have hxb : x ≠ nb.id := D.id_b ▸ (hx.trans (Nat.lt_succ_self _)).ne
  have hba : nb.id ≠ na.id := by
    rw [D.id_a, D.id_b]
    exact (Nat.lt_succ_self _).ne'
  refine ⟨D.id_a, D.id_b, hrest.trans (by rw [hrest]; exact D.rest), fun h => ?_, ?_, ?_, ?_,
    fun y hyx hya hyb => ?_⟩
  · rw [hrest]
    exact D.exposed h
  · rw [hcell, if_pos rfl, D.other x hxa hxb]
  · obtain ⟨n₀, h₀, hfile⟩ := D.file_a
    exact ⟨n₀, h₀, by rw [hcell, if_neg hxa.symm, if_pos rfl, ← hfile]⟩
  · obtain ⟨n₀, h₀, hfile⟩ := D.file_b
    exact ⟨n₀, h₀, by rw [hcell, if_neg hxb.symm, if_neg hba, if_pos rfl, ← hfile]⟩
  · rw [hcell, if_neg hyx, if_neg hya, if_neg hyb, D.other y hya hyb]

/-- The files of two inner nodes over given children. -/
theorem draft_runs {w₀ w : World} {d : Prop} (S : w₀.tree.Sound)
    (hn : w₀.rest.next ≤ w.rest.next) (h : d → Going w₀ w) {level : Nat} {L R : List Entry} {kl kr : List NodeId} {α : Type}
    {k : NodeId → NodeId → SSTNode → SSTNode → M α} {Q : α → World → Prop}
    (hl : kl ≠ [] ∧ kl.length ≤ maxFanout ∧ ∀ c ∈ kl, ∃ m, w.view c = some m)
    (hr : kr ≠ [] ∧ kr.length ≤ maxFanout ∧ ∀ c ∈ kr, ∃ m, w.view c = some m)
    (hk : ∀ u, (d → Going w₀ u) →
      Drafted w u (spanning w.rest.sizing w.view w.rest.next level L kl)
        (spanning w.rest.sizing w.view (w.rest.next + 1) level R kr) →
      Act.Spec (k w.rest.next (w.rest.next + 1)
        (spanning w.rest.sizing w.view w.rest.next level L kl)
        (spanning w.rest.sizing w.view (w.rest.next + 1) level R kr)) u Q
        (Stopped fun v => d → Halt w₀ v)) :
    Act.Spec (nextNodeId >>= fun a => nextNodeId >>= fun b =>
      SSTNode.create a level L kl >>= fun ln => SSTNode.create b level R kr >>= fun rn =>
      spanKeyRange ln >>= fun lr => spanKeyRange rn >>= fun rr =>
      SSTNode.flushToDisk { ln with keyRange := lr } >>= fun ln =>
      SSTNode.flushToDisk { rn with keyRange := rr } >>= fun rn => k a b ln rn) w Q
      (Stopped fun v => d → Halt w₀ v) := by
  have hE : ∀ (s : Stop) u, (d → Going w₀ u) →
      Stopped (fun v => d → Halt w₀ v) (.stopped s) u :=
    fun s u hu => ⟨⟨s, rfl⟩, fun hd => (hu hd).halt⟩
  have hfresh : w₀.rest.next ≤ w.rest.next + 1 := hn.trans (Nat.le_succ _)
  obtain ⟨ca, hca⟩ : ∃ m, m = created w.rest.sizing w.rest.next level L kl := ⟨_, rfl⟩
  obtain ⟨cb, hcb⟩ : ∃ m, m = created w.rest.sizing (w.rest.next + 1) level R kr := ⟨_, rfl⟩
  obtain ⟨w₁, hw₁⟩ : ∃ v, v = w.takeId.takeId.renamed
    (SSTNode.build w.rest.sizing w.rest.next level L kl) := ⟨_, rfl⟩
  obtain ⟨w₂, hw₂⟩ : ∃ v, v = w₁.renamed
    (SSTNode.build w.rest.sizing (w.rest.next + 1) level R kr) := ⟨_, rfl⟩
  have hG : d → Going w₀ w.takeId.takeId := fun hd => (h hd).takeId.takeId
  have hG₁ : d → Going w₀ w₁ := fun hd => hw₁ ▸ (hG hd).renamed S hn
  have hG₂ : d → Going w₀ w₂ := fun hd => hw₂ ▸ (hG₁ hd).renamed S hfresh
  have hsame : ∀ (v : World) m y, ((v.renamed m).cell y).node = (v.cell y).node ∧
      ((v.renamed m).cell y).record = (v.cell y).record := by
    intro v m y
    rw [World.cell_renamed]
    split <;> exact ⟨rfl, rfl⟩
  have hview₂ : w₂.view = w.view := by
    funext y
    show (w₂.cell y).node = _
    rw [hw₂, (hsame _ _ y).1, hw₁, (hsame _ _ y).1]
    rfl
  have hsize₁ : w₁.rest.sizing = w.rest.sizing := by rw [hw₁]; rfl
  have hsize₂ : w₂.rest.sizing = w.rest.sizing := by rw [hw₂]; exact hsize₁
  obtain ⟨w₃, hw₃⟩ : ∃ v, v = w₂.renamed
    (SSTNode.prepare w.rest.sizing { ca with keyRange := w.view.span ca }) := ⟨_, rfl⟩
  have hG₃ : d → Going w₀ w₃ := fun hd => by
    rw [hw₃]
    refine (hG₂ hd).renamed S ?_
    rw [prepare_id, hca]
    exact hn
  have hsize₃ : w₃.rest.sizing = w.rest.sizing := by rw [hw₃]; exact hsize₂
  obtain ⟨w₄, hw₄⟩ : ∃ v, v = w₃.renamed
    (SSTNode.prepare w.rest.sizing { cb with keyRange := w.view.span cb }) := ⟨_, rfl⟩
  have hG₄ : d → Going w₀ w₄ := fun hd => by
    rw [hw₄]
    refine (hG₃ hd).renamed S ?_
    rw [prepare_id, hcb]
    exact hfresh
  have hka : ca.childIds = kl := by rw [hca]; exact created_childIds _ _ _ _ _ hl.2.1
  have hkb : cb.childIds = kr := by rw [hcb]; exact created_childIds _ _ _ _ _ hr.2.1
  -- the code
  refine nextNodeId_runs.spec_bind hE (nextNodeId_runs.spec_bind hE ?_)
  refine (create_runs hG).spec_bind hE ?_
  rw [show created w.takeId.takeId.rest.sizing w.rest.next level L kl = ca from hca.symm,
    show w.takeId.takeId.renamed (SSTNode.build w.takeId.takeId.rest.sizing w.rest.next level L kl) =
      w₁ from hw₁.symm]
  refine (create_runs hG₁).spec_bind hE ?_
  rw [hsize₁, show created w.rest.sizing w.takeId.rest.next level R kr = cb from hcb.symm,
    show w₁.renamed (SSTNode.build w.rest.sizing w.takeId.rest.next level R kr) = w₂ from hw₂.symm]
  refine (spanKeyRange_reads (hka ▸ hl.1) fun c hc => ?_).spec_bind ?_
  · rw [hka] at hc
    rw [← World.view, hview₂]
    exact hl.2.2 c hc
  refine (spanKeyRange_reads (hkb ▸ hr.1) fun c hc => ?_).spec_bind ?_
  · rw [hkb] at hc
    rw [← World.view, hview₂]
    exact hr.2.2 c hc
  refine (flushToDisk_runs hG₂).spec_bind hE ?_
  rw [hview₂, hsize₂, ← hw₃]
  refine (flushToDisk_runs hG₃).spec_bind hE ?_
  rw [hsize₃, ← hw₄]
  have hD : Drafted w w₄ (flushed w.rest.sizing { ca with keyRange := w.view.span ca })
      (flushed w.rest.sizing { cb with keyRange := w.view.span cb }) := by
    have hida : ca.id = w.rest.next := by rw [hca]; rfl
    have hidb : cb.id = w.rest.next + 1 := by rw [hcb]; rfl
    have hab : w.rest.next ≠ w.rest.next + 1 := (Nat.lt_succ_self _).ne
    refine ⟨hida, hidb, ?_, ?_, ⟨_, rfl, ?_⟩, ⟨_, rfl, ?_⟩, fun y => ?_, fun y => ?_,
      fun y hya hyb => ?_⟩
    · rw [hw₄, hw₃, hw₂, hw₁]
      rfl
    · intro he
      rw [hw₄, hw₃, hw₂, hw₁]
      exact (((Exposed.rename he _ _).rename _ _).rename _ _).rename _ _
    · rw [flushed_id, hw₄, World.cell_renamed, prepare_id, if_neg (by rw [hida, hidb]; exact hab),
        hw₃, World.cell_renamed, prepare_id, if_pos rfl]
    · rw [flushed_id, hw₄, World.cell_renamed, prepare_id, if_pos rfl]
    · rw [hw₄, (hsame _ _ y).1, hw₃, (hsame _ _ y).1]
      exact congrFun hview₂ y
    · rw [hw₄, (hsame _ _ y).2, hw₃, (hsame _ _ y).2, hw₂, (hsame _ _ y).2, hw₁, (hsame _ _ y).2]
      rfl
    · rw [flushed_id] at hya hyb
      rw [hw₄, World.cell_renamed, prepare_id, if_neg hyb, hw₃, World.cell_renamed, prepare_id,
        if_neg hya, hw₂, World.cell_renamed, build_id, if_neg (hidb ▸ hyb), hw₁,
        World.cell_renamed, build_id, if_neg (hida ▸ hya)]
      rfl
  rw [hca, hcb] at hD ⊢
  exact hk w₄ hG₄ hD

namespace Halved

variable {w₀ w u : World} {x : NodeId} {na nb : SSTNode} {lag : Option NodeId}

theorem filed (K : Halved w u x na nb) (F : Filed w lag) (hlag : ∀ y, lag = some y → y = x)
    (ha : na.childIds.length ≤ maxFanout) (hb : nb.childIds.length ≤ maxFanout) :
    Filed u none := by
  have hnext : u.rest.next = w.rest.next + 2 := by rw [K.rest]
  rw [filed_iff] at F ⊢
  intro y
  by_cases hx : y = x
  · subst hx
    rw [K.at_x]
    exact ((F y).mono (by rw [hnext]; exact Nat.le_add_right ..)).dropped none
  by_cases hya : y = na.id
  · obtain ⟨n₀, h₀, hcell⟩ := K.at_a
    rw [hya, hcell]
    refine .written ha (by rw [← h₀]; rfl) (by rw [← h₀]; rfl) h₀ ?_
    rw [K.id_a, hnext]
    exact Nat.lt_add_of_pos_right (by decide)
  by_cases hyb : y = nb.id
  · obtain ⟨n₀, h₀, hcell⟩ := K.at_b
    rw [hyb, hcell]
    refine .written hb (by rw [← h₀]; rfl) (by rw [← h₀]; rfl) h₀ ?_
    rw [K.id_b, hnext]
    exact Nat.lt_succ_self _
  · rw [K.other y hx hya hyb]
    exact ((F y).mono (by rw [hnext]; exact Nat.le_add_right ..)).settled
      (fun h => hx (hlag y h)) none

/-- Only unlisted files were written, and they are listed now. -/
theorem mid (K : Halved w u x na nb) (S : w₀.tree.Sound)
    (hn : w₀.rest.next ≤ w.rest.next) (B : Backed w₀ w) : Mid w₀ u where
  toBacked := by
    refine B.step S (fun y hy => ?_) (by rw [K.rest]) K.exposed
    have hya : y ≠ na.id := K.id_a ▸ (lt_of_lt_of_le hy hn).ne
    have hyb : y ≠ nb.id := K.id_b ▸ (lt_of_lt_of_le hy (hn.trans (Nat.le_succ _))).ne
    by_cases hyx : y = x
    · rw [hyx, K.at_x]
    · rw [K.other y hyx hya hyb]
  dirty := by
    obtain ⟨n₀, -, hcell⟩ := K.at_a
    refine ⟨na.id, K.id_a ▸ hn, ?_⟩
    rw [hcell]
    exact ⟨_, rfl, rfl⟩

theorem view (K : Halved w u x na nb) {y : NodeId} (hx : y ≠ x) (ha : y ≠ na.id)
    (hb : y ≠ nb.id) : u.view y = w.view y := by
  show (u.cell y).node = _
  rw [K.other y hx ha hb]
  rfl

theorem view_old (K : Halved w u x na nb) {y : NodeId} (hx : y ≠ x) (hlt : y < w.rest.next) :
    u.view y = w.view y :=
  K.view hx (K.id_a ▸ hlt.ne) (K.id_b ▸ (hlt.trans (Nat.lt_succ_self _)).ne)

theorem view_a (K : Halved w u x na nb) : u.view na.id = some na := by
  obtain ⟨n₀, -, hcell⟩ := K.at_a
  show (u.cell na.id).node = _
  rw [hcell]

theorem view_b (K : Halved w u x na nb) : u.view nb.id = some nb := by
  obtain ⟨n₀, -, hcell⟩ := K.at_b
  show (u.cell nb.id).node = _
  rw [hcell]

theorem view_x (K : Halved w u x na nb) : u.view x = none := by
  show (u.cell x).node = _
  rw [K.at_x]

end Halved

/-! ## A new root -/

theorem two_le_maxFanout : 2 ≤ maxFanout := by decide

/-- A new root over `a` and `b` was written, listed and put into the cache. -/
structure Grown (w u : World) (level a b : Nat) : Prop where
  rest : u.rest = { w.rest with
    root := w.rest.next, next := w.rest.next + 1, effects := u.rest.effects }
  exposed : Exposed w.rest.effects → Exposed u.rest.effects
  at_root : ∃ r n₀, r.id = w.rest.next ∧ r.level = level ∧ r.childIds = [a, b] ∧ r.buffer = [] ∧
    n₀.loaded = r ∧ u.cell w.rest.next =
      ⟨some r, some { id := w.rest.next, level, filePath := ⟨w.rest.next⟩ }, some n₀⟩
  other : ∀ y, y ≠ w.rest.next → u.cell y = w.cell y

namespace Grown

variable {w₀ w u : World} {level a b : Nat}

theorem filed (K : Grown w u level a b) (F : Filed w none) : Filed u none := by
  have hnext : u.rest.next = w.rest.next + 1 := by rw [K.rest]
  rw [filed_iff] at F ⊢
  intro y
  by_cases hy : y = w.rest.next
  · obtain ⟨r, n₀, hid, -, hk, -, h₀, hcell⟩ := K.at_root
    rw [hy, hcell]
    refine .written (by rw [hk]; exact two_le_maxFanout) ?_ (by rw [← h₀]; rfl) h₀ ?_
    · rw [← hid, ← h₀]
      rfl
    · rw [hnext]
      exact Nat.lt_succ_self _
  · rw [K.other y hy, hnext]
    exact (F y).mono (Nat.le_succ _)

theorem mid (K : Grown w u level a b) (S : w₀.tree.Sound) (hn : w₀.rest.next ≤ w.rest.next)
    (M : Mid w₀ w) : Mid w₀ u := by
  refine M.step S (fun y _ hv => ?_) (fun y hy => ?_) (by rw [K.rest]) K.exposed
  · by_cases hyr : y = w.rest.next
    · obtain ⟨r, n₀, -, -, -, -, -, hcell⟩ := K.at_root
      rw [hyr, hcell]
      exact ⟨_, rfl, rfl⟩
    · rwa [K.other y hyr]
  · rw [K.other y (lt_of_lt_of_le hy hn).ne]

theorem view (K : Grown w u level a b) {y : NodeId} (hy : y ≠ w.rest.next) :
    u.view y = w.view y := by
  show (u.cell y).node = _
  rw [K.other y hy]
  rfl

end Grown

theorem growRoot_runs {w₀ w : World} {d : Prop} {l a b : Nat} {na nb : SSTNode}
    (S : w₀.tree.Sound) (hn : w₀.rest.next ≤ w.rest.next) (ha : w.view a = some na)
    (hb : w.view b = some nb) (h : d → Going w₀ w) :
    ∃ u, Act.Runs (growRoot l a b) w () u (fun v => d → Going w₀ v) ∧ Grown w u l a b := by
  obtain ⟨r, hr⟩ : ∃ r, r = created w.rest.sizing w.rest.next l [] [a, b] := ⟨_, rfl⟩
  have hkids : r.childIds = [a, b] := by
    rw [hr]
    exact created_childIds _ _ _ _ _ two_le_maxFanout
  obtain ⟨w₁, hw₁⟩ : ∃ v, v = w.takeId.renamed
    (SSTNode.build w.rest.sizing w.rest.next l [] [a, b]) := ⟨_, rfl⟩
  have hG : d → Going w₀ w.takeId := fun hd => (h hd).takeId
  have hG₁ : d → Going w₀ w₁ := fun hd => hw₁ ▸ (hG hd).renamed S hn
  have hnode₁ : ∀ y, (w₁.cell y).node = w.view y := by
    intro y
    rw [hw₁, World.cell_renamed]
    split <;> rfl
  obtain ⟨q, hq⟩ : ∃ q, q = flushed w.rest.sizing { r with keyRange := w₁.view.span r } := ⟨_, rfl⟩
  refine ⟨(((w₁.renamed (SSTNode.prepare w.rest.sizing { r with
      keyRange := w₁.view.span r })).registerNode w.rest.next l ⟨w.rest.next⟩).setRoot
      w.rest.next).setNode w.rest.next q, ?_, ?_⟩
  · unfold growRoot
    refine Act.Runs.bind nextNodeId_runs (Act.Runs.bind (create_runs hG) ?_)
    rw [show created w.takeId.rest.sizing w.rest.next l [] [a, b] = r from hr.symm]
    show Act.Runs _ (w.takeId.renamed (SSTNode.build w.rest.sizing w.rest.next l [] [a, b])) _ _ _
    rw [← hw₁]
    refine Act.Reads.bind (spanKeyRange_reads (by simp [hkids]) fun c hc => ?_) ?_
    · rw [hkids] at hc
      rw [hnode₁]
      rcases List.mem_pair.mp hc with rfl | rfl
      · exact ⟨na, ha⟩
      · exact ⟨nb, hb⟩
    refine Act.Runs.bind (flushToDisk_runs hG₁) ?_
    have hs : w₁.rest.sizing = w.rest.sizing := by rw [hw₁]; rfl
    rw [hs, ← hq]
    have hpath : q.filePath = ⟨w.rest.next⟩ := by rw [hq, hr]; rfl
    rw [hpath]
    exact Act.Runs.update_bind (Act.Runs.update_bind (Act.Runs.update _ _))
  · obtain ⟨hid, hlev, hbuf⟩ : r.id = w.rest.next ∧ r.level = l ∧ r.buffer = [] := by
      rw [hr]
      exact ⟨rfl, rfl, rfl⟩
    have hcell₁ : ∀ y, y ≠ w.rest.next → w₁.cell y = w.cell y := fun y hy => by
      rw [hw₁, World.cell_renamed, build_id, if_neg hy, World.cell_takeId]
    have hrest₁ : w₁.rest = { w.rest with
        next := w.rest.next + 1, effects := w₁.rest.effects } := by rw [hw₁]; rfl
    refine ⟨?_, ?_, ⟨q, SSTNode.prepare w.rest.sizing { r with keyRange := w₁.view.span r },
      ?_, ?_, ?_, ?_, ?_, ?_⟩, fun y hy => ?_⟩
    · simp only [World.rest_setNode, World.rest_setRoot, World.rest_registerNode,
        World.rest_renamed]
      rw [hrest₁]
    · intro he
      have h₁ : Exposed w₁.rest.effects := by
        rw [hw₁]
        exact Exposed.rename he _ _
      exact h₁.rename _ _
    · rw [hq]
      exact hid
    · rw [hq]
      exact hlev
    · rw [hq]
      exact hkids
    · rw [hq, flushed_buffer]
      show sortBuffer r.buffer = []
      rw [hbuf]
      rfl
    · exact hq.symm
    · simp [hid]
    · simp [hy, hid, hcell₁ y hy]

end GravTree
