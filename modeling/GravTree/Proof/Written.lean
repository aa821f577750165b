import GravTree.Proof.Commit

/-!
# Written nodes

The nodes that `create` and `flush_to_disk` leave, what becomes of their ranges, and
what writing a cached node does to the world.
-/

namespace GravTree

section Fields

variable (sizing : Sizing) (id level : Nat) (es : List Entry) (cs : List NodeId) (n : SSTNode)

@[simp] theorem created_id : (created sizing id level es cs).id = id := rfl

@[simp] theorem created_level : (created sizing id level es cs).level = level := rfl

@[simp] theorem created_buffer : (created sizing id level es cs).buffer = sortBuffer es := rfl

@[simp] theorem created_filePath : (created sizing id level es cs).filePath = ⟨id⟩ := rfl

@[simp] theorem created_entriesLoaded :
    (created sizing id level es cs).entriesLoaded = true := rfl

theorem created_childIds (h : cs.length ≤ maxFanout) :
    (created sizing id level es cs).childIds = cs := by
  show cs.take (min cs.length maxFanout) = cs
  rw [Nat.min_eq_left h, List.take_length]

@[simp] theorem build_id : (SSTNode.build sizing id level es cs).id = id := rfl

@[simp] theorem build_loaded :
    (SSTNode.build sizing id level es cs).loaded = created sizing id level es cs := rfl

@[simp] theorem flushed_id : (flushed sizing n).id = n.id := rfl

@[simp] theorem flushed_level : (flushed sizing n).level = n.level := rfl

@[simp] theorem flushed_childIds : (flushed sizing n).childIds = n.childIds := rfl

@[simp] theorem flushed_buffer : (flushed sizing n).buffer = sortBuffer n.buffer := rfl

@[simp] theorem flushed_filePath : (flushed sizing n).filePath = ⟨n.id⟩ := rfl

@[simp] theorem flushed_entriesLoaded : (flushed sizing n).entriesLoaded = true := rfl

@[simp] theorem prepare_id : (n.prepare sizing).id = n.id := rfl

@[simp] theorem prepare_loaded : (n.prepare sizing).loaded = flushed sizing n := rfl

@[simp] theorem loaded_id : n.loaded.id = n.id := rfl

theorem leafFenced_created : LeafFenced (created sizing id level es cs) := by
  show (SSTNode.build sizing id level es cs).keyRange.minKey =
    (sortBuffer es).head?.elim .empty (·.key)
  cases hb : sortBuffer es with
  | nil => simp [SSTNode.build, SSTNode.buildBloom, hb]
  | cons e es => simp [SSTNode.build, SSTNode.buildBloom, hb, List.getLast?_cons]

theorem created_maxKey (h : es ≠ []) : ∃ e ∈ (created sizing id level es cs).buffer,
    e.key = (created sizing id level es cs).keyRange.maxKey := by
  obtain ⟨e, es', hb⟩ := List.exists_cons_of_ne_nil fun h' => h (sortBuffer_eq_nil.mp h')
  have hmax : (created sizing id level es cs).keyRange.maxKey =
      ((e :: es').getLast (List.cons_ne_nil e es')).key := by
    show (SSTNode.build sizing id level es cs).keyRange.maxKey = _
    simp only [SSTNode.build, SSTNode.buildBloom, hb, List.head?_cons,
      List.getLast?_eq_some_getLast (List.cons_ne_nil e es')]
  refine ⟨_, ?_, hmax.symm⟩
  rw [created_buffer, hb]
  exact List.getLast_mem _

end Fields

/-- What `flush_to_disk` makes of the minimum. -/
theorem flushed_minKey (sizing : Sizing) (n : SSTNode) :
    (flushed sizing n).keyRange.minKey = match (sortBuffer n.buffer).head? with
      | some front =>
        if n.keyRange.minKey = .empty ∨ front.key < n.keyRange.minKey then front.key
        else n.keyRange.minKey
      | none => n.keyRange.minKey := by
  show (SSTNode.expandRange n.keyRange (sortBuffer n.buffer)).minKey = _
  unfold SSTNode.expandRange
  cases hb : sortBuffer n.buffer with
  | nil => rfl
  | cons e es => simp [List.getLast?_cons]

/-- Either the minimum stays, or the smallest key takes its place because it is smaller
or there was none. -/
theorem flushed_minKey_cases (sizing : Sizing) (n : SSTNode) :
    (flushed sizing n).keyRange.minKey = n.keyRange.minKey ∨
      ∃ e ∈ (flushed sizing n).buffer, e.key = (flushed sizing n).keyRange.minKey ∧
        (n.keyRange.minKey = .empty ∨ e.key < n.keyRange.minKey) := by
  rw [flushed_minKey, flushed_buffer]
  cases hb : sortBuffer n.buffer with
  | nil => exact .inl rfl
  | cons e es =>
    simp only [List.head?_cons]
    split
    · rename_i h
      exact .inr ⟨e, by simp, rfl, h⟩
    · exact .inl rfl

/-- A node whose range spans its children, written again. -/
theorem fenced_flushed (sizing : Sizing) {v : View} {n : SSTNode}
    (h : n.keyRange.minKey = v.headMin n) : Fenced v (flushed sizing n) (v.headMin n) := by
  have hh : v.headMin (flushed sizing n) = v.headMin n := rfl
  rcases flushed_minKey_cases sizing n with hm | ⟨e, he, hk, hlt⟩
  · exact ⟨.inl (by rw [hm, h, hh]), fun _ _ _ => by rw [hm, h, hh]⟩
  · refine ⟨.inr (.inr ⟨e, he, hk⟩), fun _ hne hall => ?_⟩
    rcases hlt with h0 | hlt
    · exact absurd (h.symm.trans h0) hne
    · exact absurd (hall e he) (not_le_of_gt (h ▸ hlt))

/-- Every way of computing a child's maximum yields an older maximum, one of its keys or
the maximum of its last child. -/
def Capped (v : View) (n : SSTNode) (old : Bytes) : Prop :=
  n.keyRange.maxKey = old ∨ (∃ e ∈ n.buffer, e.key = n.keyRange.maxKey) ∨
    n.childIds ≠ [] ∧ n.keyRange.maxKey = v.maxKey (n.childIds.getLastD invalidNodeId)

/-- Either the maximum stays, or it is the largest key. -/
theorem flushed_maxKey_cases (sizing : Sizing) (n : SSTNode) :
    (flushed sizing n).keyRange.maxKey = n.keyRange.maxKey ∨
      ∃ e ∈ (flushed sizing n).buffer, e.key = (flushed sizing n).keyRange.maxKey := by
  have hmax : (flushed sizing n).keyRange.maxKey =
      (SSTNode.expandRange n.keyRange (sortBuffer n.buffer)).maxKey := rfl
  rw [hmax, flushed_buffer]
  unfold SSTNode.expandRange
  cases hb : sortBuffer n.buffer with
  | nil => exact .inl rfl
  | cons e es =>
    rw [List.head?_cons, List.getLast?_eq_some_getLast (List.cons_ne_nil e es)]
    dsimp only
    split
    · exact .inr ⟨_, List.getLast_mem _, rfl⟩
    · exact .inl rfl

/-- `do_flush`'s rule for an internal child: widen the range to the children's. -/
def widen (r s : KeyRange) : KeyRange where
  minKey := if r.minKey = .empty ∨ s.minKey < r.minKey then s.minKey else r.minKey
  maxKey := if r.maxKey = .empty ∨ r.maxKey < s.maxKey then s.maxKey else r.maxKey

/-- What `refreshChild` makes of a child. -/
def refreshed (sizing : Sizing) (v : View) (c : SSTNode) : SSTNode :=
  if c.childIds ≠ [] then flushed sizing { c with keyRange := widen c.keyRange (v.span c) } else c

section Refreshed

variable (sizing : Sizing) (v : View) (c : SSTNode)

theorem refreshed_of_kids {c : SSTNode} (h : c.childIds ≠ []) : refreshed sizing v c =
    flushed sizing { c with keyRange := widen c.keyRange (v.span c) } := if_pos h

theorem refreshed_of_leaf {c : SSTNode} (h : c.childIds = []) : refreshed sizing v c = c :=
  if_neg (not_not_intro h)

@[simp] theorem refreshed_id : (refreshed sizing v c).id = c.id := by
  unfold refreshed
  split <;> rfl

@[simp] theorem refreshed_level : (refreshed sizing v c).level = c.level := by
  unfold refreshed
  split <;> rfl

@[simp] theorem refreshed_childIds : (refreshed sizing v c).childIds = c.childIds := by
  unfold refreshed
  split <;> rfl

theorem refreshed_buffer {c : SSTNode} (h : UniqueKeys c.buffer) :
    (refreshed sizing v c).buffer = c.buffer := by
  unfold refreshed
  split
  · exact sortBuffer_eq_self h
  · rfl

theorem capped_refreshed : Capped v (refreshed sizing v c) c.keyRange.maxKey := by
  by_cases h : c.childIds = []
  · rw [refreshed_of_leaf sizing v h]
    exact .inl rfl
  · rw [refreshed_of_kids sizing v h]
    rcases flushed_maxKey_cases sizing { c with keyRange := widen c.keyRange (v.span c) } with
      hm | hm
    · rw [Capped, hm]
      unfold widen
      dsimp only
      split
      · exact .inr (.inr ⟨h, rfl⟩)
      · exact .inl rfl
    · exact .inr (.inl hm)

/-- A node that was just made is capped by its largest key. -/
theorem capped_refreshed_made {c : SSTNode} (hu : UniqueKeys c.buffer)
    (h : ∃ e ∈ c.buffer, e.key = c.keyRange.maxKey) (old : Bytes) :
    Capped v (refreshed sizing v c) old := by
  rcases capped_refreshed sizing v c with hm | hm
  · rw [Capped, hm, refreshed_buffer sizing v hu]
    exact .inr (.inl h)
  · exact .inr hm

/-- An internal child that is kept. -/
theorem fenced_refreshed {c : SSTNode} (h : c.childIds ≠ []) :
    Fenced v (refreshed sizing v c) c.keyRange.minKey := by
  rw [refreshed_of_kids sizing v h]
  have hh : v.headMin (flushed sizing { c with keyRange := widen c.keyRange (v.span c) }) =
    v.headMin c := rfl
  have hw : (widen c.keyRange (v.span c)).minKey = v.headMin c ∨
      (widen c.keyRange (v.span c)).minKey = c.keyRange.minKey := by
    unfold widen
    dsimp only
    split
    · exact .inl rfl
    · exact .inr rfl
  rcases flushed_minKey_cases sizing { c with keyRange := widen c.keyRange (v.span c) } with
    hm | ⟨e, he, hk, hlt⟩
  · refine ⟨?_, fun ho _ _ => ?_⟩
    · rw [hm, hh]
      exact hw.imp_right .inl
    · rw [hm, hh]
      rw [hh] at ho
      exact hw.elim id (·.trans ho)
  · refine ⟨.inr (.inr ⟨e, he, hk⟩), fun ho hne hall => ?_⟩
    rw [hh] at ho hne hall
    have hw' : (widen c.keyRange (v.span c)).minKey = v.headMin c := hw.elim id (·.trans ho)
    rcases hlt with h0 | hlt
    · exact absurd (hw'.symm.trans h0) hne
    · exact absurd (hall e he) (not_le_of_gt (hw' ▸ hlt))

/-- An internal child that was just made from entries. -/
theorem fenced_refreshed_made {c : SSTNode} (hne : c.buffer ≠ []) (hu : UniqueKeys c.buffer)
    (hleaf : LeafFenced c) (h : c.childIds ≠ []) :
    Fenced v (refreshed sizing v c) (v.headMin c) := by
  have hF := fenced_refreshed sizing v h
  have hb := refreshed_buffer sizing v hu
  have hh : v.headMin (refreshed sizing v c) = v.headMin c := by
    rw [refreshed_of_kids sizing v h]
    rfl
  -- its minimum is its smallest key
  obtain ⟨e, es', hes⟩ := List.exists_cons_of_ne_nil hne
  have hmin : c.keyRange.minKey = e.key := by rw [hleaf, hes]; rfl
  refine ⟨?_, fun _ h0 hall => ?_⟩
  · rcases hF.cases with hc | hc | hc
    · exact .inl hc
    · exact .inr (.inr ⟨e, by rw [hb, hes]; simp, by rw [hc, hmin]⟩)
    · exact .inr (.inr hc)
  · have hle : v.headMin c ≤ c.keyRange.minKey := by
      rw [hmin, ← hh]
      exact hall e (by rw [hb, hes]; simp)
    rcases eq_or_lt_of_le hle with heq | hlt
    · exact hF.head (heq.symm.trans hh.symm) h0 hall
    · rw [hh, refreshed_of_kids sizing v h]
      have hw : (widen c.keyRange (v.span c)).minKey = v.headMin c := if_pos (.inr hlt)
      refine (fenced_flushed sizing hw).head rfl (hh ▸ h0) fun e' he' => ?_
      rw [refreshed_of_kids sizing v h] at hall hh
      exact hall e' he'

end Refreshed

/-! ## Writing a cached node -/

/-- A cached node written again and registered. -/
def World.rewrite (w : World) (x : NodeId) (n : SSTNode) : World :=
  (((w.modifyNode x (·.prepare w.rest.sizing)).renamed (n.prepare w.rest.sizing)).modifyNode x
    fun m => { m with filePath := ⟨n.id⟩, entriesLoaded := true }).registerNode n.id n.level ⟨n.id⟩

section Rewrite

variable {w w₀ : World} {x : NodeId} {n : SSTNode} {H : World → Prop}

theorem cell_rewrite (hx : (w.cell x).node = some n) (hid : n.id = x) (y : NodeId) :
    (w.rewrite x n).cell y = if y = x then
      { node := some (flushed w.rest.sizing n)
        record := some { id := x, level := n.level, filePath := ⟨x⟩ }
        file := some (n.prepare w.rest.sizing) }
    else w.cell y := by
  subst hid
  unfold World.rewrite
  by_cases hy : y = n.id
  · subst hy
    simp [hx]
    rfl
  · simp [hy]

theorem rest_rewrite (hid : n.id = x) : (w.rewrite x n).rest = { w.rest with
    effects := .rename (w.cell x).file (n.prepare w.rest.sizing) :: w.rest.effects } := by
  unfold World.rewrite
  simp [hid]

theorem flushNode_runs (hx : (w.cell x).node = some n)
    (h : H (w.modifyNode x (·.prepare w.rest.sizing))) :
    Act.Runs (flushNode x) w () (((w.modifyNode x (·.prepare w.rest.sizing)).renamed
      (n.prepare w.rest.sizing)).modifyNode x
        fun m => { m with filePath := ⟨n.id⟩, entriesLoaded := true }) H := by
  have hx' : ((w.modifyNode x (·.prepare w.rest.sizing)).cell x).node =
      some (n.prepare w.rest.sizing) := by
    simp [hx]
  exact Act.Runs.world_bind (Act.Runs.update_bind (Act.Reads.bind (getNode_reads hx')
    (Act.Runs.bind (writeFile_runs h) (Act.Runs.update _ _))))

theorem registerCached_runs (hx : (w.cell x).node = some n) :
    Act.Runs (registerCached x) w () (w.registerNode n.id n.level n.filePath) H :=
  Act.Reads.bind (getNode_reads hx) (Act.Runs.update _ _)

theorem node_written (hx : (w.cell x).node = some n) (hid : n.id = x) :
    (((((w.modifyNode x (·.prepare w.rest.sizing)).renamed
      (n.prepare w.rest.sizing)).modifyNode x
        fun m => { m with filePath := ⟨n.id⟩, entriesLoaded := true })).cell x).node =
      some (flushed w.rest.sizing n) := by
  subst hid
  simp [hx]
  rfl

theorem rewrite_runs (hx : (w.cell x).node = some n) (hid : n.id = x)
    (h : H (w.modifyNode x (·.prepare w.rest.sizing))) :
    Act.Runs (flushNode x >>= fun _ => registerCached x) w () (w.rewrite x n) H :=
  Act.Runs.bind (flushNode_runs hx h) (registerCached_runs (node_written hx hid))

theorem rewrite_bind {α : Type} {k : Unit → M α} {Q : α → World → Prop} {E : Exc → World → Prop}
    (hx : (w.cell x).node = some n) (hid : n.id = x)
    (hE : ∀ s, E (.stopped s) (w.modifyNode x (·.prepare w.rest.sizing)))
    (hk : Act.Spec (k ()) (w.rewrite x n) Q E) :
    Act.Spec (flushNode x >>= fun _ => registerCached x >>= k) w Q E := by
  refine (flushNode_runs hx (H := (· = _)) rfl).spec_bind (fun s u hu => hu ▸ hE s) ?_
  exact (registerCached_runs (H := fun _ => False) (node_written hx hid)).spec_bind
    (fun _ _ => False.elim) hk

/-- Writing over a file with other children exposes the directory. -/
theorem mid_rewrite (M : Mid w₀ w) (hx : (w.cell x).node = some n) (hid : n.id = x)
    {n₀ : SSTNode} (hfile : (w.cell x).file = some n₀) (hne : n₀.childIds ≠ n.childIds) :
    Mid w₀ (w.rewrite x n) where
  stored := by rw [rest_rewrite hid]; exact M.stored
  files := by
    rw [rest_rewrite hid, hfile]
    exact .inl (.inl hne)
  dirty := by
    obtain ⟨y, hy, hv⟩ := M.dirty
    refine ⟨y, hy, ?_⟩
    rw [Cell.Valid, cell_rewrite hx hid]
    split
    · exact ⟨_, rfl, rfl⟩
    · exact hv

end Rewrite

end GravTree
