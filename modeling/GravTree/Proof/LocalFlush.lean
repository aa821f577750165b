import GravTree.Proof.Written

/-!
# The loops of a push

`local_flush` replaces every child that receives entries, and `do_flush` then puts
the children into the cache, widening the ranges of internal ones. Both loops run
inside a restructuring: what was on disk when it began is still there.
-/

namespace GravTree

/-! ## Replacing children -/

/-- The node that takes the place of `c` when it receives `part`. -/
def spawned (w : World) (c : SSTNode) (part : List Entry) : SSTNode :=
  SSTNode.build w.rest.sizing w.rest.next c.level (mergeSortedEntries part c.buffer) c.childIds

/-- It is written and registered, and `c` is invalidated. -/
def World.spawn (w : World) (c : SSTNode) (part : List Entry) : World :=
  ((w.takeId.renamed (spawned w c part)).registerNode w.rest.next c.level
    ⟨w.rest.next⟩).invalidateNode c.id

section Spawn

variable {w w₀ : World} {c : SSTNode} {part : List Entry}

theorem cell_spawn (hc : c.id < w.rest.next) (x : NodeId) : (w.spawn c part).cell x =
    if x = c.id then { w.cell x with record := (w.cell x).record.map ({ · with valid := false }) }
    else if x = w.rest.next then { w.cell x with
      record := some { id := x, level := c.level, filePath := ⟨x⟩ }
      file := some (spawned w c part) }
    else w.cell x := by
  have hne : w.rest.next ≠ c.id := hc.ne'
  unfold World.spawn
  simp only [World.cell_invalidateNode, World.cell_registerNode, World.cell_renamed,
    World.cell_takeId, spawned, build_id]
  by_cases hxc : x = c.id
  · subst hxc
    simp [hne.symm]
  · by_cases hxn : x = w.rest.next
    · subst hxn
      simp [hne]
    · simp [hxc, hxn]

theorem rest_spawn : (w.spawn c part).rest = { w.rest with
    next := w.rest.next + 1
    effects := .rename (w.cell w.rest.next).file (spawned w c part) :: w.rest.effects } := by
  unfold World.spawn
  simp [spawned]

theorem mid_spawn (S : w₀.tree.Sound) (hc : c.id < w₀.rest.next)
    (hn : w₀.rest.next ≤ w.rest.next) (B : Backed w₀ w) : Mid w₀ (w.spawn c part) where
  toBacked := by
    refine B.step S ?_ (by rw [rest_spawn]) ?_
    · intro x hx
      rw [cell_spawn (lt_of_lt_of_le hc hn), if_neg (c := x = w.rest.next)]
      · split <;> rfl
      · exact (lt_of_lt_of_le hx hn).ne
    · rw [rest_spawn]
      exact fun h => h.rename _ _
  dirty := by
    refine ⟨w.rest.next, hn, ?_⟩
    rw [Cell.Valid, cell_spawn (lt_of_lt_of_le hc hn),
      if_neg (lt_of_lt_of_le hc hn).ne', if_pos rfl]
    exact ⟨_, rfl, rfl⟩

end Spawn

/-- `f` gives the nodes that `local_flush` makes of the children `ks`, which were `g` and
received `part`; `u` is the world it leaves. -/
structure Spawned (part : NodeId → List Entry) (g f : NodeId → SSTNode) (ks : List NodeId)
    (w u : World) : Prop where
  node : ∀ x, (u.cell x).node = (w.cell x).node
  rest : u.rest = { w.rest with next := u.rest.next, effects := u.rest.effects }
  next : w.rest.next ≤ u.rest.next
  kept : ∀ c ∈ ks, part c = [] → f c = g c
  made : ∀ c ∈ ks, part c ≠ [] →
    f c = created w.rest.sizing (f c).id (g c).level (mergeSortedEntries (part c) (g c).buffer)
      (g c).childIds ∧
    w.rest.next ≤ (f c).id ∧ (f c).id < u.rest.next ∧
    (u.cell (f c).id).record =
      some { id := (f c).id, level := (g c).level, filePath := ⟨(f c).id⟩ } ∧
    ∃ n₀, (u.cell (f c).id).file = some n₀ ∧ n₀.loaded = f c
  old : ∀ c ∈ ks, part c ≠ [] →
    (u.cell c).record = (w.cell c).record.map ({ · with valid := false }) ∧
      (u.cell c).file = (w.cell c).file
  other : ∀ x, (∀ c ∈ ks, part c ≠ [] → x ≠ (f c).id ∧ x ≠ c) → u.cell x = w.cell x
  inj : ∀ c ∈ ks, ∀ c' ∈ ks, part c ≠ [] → part c' ≠ [] → (f c).id = (f c').id → c = c'

namespace Spawned

variable {part : NodeId → List Entry} {g f f' : NodeId → SSTNode} {ks : List NodeId}
  {c : NodeId} {w u : World}

theorem nil (w : World) : Spawned part g f [] w w :=
  ⟨fun _ => rfl, rfl, le_rfl, by simp, by simp, by simp, fun _ _ => rfl, by simp⟩

theorem congr (h : ∀ c ∈ ks, f' c = f c) (P : Spawned part g f ks w u) :
    Spawned part g f' ks w u where
  node := P.node
  rest := P.rest
  next := P.next
  kept c hc hp := by rw [h c hc, P.kept c hc hp]
  made c hc hp := by rw [h c hc]; exact P.made c hc hp
  old := P.old
  other x hx := P.other x fun c hc hp => h c hc ▸ hx c hc hp
  inj c hc c' hc' hp hp' heq := by
    rw [h c hc, h c' hc'] at heq
    exact P.inj c hc c' hc' hp hp' heq

/-- A child that receives nothing is left alone. -/
theorem keep (P : Spawned part g f ks w u) (hp : part c = []) (hf : f c = g c) :
    Spawned part g f (c :: ks) w u where
  node := P.node
  rest := P.rest
  next := P.next
  kept := List.forall_mem_cons.mpr ⟨fun _ => hf, P.kept⟩
  made := List.forall_mem_cons.mpr ⟨fun h => absurd hp h, P.made⟩
  old := List.forall_mem_cons.mpr ⟨fun h => absurd hp h, P.old⟩
  other x hx := P.other x fun c hc => hx c (List.mem_cons_of_mem _ hc)
  inj := by
    intro c₁ h₁ c₂ h₂ hp₁ hp₂ heq
    rcases List.mem_cons.mp h₁ with rfl | h₁
    · exact absurd hp hp₁
    rcases List.mem_cons.mp h₂ with rfl | h₂
    · exact absurd hp hp₂
    exact P.inj c₁ h₁ c₂ h₂ hp₁ hp₂ heq

/-- A child that receives entries is replaced first. -/
theorem make (P : Spawned part g f ks (w.spawn (g c) (part c)) u) (hp : part c ≠ [])
    (hf : f c = (spawned w (g c) (part c)).loaded) (hid : (g c).id = c) (hck : c ∉ ks)
    (hlt : ∀ c' ∈ c :: ks, c' < w.rest.next) : Spawned part g f (c :: ks) w u := by
  have hfid : (f c).id = w.rest.next := by rw [hf]; rfl
  have hcn : (g c).id < w.rest.next := hid.symm ▸ hlt c (by simp)
  have hcell := fun x => (cell_spawn hcn x : (w.spawn (g c) (part c)).cell x = _)
  rw [hid] at hcell
  have hnc : w.rest.next ≠ c := (hlt c (by simp)).ne'
  have hnext : w.rest.next < u.rest.next := by
    refine lt_of_lt_of_le ?_ P.next
    rw [rest_spawn]
    exact Nat.lt_succ_self _
  have hlow : ∀ {c'}, c' ∈ ks → part c' ≠ [] → w.rest.next < (f c').id := fun hc' hp' => by
    have := (P.made _ hc' hp').2.1
    rw [rest_spawn] at this
    exact this
  -- the rest of the loop leaves the new node and the old one alone
  have hstay : ∀ x, x = w.rest.next ∨ x = c → u.cell x = (w.spawn (g c) (part c)).cell x := by
    rintro x (rfl | rfl)
    · exact P.other _ fun c' hc' hp' =>
        ⟨(hlow hc' hp').ne, (hlt c' (List.mem_cons_of_mem _ hc')).ne'⟩
    · exact P.other _ fun c' hc' hp' =>
        ⟨((hlt _ (by simp)).trans (hlow hc' hp')).ne, fun h => hck (h ▸ hc')⟩
  refine ⟨?_, ?_, hnext.le, ?_, ?_, ?_, ?_, ?_⟩
  · intro x
    rw [P.node, hcell]
    split
    · rfl
    · split <;> rfl
  · rw [P.rest, rest_spawn]
  · exact List.forall_mem_cons.mpr ⟨fun h => absurd h hp, P.kept⟩
  · refine List.forall_mem_cons.mpr ⟨fun _ => ?_, fun c' hc' hp' => ?_⟩
    · rw [hfid]
      refine ⟨hf, le_rfl, hnext, ?_, spawned w (g c) (part c), ?_, hf.symm⟩
      · rw [hstay _ (.inl rfl), hcell, if_neg hnc, if_pos rfl]
      · rw [hstay _ (.inl rfl), hcell, if_neg hnc, if_pos rfl]
    · obtain ⟨h₁, h₂, h₃⟩ := P.made c' hc' hp'
      rw [rest_spawn] at h₁ h₂
      exact ⟨h₁, (Nat.le_succ _).trans h₂, h₃⟩
  · refine List.forall_mem_cons.mpr ⟨fun _ => ?_, fun c' hc' hp' => ?_⟩
    · rw [hstay c (.inr rfl), hcell, if_pos rfl]
      exact ⟨rfl, rfl⟩
    · have h := P.old c' hc' hp'
      rwa [hcell, if_neg (ne_of_mem_of_not_mem hc' hck), if_neg (hlt c' (List.mem_cons_of_mem _ hc')).ne] at h
  · intro x hx
    obtain ⟨hxn, hxc⟩ := hx c (by simp) hp
    rw [hfid] at hxn
    rw [P.other x fun c' hc' => hx c' (List.mem_cons_of_mem _ hc'), hcell, if_neg hxc, if_neg hxn]
  · intro c₁ h₁ c₂ h₂ hp₁ hp₂ heq
    rcases List.mem_cons.mp h₁ with e₁ | h₁ <;> rcases List.mem_cons.mp h₂ with e₂ | h₂
    · rw [e₁, e₂]
    · rw [e₁, hfid] at heq
      exact absurd heq (hlow h₂ hp₂).ne
    · rw [e₂, hfid] at heq
      exact absurd heq (hlow h₁ hp₁).ne'
    · exact P.inj c₁ h₁ c₂ h₂ hp₁ hp₂ heq

end Spawned

theorem loadEntries_reads {w : World} {n : SSTNode} (h : n.entriesLoaded = true) :
    Act.Reads n.loadEntries w n := by
  unfold SSTNode.loadEntries
  rw [if_pos h]
  exact Act.Runs.pure n w

theorem loadChildren_reads {w : World} {g : NodeId → SSTNode} :
    ∀ {ks : List NodeId}, (∀ c ∈ ks, (w.cell c).node = some (g c) ∧ (g c).entriesLoaded = true) →
      Act.Reads (loadChildren ks) w (ks.map g) := by
  intro ks
  induction ks with
  | nil => exact fun _ => Act.Runs.pure _ w
  | cons c ks ih =>
    intro h
    obtain ⟨hc, hl⟩ := h c (by simp)
    unfold loadChildren
    refine Act.Reads.bind (getNode_reads hc) (Act.Reads.bind (loadEntries_reads hl) ?_)
    rw [hl]
    exact Act.Reads.bind (ih fun c hc => h c (by simp [hc])) (Act.Runs.pure _ w)

/-- One child that receives entries. -/
theorem spawn_runs {w : World} {c : SSTNode} {part : List Entry} {H : World → Prop}
    {α : Type} {k : NodeId → SSTNode → M α} {a : α} {u : World} (h : H w.takeId)
    (hk : Act.Runs (k w.rest.next (spawned w c part).loaded) (w.spawn c part) a u H) :
    Act.Runs (nextNodeId >>= fun newId =>
      SSTNode.create newId c.level (mergeSortedEntries part c.buffer) c.childIds >>= fun new =>
      registerNode newId c.level new.filePath >>= fun _ =>
      invalidateNode c.id >>= fun _ => k newId new) w a u H :=
  Act.Runs.bind nextNodeId_runs (Act.Runs.bind (create_runs h)
    (Act.Runs.update_bind (Act.Runs.update_bind hk)))

/-- The loop of `local_flush`. -/
theorem localFlushLoop_runs {w₀ : World} {d : Prop} (S : w₀.tree.Sound) (part : NodeId → List Entry)
    (g : NodeId → SSTNode) : ∀ (ks : List NodeId) (w : World), ks.Nodup →
    (∀ c ∈ ks, c < w₀.rest.next ∧ (g c).id = c ∧ (g c).entriesLoaded = true) →
    w₀.rest.next ≤ w.rest.next → (d → Going w₀ w) →
    ∃ f u, Act.Runs (localFlushLoop (ks.map fun c => (g c, part c))) w
        (ks.map f, ⟨ks.map fun c => (f c).id, ks.filter fun c => part c ≠ []⟩) u
        (fun v => d → Going w₀ v) ∧
      Spawned part g f ks w u ∧ (d → Mid w₀ w ∨ (∃ c ∈ ks, part c ≠ []) → Mid w₀ u) := by
  intro ks
  induction ks with
  | nil => exact fun w _ _ _ _ => ⟨g, w, Act.Runs.pure _ w, .nil w, by simp⟩
  | cons c ks ih =>
    intro w hnd hks hnext hG
    obtain ⟨hck, hnd⟩ := List.nodup_cons.mp hnd
    obtain ⟨⟨hcn, hid, hload⟩, hks'⟩ := List.forall_mem_cons.mp hks
    -- the node of `c` is added to what the rest of the loop makes
    have hf : ∀ (f : NodeId → SSTNode) (n : SSTNode), ∀ c' ∈ ks, Function.update f c n c' = f c' :=
      fun f n c' hc' => Function.update_of_ne (ne_of_mem_of_not_mem hc' hck) _ _
    have hmap : ∀ (f : NodeId → SSTNode) (n : SSTNode), ks.map (Function.update f c n) = ks.map f :=
      fun f n => List.map_congr_left (hf f n)
    have hmap' : ∀ (f : NodeId → SSTNode) (n : SSTNode),
        ks.map (fun c' => (Function.update f c n c').id) = ks.map fun c' => (f c').id :=
      fun f n => List.map_congr_left fun c' hc' => by rw [hf f n c' hc']
    by_cases hp : part c = []
    · obtain ⟨f, u, hrun, P, hM⟩ := ih w hnd hks' hnext hG
      refine ⟨Function.update f c (g c), u, ?_, (P.congr (hf f _)).keep hp (by simp), ?_⟩
      · simp only [List.map_cons, localFlushLoop, hp, List.isEmpty_nil, if_true, hmap, hmap',
          Function.update_self, hid, ne_eq, List.filter_cons, not_true_eq_false, decide_false,
          Bool.false_eq_true, if_false]
        exact Act.Runs.bind hrun (Act.Runs.pure _ u)
      · simpa [hp] using hM
    · have hcg : (g c).id < w₀.rest.next := hid.symm ▸ hcn
      have hM₁ : d → Mid w₀ (w.spawn (g c) (part c)) := fun hd =>
        mid_spawn S hcg hnext (hG hd).backed
      have hnext₁ : w₀.rest.next ≤ (w.spawn (g c) (part c)).rest.next := by
        rw [rest_spawn]
        exact hnext.trans (Nat.le_succ _)
      obtain ⟨f, u, hrun, P, hM⟩ := ih _ hnd hks' hnext₁ fun hd =>
        ⟨.inr (hM₁ hd), by rw [rest_spawn]; exact (hG hd).2⟩
      refine ⟨Function.update f c (spawned w (g c) (part c)).loaded, u, ?_,
        (P.congr (hf f _)).make hp (by simp) hid hck ?_, fun hd _ => hM hd (.inl (hM₁ hd))⟩
      · simp only [List.map_cons, localFlushLoop, List.isEmpty_iff, hp, if_false, hmap, hmap',
          Function.update_self, ne_eq, List.filter_cons, not_false_eq_true, decide_true, if_true]
        refine Act.Reads.bind (loadEntries_reads hload) (spawn_runs (fun hd => (hG hd).takeId) ?_)
        refine Act.Runs.bind hrun ?_
        rw [hid]
        exact Act.Runs.pure _ u
      · exact fun c' hc' => lt_of_lt_of_le (hks c' hc').1 hnext

/-! ## Refreshing the cache -/

/-- What `refreshChild` does to the world. -/
def World.refresh (w : World) (v : View) (c : SSTNode) : World :=
  if c.childIds ≠ [] then
    (w.renamed (SSTNode.prepare w.rest.sizing { c with
      keyRange := widen c.keyRange (v.span c) })).registerNode c.id c.level ⟨c.id⟩
  else w

/-- What one round of the loop that refreshes the cache does to the world. -/
def World.install (w : World) (v : View) (c : SSTNode) (old : Option NodeId) : World :=
  World.setNode (World.refresh (old.elim w w.eraseNode) v c) c.id (refreshed w.rest.sizing v c)

section Install

variable {w w₀ : World} {v : View} {c : SSTNode} {old : Option NodeId}

theorem cell_eraseHead (x : NodeId) : (old.elim w w.eraseNode).cell x =
    if old = some x then { w.cell x with node := none } else w.cell x := by
  cases old with
  | none => rfl
  | some o =>
    show (w.eraseNode o).cell x = _
    rw [World.cell_eraseNode]
    by_cases h : x = o
    · simp [h]
    · simp [h, Ne.symm h]

theorem rest_eraseHead : (old.elim w w.eraseNode).rest = w.rest := by
  cases old <;> rfl

theorem cell_refresh (x : NodeId) : (w.refresh v c).cell x =
    if x = c.id ∧ c.childIds ≠ [] then { w.cell x with
      record := some { id := c.id, level := c.level, filePath := ⟨c.id⟩ }
      file := some (SSTNode.prepare w.rest.sizing { c with
        keyRange := widen c.keyRange (v.span c) }) }
    else w.cell x := by
  unfold World.refresh
  by_cases hk : c.childIds = []
  · simp [hk]
  · rw [if_pos hk]
    simp only [World.cell_registerNode, World.cell_renamed, prepare_id, hk, ne_eq,
      not_false_eq_true, and_true]
    by_cases hx : x = c.id <;> simp [hx]

theorem rest_refresh : (w.refresh v c).rest =
    { w.rest with effects := (w.refresh v c).rest.effects } := by
  unfold World.refresh
  split <;> rfl

theorem exposed_refresh (h : Exposed w.rest.effects) :
    Exposed (w.refresh v c).rest.effects := by
  unfold World.refresh
  split
  · exact h.rename _ _
  · exact h

theorem cell_install (hold : old ≠ some c.id) (x : NodeId) : (w.install v c old).cell x =
    if x = c.id then
      { node := some (refreshed w.rest.sizing v c)
        record := if c.childIds = [] then (w.cell x).record
          else some { id := c.id, level := c.level, filePath := ⟨c.id⟩ }
        file := if c.childIds = [] then (w.cell x).file
          else some (SSTNode.prepare w.rest.sizing { c with
            keyRange := widen c.keyRange (v.span c) }) }
    else if old = some x then { w.cell x with node := none }
    else w.cell x := by
  unfold World.install
  rw [World.cell_setNode, cell_refresh, cell_eraseHead, rest_eraseHead]
  by_cases hx : x = c.id
  · subst hx
    by_cases hk : c.childIds = [] <;> simp [hk, hold]
  · simp [hx]

theorem rest_install : (w.install v c old).rest =
    { w.rest with effects := (w.install v c old).rest.effects } := by
  show (World.refresh (old.elim w w.eraseNode) v c).rest = { w.rest with
    effects := (World.refresh (old.elim w w.eraseNode) v c).rest.effects }
  rw [rest_refresh, rest_eraseHead]

theorem span_congr {v v' : View} (hne : c.childIds ≠ []) (h : ∀ g ∈ c.childIds, v' g = v g) :
    v'.span c = v.span c := by
  have hhead : v' (c.childIds.headD invalidNodeId) = v (c.childIds.headD invalidNodeId) := by
    refine h _ ?_
    cases hk : c.childIds with
    | nil => exact absurd hk hne
    | cons c cs => simp
  have hlast : v' (c.childIds.getLastD invalidNodeId) = v (c.childIds.getLastD invalidNodeId) := by
    refine h _ ?_
    rw [List.getLastD_eq_getLast?, List.getLast?_eq_some_getLast hne]
    exact List.getLast_mem hne
  simp only [View.span, View.headMin, View.minKey, View.maxKey, hhead, hlast]

theorem refreshChild_runs (v : View) {H : World → Prop} (hv : ∀ g ∈ c.childIds, w.view g = v g)
    (hg : ∀ g ∈ c.childIds, ∃ m, v g = some m) (h : H w) :
    Act.Runs (refreshChild c) w (refreshed w.rest.sizing v c) (w.refresh v c) H := by
  unfold refreshChild refreshed World.refresh
  split
  · rename_i hk
    refine Act.Reads.bind (spanKeyRange_reads hk fun g hgk => ?_) ?_
    · obtain ⟨m, hm⟩ := hg g hgk
      exact ⟨m, (hv g hgk).trans hm⟩
    · rw [span_congr hk hv]
      exact Act.Runs.bind (flushToDisk_runs h) (Act.Runs.update_bind (Act.Runs.pure _ _))
  · exact Act.Runs.pure c w

/-- Where the round may write: a new file, or the file of an internal child that only got
a wider range. -/
def Writable (w₀ : World) (c : SSTNode) : Prop :=
  w₀.rest.next ≤ c.id ∨ (w₀.cell c.id).node = some c ∧ c.id ≠ w₀.rest.root ∧
    (c.childIds ≠ [] → c.level ≠ 0) ∧ UniqueKeys c.buffer

theorem mid_install (S : w₀.tree.Sound) (M : Mid w₀ w) (hc : Writable w₀ c)
    (hold : old ≠ some c.id) : Mid w₀ (w.install w₀.view c old) where
  stored := by rw [rest_install]; exact M.stored
  files := by
    rcases M.files with h | h
    · refine .inl ?_
      show Exposed (World.refresh (old.elim w w.eraseNode) w₀.view c).rest.effects
      exact exposed_refresh (by rwa [rest_eraseHead])
    refine .inr fun x n hx => ?_
    rw [cell_install hold]
    by_cases hxc : x = c.id
    · rw [if_pos hxc]
      by_cases hk : c.childIds = []
      · simpa [hk] using h x n hx
      · -- the file of a kept child: only its range is new
        rcases hc with hc | ⟨hnode, hroot, hinner, hu⟩
        · exact absurd (S.below hx) (not_lt_of_ge (hxc ▸ hc))
        · obtain rfl : c = n := by
            rw [hxc, hnode] at hx
            exact Option.some.inj hx
          have hF := fenced_refreshed w.rest.sizing w₀.view hk
          rw [refreshed_of_kids _ _ hk] at hF
          refine .inr ⟨hxc ▸ hroot, _, if_neg hk, ?_⟩
          exact ⟨rfl, rfl, rfl, sortBuffer_eq_self hu, hinner hk, hF.cases, hF.head⟩
    · rw [if_neg hxc]
      split
      · exact h x n hx
      · exact h x n hx
  dirty := by
    obtain ⟨x, hx, hv⟩ := M.dirty
    refine ⟨x, hx, ?_⟩
    rw [Cell.Valid, cell_install hold]
    split
    · split
      · exact hv
      · exact ⟨_, rfl, rfl⟩
    · split
      · exact hv
      · exact hv

end Install

/-- The nodes `f` of the children `ks` are in the cache, refreshed, and `olds` are gone. -/
structure Installed (v : View) (f : NodeId → SSTNode) (ks olds : List NodeId)
    (w u : World) : Prop where
  rest : u.rest = { w.rest with effects := u.rest.effects }
  put : ∀ c ∈ ks, (u.cell (f c).id).node = some (refreshed w.rest.sizing v (f c)) ∧
    ((f c).childIds = [] → (u.cell (f c).id).record = (w.cell (f c).id).record ∧
      (u.cell (f c).id).file = (w.cell (f c).id).file) ∧
    ((f c).childIds ≠ [] → (u.cell (f c).id).record =
        some { id := (f c).id, level := (f c).level, filePath := ⟨(f c).id⟩ } ∧
      ∃ n₀, (u.cell (f c).id).file = some n₀ ∧
        n₀.loaded = refreshed w.rest.sizing v (f c))
  gone : ∀ x ∈ olds, u.cell x = { w.cell x with node := none }
  other : ∀ x, x ∉ olds → (∀ c ∈ ks, x ≠ (f c).id) → u.cell x = w.cell x

/-- The loop that refreshes the cache. -/
theorem refreshCache_runs {w₀ : World} {d : Prop} (S : w₀.tree.Sound) (f : NodeId → SSTNode) :
    ∀ (ks olds : List NodeId) (w : World), olds.length ≤ ks.length → olds.Nodup →
    (ks.map fun c => (f c).id).Nodup → (∀ c ∈ ks, (f c).id ∉ olds) →
    (∀ c ∈ ks, Writable w₀ (f c)) →
    (∀ c ∈ ks, ∀ g ∈ (f c).childIds, w.view g = w₀.view g ∧ (∃ m, w₀.view g = some m) ∧
      g ∉ olds ∧ ∀ c' ∈ ks, g ≠ (f c').id) →
    (d → Mid w₀ w) → (∃ l, w.rest.splits = l ++ w₀.rest.splits) →
    ∃ u, Act.Runs (refreshCache (ks.map f) olds) w () u (fun v => d → Going w₀ v) ∧
      Installed w₀.view f ks olds w u ∧ (d → Mid w₀ u) := by
  intro ks
  induction ks with
  | nil =>
    intro olds w hlen _ _ _ _ _ M _
    obtain rfl : olds = [] := by simpa using hlen
    exact ⟨w, Act.Runs.pure _ w, ⟨rfl, by simp, by simp, fun _ _ _ => rfl⟩, M⟩
  | cons c ks ih =>
    intro olds w hlen hnd hids hdisj hwr hkids M hlog
    have hc := hdisj c (by simp)
    have hold : olds.head? ≠ some (f c).id := fun h => hc (List.mem_of_mem_head? h)
    have hM := fun hd => mid_install S (M hd) (hwr c (by simp)) hold
    rw [List.map_cons, List.nodup_cons] at hids
    have hne : ∀ c' ∈ ks, (f c').id ≠ (f c).id := fun c' hc' h =>
      hids.1 (List.mem_map.mpr ⟨c', hc', h⟩)
    have htail : ∀ {x}, x ∈ olds.tail → x ∈ olds := List.mem_of_mem_tail
    obtain ⟨u, hrun, P, hMu⟩ := ih olds.tail (w.install w₀.view (f c) olds.head?)
      (by simpa using hlen) hnd.tail hids.2 (fun c' hc' h => hdisj c' (by simp [hc']) (htail h))
      (fun c' hc' => hwr c' (by simp [hc'])) (fun c' hc' g hg => by
        obtain ⟨h₁, h₂, h₃, h₄⟩ := hkids c' (by simp [hc']) g hg
        refine ⟨?_, h₂, fun h => h₃ (htail h), fun c'' hc'' => h₄ c'' (by simp [hc''])⟩
        rw [World.view, cell_install hold, if_neg (h₄ c (by simp)),
          if_neg (show olds.head? ≠ some g from fun h => h₃ (List.mem_of_mem_head? h))]
        exact h₁) hM (by rw [rest_install]; exact hlog)
    refine ⟨u, ?_, ?_, hMu⟩
    · have hround : ∀ w' : World, w' = olds.head?.elim w w.eraseNode →
          (d → Going w₀ w') → Act.Runs (refreshChild (f c) >>= fun c' => setNode c'.id c' >>= fun _ =>
            refreshCache (ks.map f) olds.tail) w' () u (fun v => d → Going w₀ v) := by
        rintro w' rfl hG
        refine Act.Runs.bind (refreshChild_runs w₀.view (fun g hg => ?_)
          (fun g hg => ?_) hG) ?_
        · obtain ⟨h₁, -, h₃, -⟩ := hkids c (by simp) g hg
          rw [World.view, cell_eraseHead,
            if_neg (show olds.head? ≠ some g from fun h => h₃ (List.mem_of_mem_head? h))]
          exact h₁
        · exact (hkids c (by simp) g hg).2.1
        · refine Act.Runs.update_bind ?_
          rw [refreshed_id, rest_eraseHead]
          exact hrun
      rw [List.map_cons]
      unfold refreshCache
      cases olds with
      | nil => exact hround w rfl fun hd => ⟨.inr (M hd), hlog⟩
      | cons o os =>
        refine Act.Runs.update_bind (hround _ rfl fun hd =>
          ⟨.inr ((M hd).step S ?_ ?_ rfl id), hlog⟩)
        · intro x _ hx
          rw [Cell.Valid, World.cell_eraseNode]
          split
          · exact hx
          · exact hx
        · intro x _
          rw [World.cell_eraseNode]
          split <;> rfl
    · have hcell : ∀ x, (w.install w₀.view (f c) olds.head?).cell x = _ := fun x => cell_install hold x
      have hself : u.cell (f c).id = (w.install w₀.view (f c) olds.head?).cell (f c).id :=
        P.other _ (fun h => hc (htail h)) fun c' hc' h => hne c' hc' h.symm
      rw [hcell, if_pos rfl] at hself
      have hsizing : (w.install w₀.view (f c) olds.head?).rest.sizing = w.rest.sizing := by
        rw [rest_install]
      refine ⟨by rw [P.rest, rest_install], ?_, ?_, ?_⟩
      · refine List.forall_mem_cons.mpr ⟨?_, fun c' hc' => ?_⟩
        · rw [hself]
          refine ⟨rfl, fun hk => ⟨if_pos hk, if_pos hk⟩, fun hk => ⟨if_neg hk, _, if_neg hk, ?_⟩⟩
          rw [refreshed_of_kids _ _ hk]
          rfl
        · have hput := P.put c' hc'
          have hnd' : olds.head? ≠ some (f c').id := fun h =>
            hdisj c' (by simp [hc']) (List.mem_of_mem_head? h)
          rwa [hcell, if_neg (hne c' hc'), if_neg hnd', hsizing] at hput
      · intro x hx
        have hxc : x ≠ (f c).id := fun h => hc (h ▸ hx)
        cases olds with
        | nil => simp at hx
        | cons o os =>
          obtain ⟨ho, -⟩ := List.nodup_cons.mp hnd
          rcases List.mem_cons.mp hx with rfl | hx
          · rw [P.other x ho fun c' hc' h => hdisj c' (by simp [hc']) (by simp [← h]), hcell,
              if_neg hxc]
            simp
          · have hxo : o ≠ x := fun h => ho (h ▸ hx)
            rw [P.gone x hx, hcell, if_neg hxc]
            simp [hxo]
      · intro x hx hxk
        have hnd' : olds.head? ≠ some x := fun h => hx (List.mem_of_mem_head? h)
        rw [P.other x (fun h => hx (htail h)) fun c' hc' => hxk c' (by simp [hc']), hcell,
          if_neg (hxk c (by simp)), if_neg hnd']

end GravTree
