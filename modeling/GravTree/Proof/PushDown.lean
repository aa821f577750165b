import GravTree.Proof.LocalFlush

/-!
# Pushing a buffer down

`pushDown` is the first half of `do_flush`: it partitions a node's buffer over its
children, replaces every child that receives entries, refreshes the cache, writes
the node and commits. It makes one step of the tree machine.
-/

namespace GravTree

/-- Memory and files after the children have been put into the cache: `F` gives the
node that takes the place of each child of `n`. -/
structure Handed (w u : World) (p : NodeId) (n : SSTNode) (F : NodeId → SSTNode) : Prop where
  rest : u.rest = { w.rest with next := u.rest.next, effects := u.rest.effects }
  next : w.rest.next ≤ u.rest.next
  inj : ∀ c ∈ n.childIds, ∀ c' ∈ n.childIds, (F c).id = (F c').id → c = c'
  child : ∀ c ∈ n.childIds, ∀ m, w.view c = some m →
    (F c).level = m.level ∧ (F c).childIds = m.childIds
  kept : ∀ c ∈ n.childIds, ∀ m, w.view c = some m → w.view.part n c = [] →
    (F c).id = c ∧ (F c).buffer = m.buffer ∧
      (m.level = 0 → (F c).keyRange.minKey = m.keyRange.minKey) ∧
      (m.level ≠ 0 → Fenced w.view (F c) m.keyRange.minKey)
  made : ∀ c ∈ n.childIds, ∀ m, w.view c = some m → w.view.part n c ≠ [] →
    w.rest.next ≤ (F c).id ∧ (F c).id < u.rest.next ∧
      (F c).buffer = sortBuffer (mergeSortedEntries (w.view.part n c) m.buffer) ∧
      (m.level = 0 → LeafFenced (F c)) ∧
      (m.level ≠ 0 → Fenced w.view (F c) (w.view.headMin (F c)))
  cap : ∀ c ∈ n.childIds, ∀ m, w.view c = some m → Capped w.view (F c) m.keyRange.maxKey
  /-- The new children are cached, listed and on disk. -/
  put : ∀ c ∈ n.childIds, (u.cell (F c).id).node = some (F c) ∧
    (F c).filePath = ⟨(F c).id⟩ ∧ (F c).entriesLoaded = true ∧
    (∃ r, (u.cell (F c).id).record = some r ∧ r.valid = true ∧
      r.filePath = ⟨(F c).id⟩ ∧ r.id = (F c).id) ∧
    ∃ n₀, (u.cell (F c).id).file = some n₀ ∧ n₀.loaded = F c
  /-- The children they replace are not. -/
  gone : ∀ c ∈ n.childIds, (∀ c' ∈ n.childIds, (F c').id ≠ c) → (u.cell c).node = none ∧
    ∀ r, (u.cell c).record = some r → r.valid = false ∧ r.filePath = ⟨c⟩ ∧ r.id = c
  other : ∀ x, x ≠ p → x ∉ n.childIds → (∀ c ∈ n.childIds, (F c).id ≠ x) →
    u.cell x = w.cell x

section Handed

variable {w w₁ u₁ w₂ u₂ : World} {p : NodeId} {n : SSTNode} {g f : NodeId → SSTNode}

/-- The two loops together. -/
theorem handed (T : Tidy w (some p)) (hp : w.view p = some n)
    (hg : ∀ c ∈ n.childIds, w.view c = some (g c))
    (h₁ : ∀ x, w₁.cell x = w.cell x) (hr₁ : w₁.rest = w.rest)
    (P : Spawned (w.view.part n) g f n.childIds w₁ u₁)
    (h₂ : ∀ x, x ≠ p → w₂.cell x = u₁.cell x) (hr₂ : w₂.rest = u₁.rest)
    (Q : Installed w.view f n.childIds (n.childIds.filter fun c => w.view.part n c ≠ []) w₂ u₂) :
    Handed w u₂ p n fun c => refreshed w.rest.sizing w.view (f c) := by
  have S := T.sound
  have hpn : p ∉ n.childIds := fun h => S.kid_ne hp h rfl
  have hnep : ∀ {c}, c ∈ n.childIds → c ≠ p := fun h heq => hpn (heq ▸ h)
  have hsome : ∀ {c m}, c ∈ n.childIds → w.view c = some m → m = g c := fun hc hm =>
    Option.some.inj (hm.symm.trans (hg _ hc))
  have hgid : ∀ c ∈ n.childIds, (g c).id = c := fun c hc => (S.shape.mem_row (hg c hc)).2.2
  have hfan : ∀ c ∈ n.childIds, (g c).childIds.length ≤ maxFanout := fun c hc =>
    T.filed.fanout (hg c hc)
  have hsz : w₂.rest.sizing = w.rest.sizing := by rw [hr₂, P.rest, hr₁]
  have hmade := P.made
  rw [hr₁] at hmade
  have hfid : ∀ c ∈ n.childIds, w.view.part n c = [] ∧ (f c).id = c ∨
      w.view.part n c ≠ [] ∧ w.rest.next ≤ (f c).id := fun c hc => by
    by_cases hpt : w.view.part n c = []
    · exact .inl ⟨hpt, by rw [P.kept c hc hpt, hgid c hc]⟩
    · exact .inr ⟨hpt, (hmade c hc hpt).2.1⟩
  have hlt : ∀ c ∈ n.childIds, c < w.rest.next := fun c hc => S.below (hg c hc)
  have hfp : ∀ c ∈ n.childIds, (f c).id ≠ p := by
    intro c hc
    rcases hfid c hc with ⟨-, h⟩ | ⟨-, h⟩
    · rw [h]
      exact hnep hc
    · exact fun heq => absurd (S.below hp) (not_lt_of_ge (heq ▸ h))
  have hinj : ∀ c ∈ n.childIds, ∀ c' ∈ n.childIds, (f c).id = (f c').id → c = c' := by
    intro c hc c' hc' heq
    rcases hfid c hc with ⟨hpt, h⟩ | ⟨hpt, h⟩ <;> rcases hfid c' hc' with ⟨hpt', h'⟩ | ⟨hpt', h'⟩
    · rw [← h, ← h', heq]
    · exact absurd (hlt c hc) (not_lt_of_ge (h ▸ heq ▸ h'))
    · exact absurd (hlt c' hc') (not_lt_of_ge (h' ▸ heq ▸ h))
    · exact P.inj c hc c' hc' hpt hpt' heq
  have hchild : ∀ c ∈ n.childIds, (f c).level = (g c).level ∧ (f c).childIds = (g c).childIds := by
    intro c hc
    by_cases hpt : w.view.part n c = []
    · rw [P.kept c hc hpt]
      exact ⟨rfl, rfl⟩
    · rw [(hmade c hc hpt).1]
      exact ⟨rfl, created_childIds _ _ _ _ _ (hfan c hc)⟩
  have hleaf : ∀ c ∈ n.childIds, (g c).level = 0 → (f c).childIds = [] := fun c hc h =>
    (hchild c hc).2.trans ((S.shape.fit (hg c hc)).2 h)
  have hinner : ∀ c ∈ n.childIds, (g c).level ≠ 0 → (f c).childIds ≠ [] := by
    intro c hc h hnil
    have := (S.shape.fit (hg c hc)).1 h
    rw [← (hchild c hc).2, hnil] at this
    simp at this
  have hne_merge : ∀ c, w.view.part n c ≠ [] →
      mergeSortedEntries (w.view.part n c) (g c).buffer ≠ [] := by
    intro c hpt hnil
    obtain ⟨e, he⟩ := List.exists_mem_of_ne_nil _ hpt
    obtain ⟨e', he', -⟩ : Covers (mergeSortedEntries (w.view.part n c) (g c).buffer) e :=
      covers_merge (.inl he)
    simp [hnil] at he'
  -- the cell of a child's replacement after the first loop
  have hcell₁ : ∀ c ∈ n.childIds, w.view.part n c = [] → w₂.cell c = w.cell c := by
    intro c hc hpt
    rw [h₂ c (hnep hc), P.other c, h₁]
    intro c' hc' hpt'
    refine ⟨fun h => ?_, fun h => hpt' (h ▸ hpt)⟩
    exact absurd (hlt c hc) (not_lt_of_ge (h ▸ (hmade c' hc' hpt').2.1))
  refine ⟨?_, ?_, ?_, ?_, ?_, ?_, ?_, ?_, ?_, ?_⟩
  · rw [Q.rest, hr₂, P.rest, hr₁]
  · rw [Q.rest, hr₂]
    exact hr₁ ▸ P.next
  · intro c hc c' hc' heq
    exact hinj c hc c' hc' (by simpa using heq)
  · intro c hc m hm
    rw [hsome hc hm]
    simpa using hchild c hc
  · intro c hc m hm hpt
    rw [hsome hc hm]
    have hf := P.kept c hc hpt
    have hu : UniqueKeys (g c).buffer := S.unique (hg c hc) fun h =>
      S.shape.root_notMem_kids hp (h ▸ hc)
    refine ⟨by rw [refreshed_id, hf, hgid c hc], by rw [hf, refreshed_buffer _ _ hu], fun h => ?_,
      fun h => ?_⟩
    · rw [refreshed_of_leaf _ _ (hleaf c hc h), hf]
    · have := fenced_refreshed w.rest.sizing w.view (hinner c hc h)
      rwa [hf] at this ⊢
  · intro c hc m hm hpt
    rw [hsome hc hm]
    obtain ⟨hf, hge, hlt', -⟩ := hmade c hc hpt
    have hu : UniqueKeys (f c).buffer := by
      rw [hf]
      exact uniqueKeys_sortBuffer _
    have hfl : LeafFenced (f c) := by
      rw [hf]
      exact leafFenced_created _ _ _ _ _
    have hfb : (f c).buffer =
        sortBuffer (mergeSortedEntries (w.view.part n c) (g c).buffer) := by
      rw [hf]
      rfl
    refine ⟨by simpa using hge, ?_, by rw [refreshed_buffer _ _ hu, hfb], fun h => ?_, fun h => ?_⟩
    · rw [refreshed_id, Q.rest, hr₂]
      exact hlt'
    · rwa [refreshed_of_leaf _ _ (hleaf c hc h)]
    · have hne : (f c).buffer ≠ [] := by
        rw [hfb]
        exact fun h0 => hne_merge c hpt (sortBuffer_eq_nil.mp h0)
      have := fenced_refreshed_made w.rest.sizing w.view hne hu hfl (hinner c hc h)
      rwa [View.headMin, refreshed_childIds]
  · intro c hc m hm
    rw [hsome hc hm]
    by_cases hpt : w.view.part n c = []
    · rw [P.kept c hc hpt]
      exact capped_refreshed ..
    · rw [(hmade c hc hpt).1]
      refine capped_refreshed_made _ _ (uniqueKeys_sortBuffer _) ?_ _
      exact created_maxKey _ _ _ _ _ (hne_merge c hpt)
  · intro c hc
    obtain ⟨hnode, hsame, hnew⟩ := Q.put c hc
    rw [hsz] at hnode hnew
    have hwrote : (f c).childIds ≠ [] → refreshed w.rest.sizing w.view (f c) = flushed
        w.rest.sizing { f c with keyRange := widen (f c).keyRange (w.view.span (f c)) } := fun h =>
      refreshed_of_kids _ _ h
    rw [refreshed_id]
    by_cases hk : (f c).childIds = []
    · obtain ⟨hrec, hfile⟩ := hsame hk
      rw [refreshed_of_leaf _ _ hk] at hnode ⊢
      rw [hrec, hfile]
      rcases hfid c hc with ⟨hpt, hid⟩ | ⟨hpt, -⟩
      · rw [hid] at hnode ⊢
        rw [hcell₁ c hc hpt, P.kept c hc hpt]
        rw [P.kept c hc hpt] at hnode
        obtain ⟨hpath, hload⟩ := T.filed.loaded (hg c hc)
        obtain ⟨r, hr, hv⟩ := T.filed.valid.mpr (show (w.cell c).node ≠ none by
          rw [show (w.cell c).node = some (g c) from hg c hc]
          exact Option.some_ne_none _)
        obtain ⟨hrp, hri, -⟩ := T.filed.place hr
        obtain ⟨n₀, hn₀, h | ⟨h, -⟩⟩ := T.filed.file (hg c hc)
        · exact ⟨hnode, hpath, hload, ⟨r, hr, hv, hrp, hri⟩, n₀, hn₀, h⟩
        · exact absurd (Option.some.inj h).symm (hnep hc)
      · obtain ⟨hf, -, -, hrec₁, n₀, hfile₁, hload₁⟩ := hmade c hc hpt
        rw [h₂ _ (hfp c hc)]
        refine ⟨hnode, ?_, ?_, ⟨_, hrec₁, rfl, rfl, rfl⟩, n₀, hfile₁, hload₁⟩
        · rw [hf]
          rfl
        · rw [hf]
          rfl
    · obtain ⟨hrec, n₀, hfile, hload⟩ := hnew hk
      refine ⟨hnode, ?_, ?_, ⟨_, hrec, rfl, rfl, rfl⟩, n₀, hfile, hload⟩
      · rw [hwrote hk]
        rfl
      · rw [hwrote hk]
        rfl
  · intro c hc hno
    have hpt : w.view.part n c ≠ [] := by
      intro hpt
      refine hno c hc ?_
      rw [refreshed_id, P.kept c hc hpt, hgid c hc]
    rw [Q.gone c (List.mem_filter.mpr ⟨hc, by simpa using hpt⟩), h₂ c (hnep hc)]
    refine ⟨rfl, fun r hr => ?_⟩
    rw [show ({ u₁.cell c with node := none } : Cell).record = (u₁.cell c).record from rfl,
      (P.old c hc hpt).1, h₁, Option.map_eq_some_iff] at hr
    obtain ⟨r', hr', rfl⟩ := hr
    obtain ⟨hrp, hri, -⟩ := T.filed.place hr'
    exact ⟨rfl, hrp, hri⟩
  · intro x hxp hxn hxf
    have hxf' : ∀ c ∈ n.childIds, x ≠ (f c).id := fun c hc h => hxf c hc (by simpa using h.symm)
    rw [Q.other x (fun h => hxn (List.mem_of_mem_filter h)) hxf', h₂ x hxp, P.other x, h₁]
    exact fun c hc _ => ⟨hxf' c hc, fun h => hxn (h ▸ hc)⟩

end Handed

namespace Handed

variable {w u : World} {p : NodeId} {n n' : SSTNode} {F : NodeId → SSTNode}

theorem id_ne_p (K : Handed w u p n F) (S : w.tree.Sound) (hp : w.view p = some n) {c : NodeId}
    (hc : c ∈ n.childIds) : (F c).id ≠ p := by
  obtain ⟨m, hm, -, -⟩ := S.shape.child_mem hp hc
  intro heq
  by_cases hpt : w.view.part n c = []
  · exact S.kid_ne hp hc ((K.kept c hc m hm hpt).1.symm.trans heq)
  · exact absurd (S.below hp) (not_lt_of_ge (heq ▸ (K.made c hc m hm hpt).1))

/-- The node itself is written last. -/
theorem pushes (K : Handed w u p n F) (hp : w.view p = some n) (S : w.tree.Sound)
    (hl : n.level ≠ 0) (hid : n'.id = p) (hlev : n'.level = n.level)
    (hk : n'.childIds = n.childIds.map fun c => (F c).id) (hb : n'.buffer = [])
    (hf : n'.keyRange.minKey = u.view.headMin n') {v : World} (hv : ∀ x, v.view x =
      if x = p then some n' else u.view x) (hr : v.rest.root = u.rest.root)
    (hn : u.rest.next ≤ v.rest.next) : Pushes w.tree v.tree p n n' F where
  here := hp
  inner := hl
  id := hid
  level := hlev
  kids := hk
  buffer := hb
  fence := by
    rw [hf, View.headMin, View.headMin, View.minKey, View.minKey]
    show _ = (v.view _).elim _ _
    rw [hv, if_neg]
    have hhead := S.headKid hp hl
    rw [hk]
    cases hks : n.childIds with
    | nil => simp [hks] at hhead
    | cons c cs => exact K.id_ne_p S hp (hks ▸ List.mem_cons_self ..)
  child := K.child
  kept := K.kept
  made c hc m hm hpt := by
    obtain ⟨h₁, h₂, h₃⟩ := K.made c hc m hm hpt
    exact ⟨h₁, lt_of_lt_of_le h₂ hn, h₃⟩
  inj := K.inj
  at_p := by
    show v.view p = _
    rw [hv, if_pos rfl]
  at_child c hc := by
    show v.view _ = _
    rw [hv, if_neg (K.id_ne_p S hp hc)]
    exact (K.put c hc).1
  other x hxp hxf := by
    show v.view x = if x ∈ n.childIds then none else w.view x
    rw [hv, if_neg hxp]
    split
    · rename_i hxn
      exact (K.gone x hxn hxf).1
    · rename_i hxn
      rw [World.view, K.other x hxp hxn hxf, World.view]
  root := by
    show v.rest.root = w.rest.root
    rw [hr, K.rest]
  next := K.next.trans hn

/-- The files are in place again. -/
theorem filed (K : Handed w u p n F) (T : Tidy w (some p)) (hp : w.view p = some n)
    (hid : n'.id = p) (hk : n'.childIds = n.childIds.map fun c => (F c).id)
    (hpath : n'.filePath = ⟨p⟩) (hload : n'.entriesLoaded = true) {v : World}
    {r : NodeMeta} {n₀ : SSTNode} (hr : r.filePath = ⟨p⟩ ∧ r.id = p ∧ r.valid = true)
    (hn₀ : n₀.loaded = n')
    (hv : ∀ x, v.cell x = if x = p then ⟨some n', some r, some n₀⟩ else u.cell x)
    (hn : v.rest.next = u.rest.next) : Filed v none := by
  have S := T.sound
  have hnext := K.next
  -- what is known of each cell of the new world
  have hcase : ∀ x, x = p ∨ (x ≠ p ∧ ∃ c ∈ n.childIds, (F c).id = x) ∨
      (x ≠ p ∧ x ∈ n.childIds ∧ ∀ c ∈ n.childIds, (F c).id ≠ x) ∨
      (x ≠ p ∧ u.cell x = w.cell x) := by
    intro x
    by_cases hxp : x = p
    · exact .inl hxp
    by_cases hxf : ∃ c ∈ n.childIds, (F c).id = x
    · exact .inr (.inl ⟨hxp, hxf⟩)
    have hxf' : ∀ c ∈ n.childIds, (F c).id ≠ x := fun c hc h => hxf ⟨c, hc, h⟩
    by_cases hxn : x ∈ n.childIds
    · exact .inr (.inr (.inl ⟨hxp, hxn, hxf'⟩))
    · exact .inr (.inr (.inr ⟨hxp, K.other x hxp hxn hxf'⟩))
  have hlt : ∀ c ∈ n.childIds, (F c).id < u.rest.next := by
    intro c hc
    obtain ⟨m, hm, -, -⟩ := S.shape.child_mem hp hc
    by_cases hpt : w.view.part n c = []
    · rw [(K.kept c hc m hm hpt).1]
      exact lt_of_lt_of_le (S.below hm) hnext
    · exact (K.made c hc m hm hpt).2.1
  refine ⟨?_, ?_, ?_, ?_, ?_⟩
  · intro x m hx
    rw [hv] at hx
    rcases hcase x with rfl | ⟨hxp, c, hc, rfl⟩ | ⟨hxp, hxn, hxf⟩ | ⟨hxp, hcell⟩
    · rw [if_pos rfl] at hx
      cases hx
      rw [hk, List.length_map]
      exact T.filed.fanout hp
    · obtain ⟨k, hkc, -, -⟩ := S.shape.child_mem hp hc
      rw [if_neg hxp, (K.put c hc).1] at hx
      cases hx
      rw [(K.child c hc k hkc).2]
      exact T.filed.fanout hkc
    · rw [if_neg hxp, (K.gone x hxn hxf).1] at hx
      cases hx
    · rw [if_neg hxp, hcell] at hx
      exact T.filed.fanout hx
  · intro x m hx
    rw [hv] at hx
    rcases hcase x with rfl | ⟨hxp, c, hc, rfl⟩ | ⟨hxp, hxn, hxf⟩ | ⟨hxp, hcell⟩
    · rw [if_pos rfl] at hx
      cases hx
      exact ⟨hpath, hload⟩
    · rw [if_neg hxp, (K.put c hc).1] at hx
      cases hx
      exact ⟨(K.put c hc).2.1, (K.put c hc).2.2.1⟩
    · rw [if_neg hxp, (K.gone x hxn hxf).1] at hx
      cases hx
    · rw [if_neg hxp, hcell] at hx
      exact T.filed.loaded hx
  · intro x
    rw [hv]
    rcases hcase x with rfl | ⟨hxp, c, hc, rfl⟩ | ⟨hxp, hxn, hxf⟩ | ⟨hxp, hcell⟩
    · rw [if_pos rfl]
      exact ⟨fun _ => Option.some_ne_none _, fun _ => ⟨r, rfl, hr.2.2⟩⟩
    · obtain ⟨hnode, -, -, ⟨r', hr', hv', -⟩, -⟩ := K.put c hc
      rw [if_neg hxp, hnode]
      exact ⟨fun _ => Option.some_ne_none _, fun _ => ⟨r', hr', hv'⟩⟩
    · obtain ⟨hnode, hrec⟩ := K.gone x hxn hxf
      rw [if_neg hxp, hnode]
      refine ⟨?_, fun h => absurd rfl h⟩
      rintro ⟨r', hr', hv'⟩
      rw [(hrec r' hr').1] at hv'
      cases hv'
    · rw [if_neg hxp, hcell]
      exact T.filed.valid
  · intro x r' hx
    rw [hv] at hx
    rw [hn]
    rcases hcase x with rfl | ⟨hxp, c, hc, rfl⟩ | ⟨hxp, hxn, hxf⟩ | ⟨hxp, hcell⟩
    · rw [if_pos rfl] at hx
      cases hx
      exact ⟨hr.1, hr.2.1, lt_of_lt_of_le (S.below hp) hnext⟩
    · obtain ⟨-, -, -, ⟨r'', hr'', -, hp'', hi''⟩, -⟩ := K.put c hc
      rw [if_neg hxp, hr''] at hx
      cases hx
      exact ⟨hp'', hi'', hlt c hc⟩
    · rw [if_neg hxp] at hx
      obtain ⟨-, hp'', hi''⟩ := (K.gone x hxn hxf).2 r' hx
      obtain ⟨m, hm, -, -⟩ := S.shape.child_mem hp hxn
      exact ⟨hp'', hi'', lt_of_lt_of_le (S.below hm) hnext⟩
    · rw [if_neg hxp, hcell] at hx
      obtain ⟨hp'', hi'', hlt''⟩ := T.filed.place hx
      exact ⟨hp'', hi'', lt_of_lt_of_le hlt'' hnext⟩
  · intro x m hx
    rw [hv] at hx ⊢
    rcases hcase x with rfl | ⟨hxp, c, hc, rfl⟩ | ⟨hxp, hxn, hxf⟩ | ⟨hxp, hcell⟩
    · rw [if_pos rfl] at hx ⊢
      cases hx
      exact ⟨n₀, rfl, .inl hn₀⟩
    · obtain ⟨hnode, -, -, -, n₁, hn₁, hl₁⟩ := K.put c hc
      rw [if_neg hxp] at hx ⊢
      rw [hnode] at hx
      cases hx
      exact ⟨n₁, hn₁, .inl hl₁⟩
    · rw [if_neg hxp, (K.gone x hxn hxf).1] at hx
      cases hx
    · rw [if_neg hxp, hcell] at hx ⊢
      obtain ⟨n₁, hn₁, h | ⟨h, -⟩⟩ := T.filed.file hx
      · exact ⟨n₁, hn₁, .inl h⟩
      · exact absurd (Option.some.inj h).symm hxp

end Handed

/-! ## The push -/

/-- The partitions of `local_flush`, child by child. -/
theorem zip_partitionEntries {v : View} {n : SSTNode} {g : NodeId → SSTNode}
    (hnd : n.childIds.Nodup) (hg : ∀ c ∈ n.childIds, v c = some (g c)) :
    (n.childIds.map g).zip (partitionEntries n.buffer (n.childIds.map g)) =
      n.childIds.map fun c => (g c, v.part n c) := by
  have hmins : (n.childIds.map g).map (·.keyRange.minKey) = n.childIds.map v.minKey := by
    rw [List.map_map]
    exact List.map_congr_left fun c hc => (View.minKey_some (hg c hc)).symm
  refine List.ext_getElem ?_ fun i hi hi' => ?_
  · simp [length_partitionEntries]
  · have hlen : i < n.childIds.length := by simpa using hi'
    have hpart := getElem?_partitionEntries n.buffer (n.childIds.map g)
      (show i < (n.childIds.map g).length by simpa using hlen)
    rw [List.getElem_zip, List.getElem_map, List.getElem_map]
    refine Prod.ext rfl ?_
    rw [List.getElem?_eq_some_iff] at hpart
    obtain ⟨hi₁, hpart⟩ := hpart
    show (partitionEntries n.buffer (n.childIds.map g))[i] = _
    rw [hpart, hmins, View.part]
    refine List.filter_congr fun e _ => ?_
    have hne : n.childIds ≠ [] := List.ne_nil_of_length_pos (by omega)
    obtain ⟨c, hc, -⟩ := owns_targetChild v.minKey hne e.key
    obtain ⟨ht, hc⟩ := List.getElem?_eq_some_iff.mp hc
    simp only [decide_eq_decide]
    rw [List.getElem?_eq_some_iff]
    exact ⟨fun h => ⟨ht, by simp [h]⟩, fun ⟨_, h⟩ => hnd.getElem_inj_iff.mp h⟩

/-- The new child pointers: the place of a kept child is its own. -/
theorem zipWith_childIds {ks : List NodeId} {part : NodeId → List Entry} {f : NodeId → SSTNode}
    (h : ∀ c ∈ ks, part c = [] → (f c).id = c) :
    List.zipWith (fun old new => if old ∈ ks.filter (fun c => part c ≠ []) then new else old) ks
      (ks.map fun c => (f c).id) = ks.map fun c => (f c).id := by
  rw [List.zipWith_map_right, List.zipWith_self]
  refine List.map_congr_left fun c hc => ?_
  split
  · rfl
  · rename_i hcf
    refine (h c hc ?_).symm
    by_contra hp
    exact hcf (List.mem_filter.mpr ⟨hc, by simpa using hp⟩)

/-- Later identifiers may have been used up. -/
theorem Pushes.skip {t t' : Tree} {p : NodeId} {n n' : SSTNode} {f : NodeId → SSTNode}
    (P : Pushes t t' p n n' f) {k : NodeId} (h : t'.next ≤ k) :
    Pushes t { t' with next := k } p n n' f :=
  { P with
    made := fun c hc m hm hpt =>
      let ⟨hge, hlt, hrest⟩ := P.made c hc m hm hpt
      ⟨hge, lt_of_lt_of_le hlt h, hrest⟩
    next := P.next.trans h }

/-- What a push leaves: one step of the tree, with `F` for the children, and everything
but the node and its children as it was. -/
structure Pushed (w u : World) (p : NodeId) (n n' : SSTNode) (F : NodeId → SSTNode) : Prop where
  tidy : Tidy u none
  splits : u.rest.splits = w.rest.splits
  pushes : Pushes w.tree u.tree p n n' F
  cap : ∀ c ∈ n.childIds, ∀ m, w.view c = some m → Capped w.view (F c) m.keyRange.maxKey
  other : ∀ x, x ≠ p → x ∉ n.childIds → w.view x ≠ none → u.cell x = w.cell x

/-- **A push** makes one step and leaves a tidy world. -/
theorem pushDown_pushes {w : World} {d : Prop} {p : NodeId} {n : SSTNode} (T : Tidy w (some p))
    (hp : w.view p = some n) (hl : n.level ≠ 0) (hb : d → n.buffer ≠ []) :
    Act.Spec (pushDown p) w
      (fun ids u => ∃ n' F, Pushed w u p n n' F ∧ n'.childIds = ids)
      (Stopped fun v => d → Halt w v) := by
  have S := T.sound
  have hid : n.id = p := (S.shape.mem_row hp).2.2
  have hkne : n.childIds ≠ [] := List.ne_nil_of_mem (S.headKid hp hl)
  have hnd := S.shape.kids_nodup hp
  obtain ⟨g, hg⟩ : ∃ g : NodeId → SSTNode, ∀ c ∈ n.childIds, w.view c = some (g c) := by
    refine ⟨fun c => (w.view c).getD n, fun c hc => ?_⟩
    obtain ⟨m, hm, -, -⟩ := S.shape.child_mem hp hc
    simp [show w.view c = some m from hm]
  -- sorting the parent's buffer changes nothing
  obtain ⟨w₁, hw₁⟩ : ∃ v, v = w.modifyNode p fun q => { q with buffer := stableSort q.buffer } :=
    ⟨_, rfl⟩
  have hcell₁ : ∀ x, w₁.cell x = w.cell x := by
    intro x
    rw [hw₁]
    refine World.cell_modify_self w p x fun m hm => ?_
    obtain rfl : n = m := Option.some.inj (hp.symm.trans hm)
    rw [stableSort_eq_self (S.sorted hp)]
  have hrest₁ : w₁.rest = w.rest := by rw [hw₁, World.rest_modifyNode]
  have hG₁ : d → Going w w₁ := fun _ => by
    refine ⟨.inl ⟨fun x => by rw [hcell₁], fun x => .inl (by rw [hcell₁]),
      fun x _ => by rw [hcell₁], by rw [hrest₁], by rw [hrest₁], by rw [hrest₁]⟩, [], ?_⟩
    rw [hrest₁]
    rfl
  obtain ⟨f, u₁, hloop, P, hM⟩ := localFlushLoop_runs S (w.view.part n) g n.childIds w₁ hnd
    (fun c hc => ⟨S.below (hg c hc), (S.shape.mem_row (hg c hc)).2.2,
      (T.filed.loaded (hg c hc)).2⟩) (by rw [hrest₁]) hG₁
  have hdata : d → ∃ c ∈ n.childIds, w.view.part n c ≠ [] := fun hd => by
    obtain ⟨e, he⟩ := List.exists_mem_of_ne_nil _ (hb hd)
    obtain ⟨c, hc, hec⟩ := w.view.exists_part hkne he
    exact ⟨c, hc, List.ne_nil_of_mem hec⟩
  have hM₁ : d → Mid w u₁ := fun hd => hM hd (.inr (hdata hd))
  have hmade := P.made
  rw [hrest₁] at hmade
  have hkept : ∀ c ∈ n.childIds, w.view.part n c = [] → (f c).id = c := fun c hc hpt => by
    rw [P.kept c hc hpt, (S.shape.mem_row (hg c hc)).2.2]
  have hnode₁ : (u₁.cell p).node = some n := by rw [P.node, hcell₁]; exact hp
  have hsplits₁ : u₁.rest.splits = w.rest.splits := by rw [P.rest, hrest₁]
  -- the child pointers
  obtain ⟨ids, hids⟩ : ∃ l, l = n.childIds.map fun c => (f c).id := ⟨_, rfl⟩
  obtain ⟨w₂, hw₂⟩ : ∃ v, v = u₁.modifyNode p fun q => { q with
    childIds := List.zipWith
      (fun old new => if old ∈ n.childIds.filter (fun c => w.view.part n c ≠ []) then new else old)
      q.childIds ids } := ⟨_, rfl⟩
  have hcell₂ : ∀ x, x ≠ p → w₂.cell x = u₁.cell x := by
    intro x hx
    rw [hw₂, World.cell_modifyNode, if_neg hx]
  have hnode₂ : (w₂.cell p).node = some { n with childIds := ids } := by
    rw [hw₂, World.cell_modifyNode, if_pos rfl, hnode₁]
    simp only [Option.map_some, hids, zipWith_childIds hkept]
  have hrest₂ : w₂.rest = u₁.rest := by rw [hw₂, World.rest_modifyNode]
  have hM₂ : d → Mid w w₂ := fun hd => by
    refine (hM₁ hd).step S (fun x _ hx => ?_) (fun x _ => ?_) (by rw [hrest₂]) (by rw [hrest₂]; exact id)
    · by_cases hxp : x = p
      · rw [hw₂, Cell.Valid, World.cell_modifyNode, if_pos hxp]
        exact hx
      · rwa [hcell₂ x hxp]
    · by_cases hxp : x = p
      · rw [hw₂, World.cell_modifyNode, if_pos hxp]
      · rw [hcell₂ x hxp]
  -- the children in the cache
  have hfid : ∀ c ∈ n.childIds, w.view.part n c = [] ∧ (f c).id = c ∨
      w.view.part n c ≠ [] ∧ w.rest.next ≤ (f c).id := fun c hc => by
    by_cases hpt : w.view.part n c = []
    · exact .inl ⟨hpt, hkept c hc hpt⟩
    · exact .inr ⟨hpt, (hmade c hc hpt).2.1⟩
  have hold : ∀ c ∈ n.childIds, ∀ y, y < w.rest.next → (f c).id = y → c = y := by
    intro c hc y hy heq
    rcases hfid c hc with ⟨-, h⟩ | ⟨-, h⟩
    · exact h.symm.trans heq
    · exact absurd hy (not_lt_of_ge (heq ▸ h))
  have hfinj : ∀ c ∈ n.childIds, ∀ c' ∈ n.childIds, (f c).id = (f c').id → c = c' := by
    intro c hc c' hc' heq
    rcases hfid c hc with ⟨-, h⟩ | ⟨hpt, h⟩
    · exact (hold c' hc' c (S.below (hg c hc)) (heq.symm.trans h)).symm
    rcases hfid c' hc' with ⟨-, h'⟩ | ⟨hpt', h'⟩
    · exact hold c hc c' (S.below (hg c' hc')) (heq.trans h')
    · exact P.inj c hc c' hc' hpt hpt' heq
  obtain ⟨u₂, hrefresh, Q, hM₃⟩ := refreshCache_runs S f n.childIds
    (n.childIds.filter fun c => w.view.part n c ≠ []) w₂ (List.length_filter_le ..) (hnd.filter _)
    (hnd.map_on fun c hc c' hc' => hfinj c hc c' hc')
    (fun c hc h => by
      obtain ⟨hmem, hpt⟩ := List.mem_filter.mp h
      have := hold c hc _ (S.below (hg _ hmem)) rfl
      rcases hfid c hc with ⟨hpt', -⟩ | ⟨-, hge⟩
      · rw [← this] at hpt
        simp [hpt'] at hpt
      · exact absurd (S.below (hg _ hmem)) (not_lt_of_ge hge))
    (fun c hc => by
      rcases hfid c hc with ⟨hpt, h⟩ | ⟨-, h⟩
      · have hroot : c ≠ w.tree.root := fun h => S.shape.root_notMem_kids hp (h ▸ hc)
        rw [P.kept c hc hpt] at h ⊢
        rw [Writable, h]
        exact .inr ⟨hg c hc, hroot, fun hk h0 => hk ((S.shape.fit (hg c hc)).2 h0),
          S.unique (hg c hc) hroot⟩
      · exact .inl h)
    (fun c hc y hy => by
      obtain ⟨hlc, hkc⟩ : (f c).childIds = (g c).childIds ∧ True := by
        by_cases hpt : w.view.part n c = []
        · exact ⟨by rw [P.kept c hc hpt], trivial⟩
        · rw [(hmade c hc hpt).1]
          exact ⟨created_childIds _ _ _ _ _ (T.filed.fanout (hg c hc)), trivial⟩
      rw [hlc] at hy
      obtain ⟨m, hm, -, hml⟩ := S.shape.child_mem (hg c hc) hy
      obtain ⟨k, hk, -, hkl⟩ := S.shape.child_mem hp hc
      obtain rfl : g c = k := Option.some.inj ((hg c hc).symm.trans hk)
      have hyn : y ∉ n.childIds := by
        intro hyn
        obtain ⟨m', hm', -, hml'⟩ := S.shape.child_mem hp hyn
        obtain rfl : m = m' := Option.some.inj (hm.symm.trans hm')
        omega
      have hyp : y ≠ p := by
        rintro rfl
        obtain rfl : n = m := Option.some.inj (hp.symm.trans hm)
        omega
      refine ⟨?_, ⟨m, hm⟩, fun h => hyn (List.mem_of_mem_filter h), fun c' hc' h => ?_⟩
      · show (w₂.cell y).node = _
        rw [hcell₂ y hyp, P.node, hcell₁]
        rfl
      · exact hyn (hold c' hc' y (S.below hm) h.symm ▸ hc'))
    hM₂ ⟨[], by rw [hrest₂, hsplits₁]; rfl⟩
  have K := handed T hp hg hcell₁ hrest₁ P hcell₂ hrest₂ Q
  have hrest₃ := K.rest
  have hpid : ∀ c ∈ n.childIds, (f c).id ≠ p := fun c hc => by
    simpa using K.id_ne_p S hp hc
  have hnode₃ : u₂.cell p = w₂.cell p := by
    refine Q.other p (fun h => ?_) fun c hc => (hpid c hc).symm
    exact S.kid_ne hp (List.mem_of_mem_filter h) rfl
  -- the parent
  obtain ⟨w₃, hw₃⟩ : ∃ v, v = u₂.modifyNode p fun q => { q with buffer := [] } := ⟨_, rfl⟩
  have hcell₃ : ∀ x, x ≠ p → w₃.cell x = u₂.cell x := fun x hx => by
    rw [hw₃, World.cell_modifyNode, if_neg hx]
  have hp₃ : (w₃.cell p).node = some { n with childIds := ids, buffer := [] } := by
    rw [hw₃, World.cell_modifyNode, if_pos rfl, hnode₃, hnode₂]
    rfl
  have hids_ne : ids ≠ [] := by simpa [hids] using hkne
  obtain ⟨n₄, hn₄⟩ : ∃ q, q = { n with
      childIds := ids, buffer := [],
      keyRange := w₃.view.span { n with childIds := ids, buffer := [] } } := ⟨_, rfl⟩
  have hid₄ : n₄.id = p := by rw [hn₄]; exact hid
  obtain ⟨w₄, hw₄⟩ : ∃ v, v = w₃.modifyNode p fun q => { q with
      keyRange := w₃.view.span { n with childIds := ids, buffer := [] } } := ⟨_, rfl⟩
  have hcell₄ : ∀ x, x ≠ p → w₄.cell x = u₂.cell x := fun x hx => by
    rw [hw₄, World.cell_modifyNode, if_neg hx, hcell₃ x hx]
  have hp₄ : (w₄.cell p).node = some n₄ := by
    rw [hw₄, World.cell_modifyNode, if_pos rfl, hp₃, hn₄]
    rfl
  have hrest₄ : w₄.rest = u₂.rest := by
    rw [hw₄, World.rest_modifyNode, hw₃, World.rest_modifyNode]
  have hpcell₄ : (w₄.cell p).record = (u₂.cell p).record ∧ (w₄.cell p).file = (u₂.cell p).file := by
    rw [hw₄, World.cell_modifyNode, if_pos rfl, hw₃, World.cell_modifyNode, if_pos rfl]
    exact ⟨rfl, rfl⟩
  have hmem : ∀ {v : World}, (∀ x, (v.cell x).record = (u₂.cell x).record ∧
      (v.cell x).file = (u₂.cell x).file) → v.rest = u₂.rest → d → Mid w v := by
    intro v hv hr hd
    refine (hM₃ hd).step S (fun x _ hx => ?_) (fun x _ => (hv x).2) (by rw [hr]) (by rw [hr]; exact id)
    rwa [Cell.Valid, (hv x).1]
  have hsame₄ : ∀ x, (w₄.cell x).record = (u₂.cell x).record ∧
      (w₄.cell x).file = (u₂.cell x).file := by
    intro x
    by_cases hx : x = p
    · exact hx ▸ hpcell₄
    · rw [hcell₄ x hx]
      exact ⟨rfl, rfl⟩
  have hM₄ : d → Mid w w₄ := hmem hsame₄ hrest₄
  have hM₄' : d → Mid w (w₄.modifyNode p (·.prepare w₄.rest.sizing)) := by
    refine hmem (fun x => ?_) (by rw [World.rest_modifyNode, hrest₄])
    rw [World.cell_modifyNode]
    split
    · exact hsame₄ x
    · exact hsame₄ x
  -- its file still names a child that was replaced
  obtain ⟨n₀, hfile₀, hkids₀⟩ : ∃ n₀, (w₄.cell p).file = some n₀ ∧ n₀.childIds = n.childIds := by
    obtain ⟨n₀, hn₀, h⟩ := T.filed.file hp
    refine ⟨n₀, ?_, ?_⟩
    · rw [hpcell₄.2, hnode₃, hw₂, World.cell_modifyNode, if_pos rfl]
      show (u₁.cell p).file = _
      rw [P.other p, hcell₁, hn₀]
      exact fun c hc _ => ⟨(hpid c hc).symm, fun h => S.kid_ne hp (h ▸ hc) rfl⟩
    · rcases h with rfl | ⟨-, h⟩
      · rfl
      · exact h.kids
  have hne₀ : d → n₀.childIds ≠ n₄.childIds := by
    intro hd heq
    rw [hkids₀, hn₄] at heq
    obtain ⟨c₀, hc₀, hpart₀⟩ := hdata hd
    have hnew : (f c₀).id ∈ n.childIds := by
      rw [show n.childIds = ids from heq, hids]
      exact List.mem_map_of_mem hc₀
    exact absurd (S.below (hg _ hnew)) (not_lt_of_ge (hmade c₀ hc₀ hpart₀).2.1)
  have hM₅ : d → Mid w (w₄.rewrite p n₄) := fun hd =>
    mid_rewrite (hM₄ hd) hp₄ hid₄ hfile₀ (hne₀ hd)
  have hcell₅ : ∀ x, (w₄.rewrite p n₄).cell x = if x = p then
      ⟨some (flushed w₄.rest.sizing n₄), some { id := p, level := n₄.level, filePath := ⟨p⟩ },
        some (n₄.prepare w₄.rest.sizing)⟩ else u₂.cell x := by
    intro x
    rw [cell_rewrite hp₄ hid₄]
    split
    · rfl
    · rename_i hx
      exact hcell₄ x hx
  have hrest₅ : (w₄.rewrite p n₄).rest =
      { u₂.rest with effects := (w₄.rewrite p n₄).rest.effects } := by
    rw [rest_rewrite hid₄, hrest₄]
  have hkids₄ : n₄.childIds = n.childIds.map fun c =>
      (refreshed w.rest.sizing w.view (f c)).id := by
    rw [hn₄]
    simpa using hids
  have hid₅ : (flushed w₄.rest.sizing n₄).id = p := hid₄
  have hlev₅ : (flushed w₄.rest.sizing n₄).level = n.level := by rw [hn₄]; rfl
  have hbuf₅ : (flushed w₄.rest.sizing n₄).buffer = [] := by rw [hn₄]; rfl
  have hpath₅ : (flushed w₄.rest.sizing n₄).filePath = ⟨p⟩ := by rw [← hid₄]; rfl
  have hkids₅ : (flushed w₄.rest.sizing n₄).childIds = n.childIds.map fun c =>
      (refreshed w.rest.sizing w.view (f c)).id := hkids₄
  have hfence₅ : (flushed w₄.rest.sizing n₄).keyRange.minKey =
      u₂.view.headMin (flushed w₄.rest.sizing n₄) := by
    have hmin : (flushed w₄.rest.sizing n₄).keyRange.minKey = n₄.keyRange.minKey := by
      rw [flushed_minKey, hn₄]
      rfl
    rw [hmin, View.headMin, flushed_childIds, hn₄]
    show w₃.view.minKey (ids.headD invalidNodeId) = u₂.view.minKey (ids.headD invalidNodeId)
    have hhead : ids.headD invalidNodeId ≠ p := by
      have := S.headKid hp hl
      rw [hids]
      cases hks : n.childIds with
      | nil => simp [hks] at this
      | cons c cs => exact hpid c (hks ▸ List.mem_cons_self ..)
    rw [View.minKey, View.minKey, World.view, World.view, hcell₃ _ hhead]
  have hview₅ : ∀ x, (w₄.rewrite p n₄).view x =
      if x = p then some (flushed w₄.rest.sizing n₄) else u₂.view x := by
    intro x
    show ((w₄.rewrite p n₄).cell x).node = _
    rw [hcell₅]
    split <;> rfl
  have hpush : Pushes w.tree (w₄.rewrite p n₄).tree p n (flushed w₄.rest.sizing n₄)
      fun c => refreshed w.rest.sizing w.view (f c) :=
    K.pushes hp S hl hid₅ hlev₅ hkids₅ hbuf₅ hfence₅ hview₅ (by rw [hrest₅]) (by rw [hrest₅])
  have hfiled : Filed (w₄.rewrite p n₄) none :=
    K.filed T hp hid₅ hkids₅ hpath₅ rfl ⟨rfl, rfl, rfl⟩ rfl hcell₅ (by rw [hrest₅])
  have hsplits : (w₄.rewrite p n₄).rest.splits = w.rest.splits := by rw [hrest₅, K.rest]
  have hlead : LeadsTo w (w₄.rewrite p n₄).tree (w₄.rewrite p n₄).rest.splits := by
    rw [hsplits]
    exact (LeadsTo.refl w).step (.push hpush)
  have hk₄ : ∀ c ∈ ids, ∃ m, (w₃.cell c).node = some m := by
    intro c hc
    rw [hids, List.mem_map] at hc
    obtain ⟨c', hc', rfl⟩ := hc
    rw [hcell₃ _ (hpid c' hc')]
    exact ⟨_, by simpa using (K.put c' hc').1⟩
  -- the code
  unfold pushDown
  refine (getNode_reads hp).spec_bind ?_
  refine (loadChildren_reads fun c hc => ⟨hg c hc, (T.filed.loaded (hg c hc)).2⟩).spec_bind ?_
  have hflush : Act.Runs (localFlush p (n.childIds.map g)) w
      (n.childIds.map f, ⟨ids, n.childIds.filter fun c => w.view.part n c ≠ []⟩) u₁
      (fun v => d → Halt w v) := by
    unfold localFlush
    refine Act.Runs.update_bind ?_
    rw [← hw₁]
    have hp₁ : (w₁.cell p).node = some n := by
      rw [hcell₁]
      exact hp
    refine Act.Reads.bind (getNode_reads hp₁) ?_
    rw [zip_partitionEntries hnd hg, hids]
    exact hloop.mono fun u h hd => (h hd).halt
  refine hflush.spec_bind (fun k _ h => ⟨⟨k, rfl⟩, h⟩) ?_
  refine Act.Spec.update_bind ?_
  rw [← hw₂]
  refine Act.Runs.spec_bind hrefresh (fun k _ h => ⟨⟨k, rfl⟩, fun hd => (h hd).halt⟩) ?_
  refine Act.Spec.update_bind ?_
  rw [← hw₃]
  refine (getNode_reads hp₃).spec_bind ?_
  rw [if_pos (show (⟨n, ids⟩ : SSTNode × List NodeId).2 ≠ [] from hids_ne)]
  refine (spanKeyRange_reads hids_ne hk₄).spec_bind ?_
  refine Act.Spec.update_bind ?_
  rw [← hw₄]
  refine rewrite_bind hp₄ hid₄ (fun k => ⟨⟨k, rfl⟩, fun hd => Going.halt ⟨.inr (hM₄' hd), [], ?_⟩⟩) ?_
  · rw [World.rest_modifyNode, hrest₄, K.rest]
    rfl
  refine commit_bind hlead (hpush.sound S) hfiled (fun hd => .inl (hM₅ hd)) fun u hT hl hs C => ?_
  refine Act.Spec.pure ⟨flushed w₄.rest.sizing n₄, _, ⟨hT, hs.trans hsplits, ?_, K.cap,
    fun x hxp hxn hx => ?_⟩, by rw [flushed_childIds, hn₄]⟩
  · rw [C.tree]
    exact hpush.skip C.next
  · have hxF : ∀ c ∈ n.childIds, (refreshed w.rest.sizing w.view (f c)).id ≠ x := by
      intro c hc heq
      rw [refreshed_id] at heq
      obtain ⟨m, hm⟩ := Option.ne_none_iff_exists'.mp hx
      exact hxn (hold c hc x (S.below hm) heq ▸ hc)
    have hcell : (w₄.rewrite p n₄).saved.cell x = w.cell x := by
      show (w₄.rewrite p n₄).cell x = _
      rw [hcell₅, if_neg hxp, K.other x hxp hxn hxF]
    exact (C.cell_eq (hcell ▸ hx) (hcell ▸ T.filed.valid.mpr hx)).trans hcell

theorem Pushed.lead {w u : World} {p : NodeId} {n n' : SSTNode} {F : NodeId → SSTNode}
    (D : Pushed w u p n n' F) : LeadsTo w u.tree u.rest.splits := by
  rw [D.splits]
  exact (LeadsTo.refl w).step (.push D.pushes)

end GravTree
