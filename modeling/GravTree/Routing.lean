import GravTree.Transparency

/-!
# Where writes go and where reads look

`partition_entries` scans the children from the right and stops at the first
`min_key` that is small enough. `find_path` scans them from the left and stops at the
first one that is too large. Over ascending `min_key`s both end at the same child, so
what a flush pushes down is found again.
-/

namespace GravTree

open Fence

/-! ## Write routing -/

section Buckets

variable {children : List SSTNode}

theorem partitionEntries_eq (es : List Entry) (cs : List SSTNode) :
    partitionEntries es cs = (List.range cs.length).map fun i =>
      es.filter fun e => targetChild (cs.map (·.keyRange.minKey)) e.key = i := by
  refine List.ext_getElem? fun i => ?_
  by_cases hi : i < cs.length
  · simp [getElem?_partitionEntries es cs hi, hi]
  · rw [List.getElem?_eq_none (by rw [length_partitionEntries]; omega),
      List.getElem?_eq_none (by simpa using hi)]

/-- The buckets of a sorted list in order are the list. -/
theorem flatten_partitionEntries (hne : children ≠ []) {es : List Entry} (h : Sorted es) :
    (partitionEntries es children).flatten = es := by
  rw [partitionEntries_eq, ← List.flatMap_def]
  refine flatMap_buckets (h.imp fun {a b} hab => ?_) fun e _ => ?_
  · refine (position_targetChild _ a.key).mono (position_targetChild _ b.key) ?_
    rcases Entry.le_iff.mp hab with h | ⟨h, -⟩
    · exact h.le
    · exact h.le
  · simpa using (position_targetChild (children.map (·.keyRange.minKey)) e.key).lt_length
      (by simpa using hne)

/-- An entry is in the bucket at its position and in no other. -/
theorem mem_bucket (hne : children ≠ []) {es : List Entry} {e : Entry} (he : e ∈ es)
    (j : Nat) : (∃ b, (partitionEntries es children)[j]? = some b ∧ e ∈ b) ↔
      j = targetChild (children.map (·.keyRange.minKey)) e.key := by
  have hlt := (position_targetChild (children.map (·.keyRange.minKey)) e.key).lt_length
    (by simpa using hne)
  rw [List.length_map] at hlt
  constructor
  · rintro ⟨b, hb, heb⟩
    have hj : j < children.length := by
      rw [← length_partitionEntries es children]
      exact (List.getElem?_eq_some_iff.mp hb).1
    rw [getElem?_partitionEntries es children hj] at hb
    obtain rfl := Option.some.inj hb
    simpa [eq_comm] using (List.mem_filter.mp heb).2
  · rintro rfl
    exact ⟨_, getElem?_partitionEntries es children hlt, List.mem_filter.mpr ⟨he, by simp⟩⟩

end Buckets

/-! ## Read routing -/

section Walk

variable {w : World} {children : List SSTNode} {ids : List NodeId}

/-- The `min_key` that a scan of the children compares with. -/
def World.fence (w : World) (x : NodeId) : Bytes :=
  (w.seen x).elim .empty (·.keyRange.minKey)

/-- The loop over the children is the scan from the left. -/
theorem nextChild_seen {k : Bytes} : ∀ (ids : List NodeId) (next : NodeId) {w : World},
    (∀ x ∈ ids, (w.seen x).isSome) →
    ∃ u, nextChild k next ids ⟨w, none⟩ = .ok (scan w.fence k next ids) ⟨u, none⟩ ∧
      u.seen = w.seen := by
  intro ids
  induction ids with
  | nil => exact fun next w _ => ⟨w, rfl, rfl⟩
  | cons x ids ih =>
    intro next w h
    obtain ⟨hx, hids⟩ := List.forall_mem_cons.mp h
    obtain ⟨n, hn⟩ := Option.isSome_iff_exists.mp hx
    have hseen : (w.loading x).seen = w.seen := funext (seen_loading x)
    have hstep : nextChild k next (x :: ids) ⟨w, none⟩ =
        (if n.keyRange.minKey ≤ k then nextChild k x ids else pure next) ⟨w.loading x, none⟩ := by
      show EStateM.bind (getNode x) _ ⟨w, none⟩ = _
      simp only [EStateM.bind, getNode_seen hn]
    have hfence : w.fence x = n.keyRange.minKey := by simp [World.fence, hn]
    rw [hstep, scan, hfence]
    split
    · obtain ⟨u, hu, hus⟩ := ih x (w := w.loading x) (by simpa only [hseen] using hids)
      refine ⟨u, ?_, hus.trans hseen⟩
      rw [hu]
      unfold World.fence
      rw [hseen]
    · exact ⟨_, rfl, hseen⟩

/-- Over ascending `min_key`s the scan from the left ends at the position of the key. -/
theorem scan_position (hne : children ≠ [])
    (hasc : Ascending (fun c : SSTNode => c.keyRange.minKey) children)
    (hrow : ids.map w.seen = children.map some) (k : Bytes) :
    ids[targetChild (children.map (·.keyRange.minKey)) k]? =
      some (scan w.fence k (ids.headD invalidNodeId) ids) := by
  have hmins : ids.map w.fence = children.map (·.keyRange.minKey) := by
    have := congrArg (List.map fun o : Option SSTNode => o.elim .empty (·.keyRange.minKey)) hrow
    rw [List.map_map, List.map_map] at this
    exact this
  have hasc' : Ascending w.fence ids := by
    have : (ids.map w.fence).Pairwise (· ≤ ·) := hmins ▸ List.pairwise_map.mpr hasc
    exact List.pairwise_map.mp this
  have hids : ids ≠ [] := by
    rintro rfl
    exact hne (List.map_eq_nil_iff.mp hrow.symm)
  obtain ⟨x, hx, hown⟩ := owns_targetChild w.fence hids k
  rw [hmins] at hx
  cases ids with
  | nil => exact absurd rfl hids
  | cons a as => rw [hx, hown.unique (owns_scan hasc')]; rfl

/-- A path starts where the walk does. -/
theorem findPathFrom_head {k : Bytes} {fuel : Nat} {cur : NodeId} {m m' : Machine World Stop}
    {path : List NodeId} (h : findPathFrom k fuel cur m = .ok path m') :
    ∃ rest, path = cur :: rest := by
  cases fuel with
  | zero => cases h
  | succ fuel =>
    obtain ⟨n, m₁, -, h⟩ := Act.bind_ok h
    split at h
    · cases h
      exact ⟨[], rfl⟩
    · obtain ⟨next, m₂, -, h⟩ := Act.bind_ok h
      obtain ⟨rest, m₃, -, h⟩ := Act.bind_ok h
      cases h
      exact ⟨rest, rfl⟩

/-- At an internal node the walk goes on where the scan of its children ends. -/
theorem findPathFrom_next {k : Bytes} {fuel : Nat} {cur : NodeId} {n : SSTNode}
    {path : List NodeId} (hcur : w.seen cur = some n) (hl : n.isLeaf = false)
    (hkids : ∀ x ∈ n.childIds, (w.seen x).isSome)
    (h : Act.eval (findPathFrom k fuel cur) ⟨w, none⟩ = .ok path) :
    ∃ rest, path =
      cur :: scan w.fence k (n.childIds.headD invalidNodeId) n.childIds :: rest := by
  obtain ⟨m', h⟩ := Act.eval_ok h
  cases fuel with
  | zero => cases h
  | succ fuel =>
    obtain ⟨n', m₁, hn', h⟩ := Act.bind_ok h
    obtain ⟨rfl, rfl⟩ : n = n' ∧ ⟨w.loading cur, none⟩ = m₁ := by
      rw [getNode_seen hcur] at hn'
      cases hn'
      exact ⟨rfl, rfl⟩
    have hseen : (w.loading cur).seen = w.seen := funext (seen_loading cur)
    obtain ⟨u, hu, -⟩ := nextChild_seen (k := k) n.childIds (n.childIds.headD invalidNodeId)
      (w := w.loading cur) (by simpa only [hseen] using hkids)
    have hfence : (w.loading cur).fence = w.fence := by
      unfold World.fence
      rw [hseen]
    rw [hl, if_neg (by simp)] at h
    obtain ⟨next, m₂, hnext, h⟩ := Act.bind_ok h
    rw [hu, hfence] at hnext
    cases hnext
    obtain ⟨rest, m₃, hrest, h⟩ := Act.bind_ok h
    obtain ⟨rest', rfl⟩ := findPathFrom_head hrest
    cases h
    exact ⟨rest', rfl⟩

/-- **Write routing is read routing.** The bucket of an entry and the child `find_path`
goes to are those at the same position, and the buckets in order are the sorted list. -/
theorem routes_agree (hne : children ≠ [])
    (hasc : Ascending (fun c : SSTNode => c.keyRange.minKey) children)
    (hrow : ids.map w.seen = children.map some) :
    (∀ k, ∃ i, Position (children.map (·.keyRange.minKey)) k i ∧
      (∀ es e, e ∈ es → e.key = k → ∀ j,
        (∃ b, (partitionEntries es children)[j]? = some b ∧ e ∈ b) ↔ j = i) ∧
      Act.eval (nextChild k (ids.headD invalidNodeId) ids) ⟨w, none⟩ =
        .ok (ids.getD i invalidNodeId) ∧
      ∀ cur n fuel path, w.seen cur = some n → n.isLeaf = false → n.childIds = ids →
        Act.eval (findPathFrom k fuel cur) ⟨w, none⟩ = .ok path →
        ∃ rest, path = cur :: ids.getD i invalidNodeId :: rest) ∧
    ∀ es, Sorted es → (partitionEntries es children).flatten = es := by
  have hsome : ∀ x ∈ ids, (w.seen x).isSome := by
    intro x hx
    have hx' : w.seen x ∈ children.map some := hrow ▸ List.mem_map_of_mem hx
    obtain ⟨c, -, hc⟩ := List.mem_map.mp hx'
    simp [← hc]
  have hscan : ∀ k, ids.getD (targetChild (children.map (·.keyRange.minKey)) k) invalidNodeId =
      scan w.fence k (ids.headD invalidNodeId) ids := by
    intro k
    rw [List.getD_eq_getElem?_getD, scan_position hne hasc hrow, Option.getD_some]
  refine ⟨fun k => ⟨_, position_targetChild _ k, ?_, ?_, ?_⟩,
    fun es => flatten_partitionEntries hne⟩
  · intro es e he hk j
    subst hk
    exact mem_bucket hne he j
  · obtain ⟨u, hu, -⟩ := nextChild_seen (k := k) ids (ids.headD invalidNodeId) hsome
    rw [hscan, Act.eval, hu]
  · intro cur n fuel path hcur hl hkids hpath
    subst hkids
    rw [hscan]
    exact findPathFrom_next hcur hl hsome hpath

/-- Two cached leaves, the first from the empty key on, the second from a one-byte key. -/
theorem routes_agree_two :
    (partitionEntries [{ key := .byte 97 }, { key := .byte 110 }, { key := .byte 122 }]
      [{ id := 1, level := 0 }, { id := 2, level := 0, keyRange := ⟨.byte 110, .byte 122⟩ }]).flatten
      = [{ key := .byte 97 }, { key := .byte 110 }, { key := .byte 122 }] :=
  (@routes_agree
    { sizing := fun _ => (64, 7)
      cache := (AList.insert 1 { id := 1, level := 0 } ∅).insert 2
        { id := 2, level := 0, keyRange := ⟨.byte 110, .byte 122⟩ } } _ [1, 2]
    (by simp) (List.pairwise_pair.mpr (Bytes.empty_le _)) rfl).2 _ (by unfold Sorted; decide)

end Walk

end GravTree
