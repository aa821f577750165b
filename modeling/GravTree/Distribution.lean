import GravTree.Proof.LocalFlush
import GravTree.Proof.Serve

/-!
# Distributing a buffer

`local_flush` on any row of siblings: every version goes to the child its key belongs to,
the newest version of a key survives there, and the manifest swaps exactly the children
that received something for their replacements. A replacement covers only the entries it
holds, but these lie where the old child's key range lay, so the row stays in order.
-/

namespace GravTree

/-- `KeyRange::contains`. -/
def KeyRange.contains (r : KeyRange) (k : Bytes) : Prop :=
  r.minKey ≤ k ∧ (r.maxKey = .empty ∨ k ≤ r.maxKey)

/-- The entries of a node: in memory, or else in its file. -/
def World.entriesOf (w : World) (c : SSTNode) : List Entry :=
  if c.entriesLoaded then c.buffer
  else (w.disk.node.lookup c.filePath.nodeId).elim [] (·.buffer)

/-- `a` ends before `b` begins. Since an empty upper bound is none, that is asked of the
entries as well. -/
def World.Before (w : World) (a b : SSTNode) : Prop :=
  a.keyRange.maxKey < b.keyRange.minKey ∧ ∀ e ∈ w.entriesOf a, e.key < b.keyRange.minKey

/-- A row of nodes whose entries are sorted with unique keys and whose key ranges contain
them, are disjoint and ascend. -/
structure World.Siblings (w : World) (cs : List SSTNode) : Prop where
  unique : ∀ c ∈ cs, UniqueKeys (w.entriesOf c)
  ranged : ∀ c ∈ cs, ∀ e ∈ w.entriesOf c, c.keyRange.contains e.key
  apart : cs.Pairwise w.Before

/-- The manifest has given out the id of the node, and its entries can be read. -/
def World.Readable (w : World) (c : SSTNode) : Prop :=
  c.id < w.manifest.nextId ∧ (c.entriesLoaded = true ∨
    c.filePath.nodeId < w.manifest.nextId ∧ w.disk.node.lookup c.filePath.nodeId ≠ none)

section Place

variable {w u : World} {c : SSTNode} {part : List Entry}

/-- The node with its entries loaded. -/
def World.full (w : World) (c : SSTNode) : SSTNode :=
  { c with buffer := w.entriesOf c, entriesLoaded := true }

theorem loadEntries_full (h : w.Readable c) :
    Act.Runs c.loadEntries w (w.full c) w fun _ => True := by
  unfold SSTNode.loadEntries
  by_cases hl : c.entriesLoaded = true
  · rw [if_pos hl]
    have hfull : w.full c = c := by
      obtain ⟨_, _, _, _, _, _, _, l⟩ := c
      obtain rfl : l = true := hl
      rfl
    rw [hfull]
    exact Act.Runs.pure c w
  · rw [if_neg hl]
    obtain ⟨n, hn⟩ := Option.ne_none_iff_exists'.mp (h.2.resolve_left hl).2
    refine Act.Runs.bind (readFile_runs (show w.disk.node.lookup _ = some n from hn) true) ?_
    have hent : w.entriesOf c = n.buffer := by
      rw [World.entriesOf, if_neg hl, show w.disk.node.lookup _ = some n from hn]
      rfl
    rw [World.full, hent]
    exact Act.Runs.pure _ w

theorem file_spawn (hc : c.id < w.rest.next) {x : NodeId} (hx : x < w.rest.next) :
    ((w.spawn c part).cell x).file = (w.cell x).file := by
  rw [cell_spawn hc, if_neg (c := x = w.rest.next) hx.ne]
  split <;> rfl

theorem valid_spawn (hc : c.id < w.rest.next) (x : NodeId) :
    ((w.spawn c part).cell x).Valid ↔ x = w.rest.next ∨ (w.cell x).Valid ∧ x ≠ c.id := by
  rw [cell_spawn hc]
  by_cases hxc : x = c.id
  · simp [hxc, Cell.Valid, hc.ne]
  · by_cases hxn : x = w.rest.next
    · simp [hxn, Cell.Valid, hc.ne']
    · simp [hxc, hxn]

/-- What only concerns ids given out before. -/
theorem Readable.spawn {d : SSTNode} (hc : c.id < w.rest.next) (h : w.Readable d) :
    (w.spawn c part).Readable d ∧ (w.spawn c part).entriesOf d = w.entriesOf d := by
  have hnext : w.rest.next ≤ (w.spawn c part).rest.next := by
    rw [rest_spawn]
    exact Nat.le_succ _
  by_cases hl : d.entriesLoaded = true
  · exact ⟨⟨h.1.trans_le hnext, .inl hl⟩, by simp [World.entriesOf, hl]⟩
  · obtain ⟨hlt, hfile⟩ := h.2.resolve_left hl
    have hsame := @file_spawn w c part hc _ hlt
    refine ⟨⟨h.1.trans_le hnext, .inr ⟨hlt.trans_le hnext, fun h => hfile (hsame.symm.trans h)⟩⟩, ?_⟩
    rw [World.entriesOf, World.entriesOf, if_neg hl, if_neg hl]
    exact congrArg (fun f => Option.elim f [] (·.buffer)) hsame

end Place

/-- The nodes `cs` take the places of those in `ps`, which held the entries `held` and
received the partitions. -/
structure Placed (held : SSTNode → List Entry) (ps : List (SSTNode × List Entry))
    (cs : List SSTNode) (w u : World) : Prop where
  nodes : List.Forall₂ (fun p c => (p.2 = [] → c = p.1) ∧ (p.2 ≠ [] → ∃ id, w.rest.next ≤ id ∧
    c = created w.rest.sizing id p.1.level (mergeSortedEntries p.2 (held p.1)) p.1.childIds)) ps cs
  files : ∀ x < w.rest.next, (u.cell x).file = (w.cell x).file
  next : u.rest.next = w.rest.next + (ps.filter (·.2 ≠ [])).length
  valid : ∀ x, (u.cell x).Valid ↔ w.rest.next ≤ x ∧ x < u.rest.next ∨
    (w.cell x).Valid ∧ x ∉ (ps.filter (·.2 ≠ [])).map (·.1.id)
  ids : ∀ c ∈ cs, w.rest.next ≤ c.id ∨ ∃ p ∈ ps, p.1.id = c.id
  fresh : (cs.map (·.id)).filter (w.rest.next ≤ ·) =
    List.range' w.rest.next (ps.filter (·.2 ≠ [])).length

/-- The loop of `local_flush`, on nodes loaded or not. -/
theorem localFlushLoop_places {held : SSTNode → List Entry} :
    ∀ (ps : List (SSTNode × List Entry)) (w : World),
    (∀ p ∈ ps, w.Readable p.1 ∧ w.entriesOf p.1 = held p.1) →
    ∃ cs u, Act.Runs (localFlushLoop ps) w
        (cs, ⟨cs.map (·.id), (ps.filter (·.2 ≠ [])).map (·.1.id)⟩) u (fun _ => True) ∧
      Placed held ps cs w u := by
  intro ps
  induction ps with
  | nil =>
    intro w _
    refine ⟨[], w, Act.Runs.pure _ w, .nil, fun _ _ => rfl, rfl, fun x => ?_, by simp, rfl⟩
    simp
  | cons p ps ih =>
    obtain ⟨c, part⟩ := p
    intro w h
    obtain ⟨⟨hread, hheld⟩, hps⟩ := List.forall_mem_cons.mp h
    by_cases hp : part = []
    · obtain ⟨cs, u, hrun, P⟩ := ih w hps
      refine ⟨c :: cs, u, ?_, .cons ⟨fun _ => rfl, (absurd hp ·)⟩ P.nodes, P.files,
        ?_, ?_, fun d hd => ?_, ?_⟩
      · simp only [localFlushLoop, hp, List.isEmpty_nil, if_true, List.map_cons, List.filter_cons,
          ne_eq, not_true_eq_false, decide_false, Bool.false_eq_true, if_false]
        exact Act.Runs.bind hrun (Act.Runs.pure _ u)
      · simpa [hp] using P.next
      · simpa [hp] using P.valid
      · rcases List.mem_cons.mp hd with rfl | hd
        · exact .inr ⟨_, List.mem_cons_self, rfl⟩
        · refine (P.ids d hd).imp_right fun hex => ?_
          obtain ⟨q, hq, hqd⟩ := hex
          exact ⟨q, List.mem_cons_of_mem _ hq, hqd⟩
      · have hlt : ¬ w.rest.next ≤ c.id := Nat.not_le_of_gt hread.1
        simpa [hp, hlt] using P.fresh
    · have hid : (w.full c).id < w.rest.next := hread.1
      obtain ⟨cs, u, hrun, P⟩ := ih (w.spawn (w.full c) part) fun q hq =>
        ⟨(Readable.spawn hid (hps q hq).1).1, (Readable.spawn hid (hps q hq).1).2.trans (hps q hq).2⟩
      have hnext : (w.spawn (w.full c) part).rest.next = w.rest.next + 1 := by rw [rest_spawn]
      have hsizing : (w.spawn (w.full c) part).rest.sizing = w.rest.sizing := by rw [rest_spawn]
      have hids : ∀ d ∈ cs, w.rest.next + 1 ≤ d.id ∨ ∃ q ∈ ps, q.1.id = d.id := hnext ▸ P.ids
      refine ⟨(spawned w (w.full c) part).loaded :: cs, u, ?_, .cons ⟨(absurd · hp), fun _ => ?_⟩ ?_,
        ?_, ?_, ?_, fun d hd => ?_, ?_⟩
      · simp only [localFlushLoop, List.isEmpty_iff, hp, if_false, List.map_cons, List.filter_cons,
          ne_eq, not_false_eq_true, decide_true, if_true]
        refine Act.Runs.bind (loadEntries_full hread) (spawn_runs (c := w.full c) trivial ?_)
        exact Act.Runs.bind hrun (Act.Runs.pure _ u)
      · exact ⟨w.rest.next, le_rfl, by rw [← hheld]; rfl⟩
      · refine P.nodes.imp fun q d hd => ⟨hd.1, fun hq => ?_⟩
        obtain ⟨id, hle, hd⟩ := hd.2 hq
        rw [hnext] at hle
        exact ⟨id, Nat.le_of_succ_le hle, hsizing ▸ hd⟩
      · intro x hx
        rw [P.files x (hnext ▸ Nat.lt_succ_of_lt hx), file_spawn hid hx]
      · rw [P.next, hnext]
        simp [hp, Nat.add_assoc, Nat.add_comm 1]
      · intro x
        have hlast : w.rest.next < u.rest.next := by
          rw [P.next, hnext]
          exact Nat.lt_of_lt_of_le (Nat.lt_succ_self _) (Nat.le_add_right ..)
        have hold : w.rest.next ∉ (ps.filter (·.2 ≠ [])).map (·.1.id) := fun hmem => by
          obtain ⟨q, hq, hqid⟩ := List.mem_map.mp hmem
          exact (hps q (List.mem_of_mem_filter hq)).1.1.ne hqid
        rw [P.valid, valid_spawn hid, hnext, List.filter_cons, if_pos (by simpa using hp),
          List.map_cons, List.mem_cons, not_or]
        rcases Nat.lt_trichotomy x w.rest.next with hx | rfl | hx
        · simp [Nat.not_le_of_gt hx, Nat.not_le_of_gt (Nat.lt_succ_of_lt hx), hx.ne, World.full,
            and_assoc]
        · exact iff_of_true (.inr ⟨.inl rfl, hold⟩) (.inl ⟨le_rfl, hlast⟩)
        · simp [hx.le, Nat.succ_le_of_lt hx, hx.ne', World.full, and_assoc]
      · rcases List.mem_cons.mp hd with rfl | hd
        · exact .inl le_rfl
        · refine (hids d hd).imp (Nat.le_succ _).trans fun hex => ?_
          obtain ⟨q, hq, hqd⟩ := hex
          exact ⟨q, List.mem_cons_of_mem _ hq, hqd⟩
      · have hrest : ∀ x ∈ cs.map (·.id),
            decide (w.rest.next ≤ x) = decide ((w.spawn (w.full c) part).rest.next ≤ x) := by
          intro x hx
          obtain ⟨d, hd, rfl⟩ := List.mem_map.mp hx
          rw [hnext, decide_eq_decide]
          rcases hids d hd with hle | ⟨q, hq, hqd⟩
          · exact iff_of_true ((Nat.le_succ _).trans hle) hle
          · have hlt : d.id < w.rest.next := hqd ▸ (hps q hq).1.1
            exact iff_of_false (Nat.not_le_of_gt hlt) (Nat.not_le_of_gt (Nat.lt_succ_of_lt hlt))
        have hid : (spawned w (w.full c) part).loaded.id = w.rest.next := rfl
        rw [List.map_cons, hid, List.filter_cons, if_pos (by simp), List.filter_congr hrest, P.fresh,
          hnext, List.filter_cons, if_pos (by simpa using hp)]
        rfl

/-! ## One child -/

/-- The range of a new node is from its first key to its last. -/
theorem range_created {sizing : Sizing} {id level : Nat} {es : List Entry} {ks : List NodeId}
    (h : es ≠ []) : ∃ front ∈ sortBuffer es, ∃ back ∈ sortBuffer es,
      (created sizing id level es ks).keyRange = ⟨front.key, back.key⟩ ∧
      ∀ e ∈ sortBuffer es, front.key ≤ e.key ∧ e.key ≤ back.key := by
  have hu := uniqueKeys_sortBuffer es
  have hne : sortBuffer es ≠ [] := fun h' => h (sortBuffer_eq_nil.mp h')
  have hmax : ∀ e ∈ sortBuffer es, e.key ≤ ((sortBuffer es).getLast hne).key := by
    intro e he
    rw [← List.dropLast_append_getLast hne] at he hu
    rcases List.mem_append.mp he with he | he
    · exact ((List.pairwise_append.mp hu).2.2 e he _ (List.mem_singleton_self _)).le
    · rw [List.mem_singleton.mp he]
  have hrange : (created sizing id level es ks).keyRange =
      ⟨((sortBuffer es).head hne).key, ((sortBuffer es).getLast hne).key⟩ := by
    show (SSTNode.build sizing id level es ks).keyRange = _
    simp only [SSTNode.build, SSTNode.buildBloom, List.head?_eq_some_head hne,
      List.getLast?_eq_some_getLast hne]
  refine ⟨_, List.head_mem hne, _, List.getLast_mem hne, hrange, fun e he => ⟨?_, hmax e he⟩⟩
  obtain ⟨a, as, has⟩ := List.exists_cons_of_ne_nil hne
  simp only [has, List.head_cons] at he hu ⊢
  exact hu.sorted.key_le e he

/-- The node `c'` took the place of `c` and received `part`. -/
structure Received (w u : World) (part : List Entry) (c c' : SSTNode) : Prop where
  kept : part = [] → c' = c ∧ u.entriesOf c' = w.entriesOf c
  made : part ≠ [] → u.entriesOf c' = sortBuffer (mergeSortedEntries part (w.entriesOf c)) ∧
    ∃ front ∈ u.entriesOf c', ∃ back ∈ u.entriesOf c', c'.keyRange = ⟨front.key, back.key⟩ ∧
      ∀ e ∈ u.entriesOf c', front.key ≤ e.key ∧ e.key ≤ back.key

namespace Received

variable {w u : World} {part : List Entry} {c c' : SSTNode}

theorem unique (R : Received w u part c c') (hc : UniqueKeys (w.entriesOf c)) :
    UniqueKeys (u.entriesOf c') := by
  by_cases hp : part = []
  · rw [(R.kept hp).2]
    exact hc
  · rw [(R.made hp).1]
    exact uniqueKeys_sortBuffer _

/-- What is found there is the newer of what came and what was there. -/
theorem find? (R : Received w u part c c') (hpart : Sorted part) (hc : UniqueKeys (w.entriesOf c))
    (k : Bytes) : (u.entriesOf c').find? (·.key = k) =
      newer (newest k part) ((w.entriesOf c).find? (·.key = k)) := by
  by_cases hp : part = []
  · rw [(R.kept hp).2, hp]
    rfl
  · rw [(R.made hp).1, find?_sortBuffer, ← find?_eq_newest (sorted_merge hpart hc.sorted),
      find?_mergeSortedEntries hpart hc.sorted, find?_eq_newest hpart]

theorem mem (R : Received w u part c c') {e : Entry} (he : e ∈ u.entriesOf c') :
    e ∈ part ∨ e ∈ w.entriesOf c := by
  by_cases hp : part = []
  · exact .inr ((R.kept hp).2 ▸ he)
  · rw [(R.made hp).1] at he
    exact mem_of_mem_merge (mem_of_mem_sortBuffer he)

theorem ranged (R : Received w u part c c')
    (hc : ∀ e ∈ w.entriesOf c, c.keyRange.contains e.key) :
    ∀ e ∈ u.entriesOf c', c'.keyRange.contains e.key := by
  by_cases hp : part = []
  · obtain ⟨rfl, hent⟩ := R.kept hp
    rw [hent]
    exact hc
  · obtain ⟨-, front, -, back, -, hrange, hall⟩ := R.made hp
    intro e he
    rw [hrange]
    exact ⟨(hall e he).1, .inr (hall e he).2⟩

/-- Below a bound there was, there is: for the upper end of the range and the entries. -/
theorem below (R : Received w u part c c') {k : Bytes} (hpart : ∀ e ∈ part, e.key < k)
    (hc : c.keyRange.maxKey < k ∧ ∀ e ∈ w.entriesOf c, e.key < k) :
    c'.keyRange.maxKey < k ∧ ∀ e ∈ u.entriesOf c', e.key < k := by
  have hall : ∀ e ∈ u.entriesOf c', e.key < k := fun e he => (R.mem he).elim (hpart e) (hc.2 e)
  refine ⟨?_, hall⟩
  by_cases hp : part = []
  · rw [(R.kept hp).1]
    exact hc.1
  · obtain ⟨-, front, -, back, hback, hrange, -⟩ := R.made hp
    rw [hrange]
    exact hall back hback

/-- Nor does the lower end of the range go down. -/
theorem above (R : Received w u part c c') (hpart : ∀ e ∈ part, c.keyRange.minKey ≤ e.key)
    (hc : ∀ e ∈ w.entriesOf c, c.keyRange.minKey ≤ e.key) :
    c.keyRange.minKey ≤ c'.keyRange.minKey := by
  by_cases hp : part = []
  · rw [(R.kept hp).1]
  · obtain ⟨-, front, hfront, back, -, hrange, -⟩ := R.made hp
    rw [hrange]
    exact (R.mem hfront).elim (hpart front) (hc front)

end Received

/-! ## The row -/

instance (fences : List Bytes) (k : Bytes) (i : Nat) : Decidable (Fence.Position fences k i) :=
  decidable_of_iff (targetChild fences k = i)
    ⟨fun h => h ▸ position_targetChild fences k, (position_targetChild fences k).unique⟩

/-- The lower ends of the key ranges. -/
abbrev minKeys (cs : List SSTNode) : List Bytes := cs.map (·.keyRange.minKey)

/-- Some entry of the buffer belongs to the child at this position. -/
def Receives (buffer : List Entry) (cs : List SSTNode) (i : Nat) : Prop :=
  ∃ e ∈ buffer, Fence.Position (minKeys cs) e.key i

instance (buffer : List Entry) (cs : List SSTNode) (i : Nat) :
    Decidable (Receives buffer cs i) := inferInstanceAs (Decidable (∃ e ∈ buffer, _))

/-- A call of `local_flush` on a cached parent and a row of siblings. -/
structure Flushing (w : World) (parentId : NodeId) (buffer : List Entry) (cs : List SSTNode) :
    Prop where
  parent : ∃ p, w.cache.lookup parentId = some p ∧ p.buffer = buffer
  nonempty : cs ≠ []
  siblings : w.Siblings cs
  readable : ∀ c ∈ cs, w.Readable c

/-- What it does: `cs` becomes `cs'`, and `r` is returned. -/
structure Distributed (w u : World) (buffer : List Entry) (cs cs' : List SSTNode)
    (r : FlushResult) : Prop where
  holds : ∀ k, ((∃ x ∈ buffer, x.key = k) ∨ ∃ c ∈ cs, ∃ x ∈ w.entriesOf c, x.key = k) →
    ∃ i c c' e, Fence.Position (minKeys cs) k i ∧ cs[i]? = some c ∧ cs'[i]? = some c' ∧
      e ∈ u.entriesOf c' ∧ e.key = k ∧ e ∈ buffer ++ w.entriesOf c ∧
      (∀ x ∈ buffer ++ w.entriesOf c, x.key = k → x.seqNo ≤ e.seqNo) ∧
      ∀ j d, cs'[j]? = some d → (∃ x ∈ u.entriesOf d, x.key = k) → j = i
  origin : ∀ c' ∈ cs', ∀ e ∈ u.entriesOf c', e ∈ buffer ∨ ∃ c ∈ cs, e ∈ w.entriesOf c
  siblings : u.Siblings cs'
  length : cs'.length = cs.length
  kept : ∀ i, ¬ Receives buffer cs i → cs'[i]? = cs[i]?
  newIds : r.newChildIds = cs'.map (·.id)
  oldIds : r.oldChildIds = (cs.zipIdx.filter fun p => Receives buffer cs p.2).map (·.1.id)
  fresh : r.newChildIds.filter (w.manifest.nextId ≤ ·) =
    List.range' w.manifest.nextId r.oldChildIds.length
  valid : ∀ x, u.manifest.nodePath x ≠ none ↔
    x ∈ r.newChildIds.filter (w.manifest.nextId ≤ ·) ∨
      w.manifest.nodePath x ≠ none ∧ x ∉ r.oldChildIds

/-- The partition of the child at position `i`. -/
def partOf (buffer : List Entry) (cs : List SSTNode) (i : Nat) : List Entry :=
  (stableSort buffer).filter fun e => targetChild (minKeys cs) e.key = i

section Row

variable {buffer : List Entry} {cs : List SSTNode} {e : Entry} {i j : Nat} {k : Bytes}

theorem mem_partOf : e ∈ partOf buffer cs i ↔ e ∈ buffer ∧ Fence.Position (minKeys cs) e.key i := by
  have hpos : targetChild (minKeys cs) e.key = i ↔ Fence.Position (minKeys cs) e.key i :=
    ⟨fun h => h ▸ position_targetChild _ _, (position_targetChild _ _).unique⟩
  simp [partOf, hpos]

theorem partOf_ne_nil : partOf buffer cs i ≠ [] ↔ Receives buffer cs i := by
  constructor
  · intro h
    obtain ⟨e, he⟩ := List.exists_mem_of_ne_nil _ h
    exact ⟨e, mem_partOf.mp he⟩
  · rintro ⟨e, he⟩
    exact List.ne_nil_of_mem (mem_partOf.mpr he)

theorem newest_partOf (h : Fence.Position (minKeys cs) k i) :
    newest k (partOf buffer cs j) = if j = i then newest k buffer else none := by
  have hi : targetChild (minKeys cs) k = i := (position_targetChild _ _).unique h
  have hsort : newest k (stableSort buffer) = newest k buffer := by
    rw [← find?_eq_newest (sorted_stableSort buffer), find?_stableSort]
  rw [← hsort, partOf, newest, newest, List.filter_filter]
  split
  · rename_i hji
    congr 1
    refine List.filter_congr fun e _ => ?_
    by_cases hk : e.key = k <;> simp [hk, hji, hi]
  · rename_i hji
    have hnone : (stableSort buffer).filter
        (fun e => e.key = k && targetChild (minKeys cs) e.key = j) = [] := by
      refine List.filter_eq_nil_iff.mpr fun e _ => ?_
      simp only [Bool.and_eq_true, decide_eq_true_eq, not_and]
      rintro rfl hj
      exact hji (hj.symm.trans hi)
    rw [hnone]
    rfl

/-- Each child with its partition. -/
theorem zip_partOf (buffer : List Entry) (cs : List SSTNode) :
    cs.zip (partitionEntries (stableSort buffer) cs) =
      cs.zipIdx.map fun p => (p.1, partOf buffer cs p.2) := by
  refine List.ext_getElem ?_ fun i hi hi' => ?_
  · simp [length_partitionEntries]
  · have hlen : i < cs.length := by simpa using hi'
    obtain ⟨hi₁, hpart⟩ := List.getElem?_eq_some_iff.mp
      (getElem?_partitionEntries (stableSort buffer) cs hlen)
    rw [List.getElem_zip, List.getElem_map, List.getElem_zipIdx, hpart, Nat.zero_add]
    rfl

/-- A key that a child of a row holds belongs to its position. -/
theorem World.Siblings.position {w : World} (S : w.Siblings cs) {c : SSTNode}
    (hc : cs[i]? = some c) (he : e ∈ w.entriesOf c) : Fence.Position (minKeys cs) e.key i := by
  refine .inl ⟨c.keyRange.minKey, by simp [hc], (S.ranged c (List.mem_of_getElem? hc) e he).1, ?_⟩
  intro j b hij hb
  obtain ⟨d, hd, rfl⟩ : ∃ d, cs[j]? = some d ∧ d.keyRange.minKey = b := by simpa using hb
  obtain ⟨hi, rfl⟩ := List.getElem?_eq_some_iff.mp hc
  obtain ⟨hj, rfl⟩ := List.getElem?_eq_some_iff.mp hd
  exact (List.pairwise_iff_getElem.mp S.apart i j hi hj hij).2 e he

section Result

variable {w u : World} {cs' : List SSTNode}

/-- The children one by one. -/
theorem Placed.received (P : Placed w.entriesOf (cs.zipIdx.map fun p => (p.1, partOf buffer cs p.2))
    cs' w u) (hcs : ∀ c ∈ cs, w.Readable c) {c : SSTNode} (hc : cs[i]? = some c) :
    ∃ c', cs'[i]? = some c' ∧ Received w u (partOf buffer cs i) c c' := by
  obtain ⟨hi, rfl⟩ := List.getElem?_eq_some_iff.mp hc
  have hlen : cs.length = cs'.length := by simpa using P.nodes.length_eq
  have hnode := P.nodes.get (i := i) (by simpa using hi) (hlen ▸ hi)
  simp only [List.get_eq_getElem, List.getElem_map, List.getElem_zipIdx, Nat.zero_add] at hnode
  refine ⟨cs'[i], by simp, fun hp => ⟨hnode.1 hp, ?_⟩, fun hp => ?_⟩
  · rw [hnode.1 hp, World.entriesOf, World.entriesOf]
    split
    · rfl
    · rename_i hl
      have hfile := (hcs cs[i] (List.getElem_mem hi)).2.resolve_left hl
      exact congrArg (fun f => Option.elim f [] (·.buffer)) (P.files _ hfile.1)
  · obtain ⟨id, -, hmade⟩ := hnode.2 hp
    have hne : mergeSortedEntries (partOf buffer cs i) (w.entriesOf cs[i]) ≠ [] := by
      obtain ⟨e, he⟩ := List.exists_mem_of_ne_nil _ hp
      obtain ⟨e', he', -⟩ : Covers (mergeSortedEntries _ (w.entriesOf cs[i])) e :=
        covers_merge (.inl he)
      exact List.ne_nil_of_mem he'
    have hent : u.entriesOf cs'[i] =
        sortBuffer (mergeSortedEntries (partOf buffer cs i) (w.entriesOf cs[i])) := by
      rw [hmade]
      rfl
    refine ⟨hent, ?_⟩
    rw [hent]
    obtain ⟨front, hfront, back, hback, hrange, hall⟩ := range_created hne
    exact ⟨front, hfront, back, hback, by rw [hmade]; exact hrange, hall⟩

/-- **The row stays a row.** -/
theorem World.Siblings.received (S : w.Siblings cs) (hlen : cs'.length = cs.length)
    (h : ∀ i c, cs[i]? = some c →
      ∃ c', cs'[i]? = some c' ∧ Received w u (partOf buffer cs i) c c') : u.Siblings cs' := by
  have hof : ∀ c' ∈ cs', ∃ i c, c ∈ cs ∧ Received w u (partOf buffer cs i) c c' := by
    intro c' hc'
    obtain ⟨i, hi, rfl⟩ := List.getElem_of_mem hc'
    obtain ⟨c', hc', R⟩ := h i cs[i] (by simp)
    obtain rfl := Option.some.inj ((List.getElem?_eq_getElem hi).symm.trans hc')
    exact ⟨i, cs[i], by simp, R⟩
  refine ⟨fun c' hc' => ?_, fun c' hc' => ?_, List.pairwise_iff_getElem.mpr fun i j hi hj hij => ?_⟩
  · obtain ⟨i, c, hc, R⟩ := hof c' hc'
    exact R.unique (S.unique c hc)
  · obtain ⟨i, c, hc, R⟩ := hof c' hc'
    exact R.ranged (S.ranged c hc)
  · obtain ⟨a, ha, Ra⟩ := h i cs[i] (by simp)
    obtain ⟨b, hb, Rb⟩ := h j cs[j] (by simp)
    obtain rfl := Option.some.inj ((List.getElem?_eq_getElem hi).symm.trans ha)
    obtain rfl := Option.some.inj ((List.getElem?_eq_getElem hj).symm.trans hb)
    have hj' : (minKeys cs)[j]? = some cs[j].keyRange.minKey := by simp [show j < cs.length by omega]
    have hapart := List.pairwise_iff_getElem.mp S.apart i j (by omega) (by omega) hij
    have hlow : cs[j].keyRange.minKey ≤ cs'[j].keyRange.minKey := by
      refine Rb.above (fun e he => ?_) fun e he => (S.ranged _ (by simp) e he).1
      rcases (mem_partOf.mp he).2 with ⟨m, hm, hle, -⟩ | ⟨rfl, -⟩
      · rw [hj'] at hm
        exact Option.some.inj hm ▸ hle
      · omega
    obtain ⟨hmax, hall⟩ := Ra.below
      (fun e he => (mem_partOf.mp he).2.lt_of_later hij hj') hapart
    exact ⟨hmax.trans_le hlow, fun e he => (hall e he).trans_le hlow⟩

/-- What is found at a position after the flush. -/
theorem World.Siblings.find?_received (S : w.Siblings cs) {c c' : SSTNode} (hc : cs[j]? = some c)
    (R : Received w u (partOf buffer cs j) c c') (hi : Fence.Position (minKeys cs) k i) :
    (u.entriesOf c').find? (·.key = k) =
      if j = i then newest k (buffer ++ w.entriesOf c) else none := by
  have hu := S.unique c (List.mem_of_getElem? hc)
  have hsort : Sorted (partOf buffer cs j) := (sorted_stableSort buffer).sublist List.filter_sublist
  rw [R.find? hsort hu, newest_partOf hi]
  split
  · rw [newest_append, find?_eq_newest hu.sorted]
  · rename_i hji
    rw [newer_none_left]
    refine List.find?_eq_none.mpr fun e he => ?_
    simp only [decide_eq_true_eq]
    rintro rfl
    exact hji ((S.position hc he).unique hi)

/-- **Every key is held once**, at its position, with its newest version. -/
theorem World.Siblings.holds (S : w.Siblings cs) (hne : cs ≠ []) (hlen : cs'.length = cs.length)
    (h : ∀ i c, cs[i]? = some c →
      ∃ c', cs'[i]? = some c' ∧ Received w u (partOf buffer cs i) c c') (k : Bytes)
    (hk : (∃ x ∈ buffer, x.key = k) ∨ ∃ c ∈ cs, ∃ x ∈ w.entriesOf c, x.key = k) :
    ∃ i c c' e, Fence.Position (minKeys cs) k i ∧ cs[i]? = some c ∧ cs'[i]? = some c' ∧
      e ∈ u.entriesOf c' ∧ e.key = k ∧ e ∈ buffer ++ w.entriesOf c ∧
      (∀ x ∈ buffer ++ w.entriesOf c, x.key = k → x.seqNo ≤ e.seqNo) ∧
      ∀ j d, cs'[j]? = some d → (∃ x ∈ u.entriesOf d, x.key = k) → j = i := by
  obtain ⟨i, hi⟩ : ∃ i, Fence.Position (minKeys cs) k i := ⟨_, position_targetChild _ k⟩
  have hlt : i < cs.length := by simpa using hi.lt_length (by simpa using hne)
  have hc : cs[i]? = some cs[i] := by simp
  obtain ⟨c', hc', R⟩ := h i _ hc
  have hfind := S.find?_received hc R hi
  rw [if_pos rfl] at hfind
  have hsome : newest k (buffer ++ w.entriesOf cs[i]) ≠ none := by
    intro hnone
    have hno := newest_eq_none hnone
    rcases hk with ⟨x, hx, hxk⟩ | ⟨d, hd, x, hx, hxk⟩
    · exact hno x (List.mem_append_left _ hx) hxk
    · obtain ⟨j, hj, rfl⟩ := List.getElem_of_mem hd
      have hji : j = i := (S.position (by simp) hx).unique (hxk.symm ▸ hi)
      subst hji
      exact hno x (List.mem_append_right _ hx) hxk
  obtain ⟨e, he⟩ := Option.ne_none_iff_exists'.mp hsome
  obtain ⟨hmem, hek, hnew⟩ := newest_mem he
  refine ⟨i, _, c', e, hi, hc, hc', List.mem_of_find?_eq_some (hfind.trans he), hek, hmem, hnew, ?_⟩
  rintro j d hd ⟨x, hx, hxk⟩
  by_contra hji
  have hj : j < cs.length := hlen ▸ (List.getElem?_eq_some_iff.mp hd).1
  obtain ⟨d', hd', Rd⟩ := h j cs[j] (by simp)
  obtain rfl : d = d' := Option.some.inj (hd.symm.trans hd')
  have hfind := S.find?_received (by simp) Rd hi
  rw [if_neg hji, List.find?_eq_none] at hfind
  exact hfind x hx (by simpa using hxk)

end Result

end Row

/-- **`local_flush` distributes the buffer of a parent** and reports exactly what it did. -/
theorem localFlush_distributes {w : World} {parentId : NodeId} {buffer : List Entry}
    {cs : List SSTNode} (C : Flushing w parentId buffer cs) :
    ∃ cs' r u, localFlush parentId cs ⟨w, none⟩ = .ok (cs', r) ⟨u, none⟩ ∧
      Distributed w u buffer cs cs' r := by
  obtain ⟨p, hp, rfl⟩ := C.parent
  -- sorting the parent's buffer changes the cache only
  obtain ⟨v, hv⟩ : ∃ v, v = w.setNode parentId { p with buffer := stableSort p.buffer } := ⟨_, rfl⟩
  have hsort : w.modifyNode parentId (fun p => { p with buffer := stableSort p.buffer }) = v := by
    rw [World.modifyNode, hp, hv]
  have hread : ∀ c ∈ cs, v.Readable c := hv ▸ C.readable
  have hheld : v.entriesOf = w.entriesOf := hv ▸ rfl
  have hpart : Act.Reads (getNode parentId) v { p with buffer := stableSort p.buffer } :=
    getNode_reads (by rw [hv, World.cell_setNode, if_pos rfl])
  obtain ⟨cs', u, hrun, P⟩ := @localFlushLoop_places w.entriesOf
    (cs.zipIdx.map fun q => (q.1, partOf p.buffer cs q.2)) v fun q hq => by
      obtain ⟨r, hr, rfl⟩ := List.mem_map.mp hq
      have hc : cs[r.2]? = some r.1 := List.mem_zipIdx_iff_getElem?.mp hr
      exact ⟨hread _ (List.mem_of_getElem? hc), by rw [hheld]⟩
  have hcall : Act.Runs (localFlush parentId cs) w (cs', ⟨cs'.map (·.id), ((cs.zipIdx.map fun q =>
      (q.1, partOf p.buffer cs q.2)).filter (·.2 ≠ [])).map (·.1.id)⟩) u fun _ => True := by
    refine Act.Runs.update_bind ?_
    rw [hsort]
    refine Act.Reads.bind hpart ?_
    rw [zip_partOf]
    exact hrun
  have hlen : cs'.length = cs.length := by simpa using P.nodes.length_eq.symm
  have P' : Placed w.entriesOf (cs.zipIdx.map fun q => (q.1, partOf p.buffer cs q.2)) cs' w u := by
    subst hv
    exact ⟨P.nodes, P.files, P.next, P.valid, P.ids, P.fresh⟩
  have hrec : ∀ i c, cs[i]? = some c →
      ∃ c', cs'[i]? = some c' ∧ Received w u (partOf p.buffer cs i) c c' :=
    fun _ _ => P'.received C.readable
  have hold : ((cs.zipIdx.map fun q => (q.1, partOf p.buffer cs q.2)).filter (·.2 ≠ [])) =
      (cs.zipIdx.filter fun q => Receives p.buffer cs q.2).map
        fun q => (q.1, partOf p.buffer cs q.2) := by
    rw [List.filter_map]
    congr 1
    exact List.filter_congr fun q _ => decide_eq_decide.mpr partOf_ne_nil
  refine ⟨cs', _, u, hcall.ok_eq, fun k => C.siblings.holds C.nonempty hlen hrec k, ?_,
    C.siblings.received hlen hrec, hlen, ?_, rfl, ?_, ?_, ?_⟩
  · intro c' hc' e he
    obtain ⟨i, hi, rfl⟩ := List.getElem_of_mem hc'
    have hi₀ : i < cs.length := hlen ▸ hi
    obtain ⟨c', hc', R⟩ := hrec i cs[i] (by simp)
    obtain rfl := Option.some.inj ((List.getElem?_eq_getElem hi).symm.trans hc')
    rcases R.mem he with he | he
    · exact .inl (mem_partOf.mp he).1
    · exact .inr ⟨_, List.getElem_mem _, he⟩
  · intro i hi
    have hnil : partOf p.buffer cs i = [] := not_ne_iff.mp fun h => hi (partOf_ne_nil.mp h)
    cases hc : cs[i]? with
    | none => rw [List.getElem?_eq_none_iff] at hc ⊢; omega
    | some c =>
      obtain ⟨c', hc', R⟩ := hrec i c hc
      rw [hc', (R.kept hnil).1]
  · show List.map _ (List.filter _ _) = _
    rw [hold, List.map_map]
    rfl
  · show List.filter _ _ = List.range' _ (List.map _ (List.filter _ _)).length
    rw [List.length_map]
    exact P'.fresh
  · intro x
    rw [nodePath_ne_none, nodePath_ne_none, P'.valid]
    refine or_congr ?_ Iff.rfl
    have hfresh : (cs'.map (·.id)).filter (w.manifest.nextId ≤ ·) = _ := P'.fresh
    show _ ↔ x ∈ (cs'.map (·.id)).filter (w.manifest.nextId ≤ ·)
    rw [hfresh, List.mem_range'_1, P'.next]

/-- Two versions of a key, and a key between the ranges of two leaves. -/
def arrivals : List Entry :=
  [{ key := .byte 6, seqNo := 7 }, { key := .byte 4, seqNo := 8 }, { key := .byte 6, seqNo := 9 }]

/-- Two leaves, of which only the first one is loaded. -/
def leafPair : List SSTNode :=
  [{ id := 1, level := 0, keyRange := ⟨.byte 1, .byte 3⟩, entriesLoaded := true },
    { id := 2, level := 0, keyRange := ⟨.byte 5, .byte 6⟩ }]

def leafPairWorld : World where
  cache := AList.singleton 3 { id := 3, level := 1, childIds := [1, 2], buffer := arrivals }
  manifest := { nextId := 4 }
  disk := { node := AList.singleton 2
              { id := 2, level := 0, buffer := [{ key := .byte 6, seqNo := 2 }] } }
  sizing _ := (64, 7)

theorem localFlush_distributes_leafPair :
    ∃ cs' r u, localFlush 3 leafPair ⟨leafPairWorld, none⟩ = .ok (cs', r) ⟨u, none⟩ ∧
      Distributed leafPairWorld u arrivals leafPair cs' r := by
  have hfile : leafPairWorld.disk.node.lookup 2 =
      some { id := 2, level := 0, buffer := [{ key := .byte 6, seqNo := 2 }] } := rfl
  have hnext : leafPairWorld.manifest.nextId = 4 := rfl
  refine localFlush_distributes ⟨⟨_, rfl, rfl⟩, by simp [leafPair], ⟨?_, ?_, ?_⟩, ?_⟩
  · simp [World.entriesOf, leafPair, hfile, UniqueKeys]
  · simp [World.entriesOf, leafPair, hfile, KeyRange.contains]
    decide
  · simp [World.Before, World.entriesOf, leafPair]
    decide
  · simp [World.Readable, leafPair, hfile, hnext]

end GravTree
