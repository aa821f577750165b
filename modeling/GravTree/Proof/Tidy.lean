import GravTree.Proof.Cells
import GravTree.Proof.Keeps
import GravTree.Proof.Seen

/-!
# The world between and inside the steps

Between two restructurings the cache, the manifest and the directory agree: that is
a tidy world. Only one file may lag behind its node, the root's, because writes reach
the root's buffer before they reach its file.

Inside a restructuring there are two kinds of worlds. In a calm one nothing has
happened that a lookup or a reopening could see. In the other kind the manifest in
memory lists a node that the manifest on disk does not know.
-/

namespace GravTree

/-- The cache as a view. -/
def World.view (w : World) : View := fun x => (w.cell x).node

/-- The tree in memory. -/
def World.tree (w : World) : Tree := ⟨w.view, w.rest.root, w.rest.next⟩

/-- A node as it is in memory once its file is written. -/
def SSTNode.loaded (n : SSTNode) : SSTNode :=
  { n with filePath := ⟨n.id⟩, entriesLoaded := true }

/-- A file that holds an older buffer of its node. -/
structure Lags (n₀ n : SSTNode) : Prop where
  id : n₀.id = n.id
  level : n₀.level = n.level
  kids : n₀.childIds = n.childIds
  sorted : Sorted n₀.buffer
  buffer : n₀.buffer ⊆ n.buffer

/-- Cache, manifest and node files agree, but for the file of `lag`. -/
structure Filed (w : World) (lag : Option NodeId) : Prop where
  fanout : ∀ {x n}, (w.cell x).node = some n → n.childIds.length ≤ maxFanout
  loaded : ∀ {x n}, (w.cell x).node = some n → n.filePath = ⟨x⟩ ∧ n.entriesLoaded = true
  valid : ∀ {x}, (w.cell x).Valid ↔ (w.cell x).node ≠ none
  place : ∀ {x r}, (w.cell x).record = some r → r.filePath = ⟨x⟩ ∧ r.id = x ∧ x < w.rest.next
  file : ∀ {x n}, (w.cell x).node = some n →
    ∃ n₀, (w.cell x).file = some n₀ ∧ (n₀.loaded = n ∨ lag = some x ∧ Lags n₀ n)

/-- The manifest on disk lists the cached nodes. -/
def Saved (w : World) : Prop :=
  ∃ m, w.rest.stored = some m ∧ m.rootId = w.rest.root ∧ m.nextId ≤ w.rest.next ∧
    (∀ x, (∃ r, m.nodes.lookup x = some r ∧ r.valid = true) ↔ (w.cell x).node ≠ none) ∧
    ∀ x r, m.nodes.lookup x = some r → r.filePath = ⟨x⟩ ∧ r.id = x ∧ x < w.rest.next

structure Tidy (w : World) (lag : Option NodeId) : Prop where
  sound : w.tree.Sound
  filed : Filed w lag
  saved : Saved w

theorem Filed.lag {w : World} (F : Filed w none) (lag : Option NodeId) : Filed w lag where
  fanout := F.fanout
  loaded := F.loaded
  valid := F.valid
  place := F.place
  file hx := by
    obtain ⟨n₀, h₀, h | ⟨h, -⟩⟩ := F.file hx
    · exact ⟨n₀, h₀, .inl h⟩
    · exact nomatch h

theorem Tidy.lag {w : World} (T : Tidy w none) (lag : Option NodeId) : Tidy w lag :=
  ⟨T.sound, T.filed.lag lag, T.saved⟩

/-! ## Calm worlds -/

/-- `u` differs from `w` by used-up identifiers, unlisted files and collected records. -/
structure Calm (w u : World) : Prop where
  node : ∀ x, (u.cell x).node = (w.cell x).node
  record : ∀ x, (u.cell x).record = (w.cell x).record ∨
    (u.cell x).record = none ∧ ¬ (w.cell x).Valid
  file : ∀ x, (w.cell x).node ≠ none → (u.cell x).file = (w.cell x).file
  root : u.rest.root = w.rest.root
  stored : u.rest.stored = w.rest.stored
  next : w.rest.next ≤ u.rest.next

theorem Calm.refl (w : World) : Calm w w :=
  ⟨fun _ => rfl, fun _ => .inl rfl, fun _ _ => rfl, rfl, rfl, le_rfl⟩

namespace Calm

variable {w u : World} {lag : Option NodeId}

theorem view (C : Calm w u) : u.view = w.view := funext C.node

theorem tree (C : Calm w u) : u.tree = { w.tree with next := u.rest.next } := by
  simp [World.tree, C.view, C.root]

theorem valid (C : Calm w u) (x : NodeId) : (u.cell x).Valid ↔ (w.cell x).Valid := by
  rcases C.record x with h | ⟨h, hn⟩
  · simp [Cell.Valid, h]
  · simp only [Cell.Valid, h] at hn ⊢
    simpa using hn

theorem filed (C : Calm w u) (F : Filed w lag) : Filed u lag where
  fanout hx := F.fanout (C.node _ ▸ hx)
  loaded hx := F.loaded (C.node _ ▸ hx)
  valid := by
    intro x
    rw [C.valid x, F.valid, C.node x]
  place := by
    intro x r hr
    rcases C.record x with h | ⟨h, -⟩
    · obtain ⟨hp, hi, hlt⟩ := F.place (h ▸ hr)
      exact ⟨hp, hi, lt_of_lt_of_le hlt C.next⟩
    · simp [h] at hr
  file := by
    intro x n hx
    rw [C.node] at hx
    rw [C.file x (by simp [hx])]
    exact F.file hx

/-- What is cached and listed is left alone. -/
theorem cell_eq (C : Calm w u) {x : NodeId} (hx : (w.cell x).node ≠ none)
    (hv : (w.cell x).Valid) : u.cell x = w.cell x := by
  have hr : (u.cell x).record = (w.cell x).record :=
    (C.record x).resolve_right fun h => h.2 hv
  exact Cell.ext (C.node x) hr (C.file x hx)

theorem saved (C : Calm w u) (h : Saved w) : Saved u := by
  obtain ⟨m, hm, hroot, hnext, hvalid, hplace⟩ := h
  refine ⟨m, C.stored.trans hm, hroot.trans C.root.symm, hnext.trans C.next, ?_, ?_⟩
  · intro x
    rw [hvalid x, C.node x]
  · intro x r hr
    obtain ⟨hp, hi, hlt⟩ := hplace x r hr
    exact ⟨hp, hi, lt_of_lt_of_le hlt C.next⟩

theorem tidy (C : Calm w u) (T : Tidy w lag) : Tidy u lag where
  sound := C.tree ▸ T.sound.skip C.next
  filed := C.filed T.filed
  saved := C.saved T.saved

end Calm

/-! ## Worlds inside a restructuring -/

/-- An internal child whose range was widened in place. -/
structure Refreshed (v : View) (n n' : SSTNode) : Prop where
  id : n'.id = n.id
  level : n'.level = n.level
  kids : n'.childIds = n.childIds
  buffer : n'.buffer = n.buffer
  inner : n.level ≠ 0
  fence : Fenced v n' n.keyRange.minKey

/-- Since the manifest was last written, a node file was written over a file with other
children. -/
def Exposed : List Effect → Prop
  | [] => False
  | .rename (some old) new :: es => old.childIds ≠ new.childIds ∨ Exposed es
  | .rename none _ :: es => Exposed es
  | .save _ :: _ => False
  | .remove _ :: es => Exposed es

instance Exposed.decidable : ∀ es, Decidable (Exposed es)
  | [] => inferInstanceAs (Decidable False)
  | .rename (some old) new :: es =>
    haveI := Exposed.decidable es
    inferInstanceAs (Decidable (old.childIds ≠ new.childIds ∨ Exposed es))
  | .rename none _ :: es => Exposed.decidable es
  | .save _ :: _ => inferInstanceAs (Decidable False)
  | .remove _ :: es => Exposed.decidable es

theorem Exposed.rename {es : List Effect} (h : Exposed es) (old : Option SSTNode) (n : SSTNode) :
    Exposed (.rename old n :: es) := by
  cases old with
  | none => exact h
  | some o => exact .inr h

/-- What was on disk in `w` is still there in `u`, until a file with other children is
written over. -/
structure Backed (w u : World) : Prop where
  stored : u.rest.stored = w.rest.stored
  files : Exposed u.rest.effects ∨ ∀ x n, (w.cell x).node = some n →
    (u.cell x).file = (w.cell x).file ∨
      x ≠ w.rest.root ∧ ∃ n', (u.cell x).file = some n' ∧ Refreshed w.view n n'

/-- `u` lies inside a restructuring that began in `w`: some new node is listed in memory
only. -/
structure Mid (w u : World) : Prop extends Backed w u where
  dirty : ∃ x, w.rest.next ≤ x ∧ (u.cell x).Valid

theorem Calm.backed {w u : World} (C : Calm w u) : Backed w u :=
  ⟨C.stored, .inr fun x _ hx => .inl (C.file x (by simp [hx]))⟩

section Backed

variable {w u u' : World}

/-- Writing new files and changing memory leaves the old files alone. -/
theorem Backed.step (S : w.tree.Sound) (B : Backed w u)
    (hfile : ∀ x, x < w.rest.next → (u'.cell x).file = (u.cell x).file)
    (hstored : u'.rest.stored = u.rest.stored)
    (heff : Exposed u.rest.effects → Exposed u'.rest.effects) : Backed w u' where
  stored := hstored.trans B.stored
  files := by
    rcases B.files with h | h
    · exact .inl (heff h)
    · refine .inr fun x n hx => ?_
      rw [hfile x (S.below hx)]
      exact h x n hx

theorem Mid.step (S : w.tree.Sound) (M : Mid w u)
    (hvalid : ∀ x, w.rest.next ≤ x → (u.cell x).Valid → (u'.cell x).Valid)
    (hfile : ∀ x, x < w.rest.next → (u'.cell x).file = (u.cell x).file)
    (hstored : u'.rest.stored = u.rest.stored)
    (heff : Exposed u.rest.effects → Exposed u'.rest.effects) : Mid w u' where
  toBacked := M.toBacked.step S hfile hstored heff
  dirty := by
    obtain ⟨x, hx, hv⟩ := M.dirty
    exact ⟨x, hx, hvalid x hx hv⟩

end Backed

/-- The tree of `w` was led to `t` by steps whose calls of `split_leaf` are the new part
of the log. -/
def LeadsTo (w : World) (t : Tree) (log : List SplitCall) : Prop :=
  ∃ cs, Steps w.tree cs t ∧ log = cs ++ w.rest.splits

theorem LeadsTo.refl (w : World) : LeadsTo w w.tree w.rest.splits := ⟨[], .refl _, rfl⟩

theorem LeadsTo.trans {w w' : World} {t : Tree} {log : List SplitCall}
    (h : LeadsTo w w'.tree w'.rest.splits) (h' : LeadsTo w' t log) : LeadsTo w t log := by
  obtain ⟨cs, hs, hl⟩ := h
  obtain ⟨cs', hs', hl'⟩ := h'
  exact ⟨cs' ++ cs, hs.trans hs', by rw [hl', hl, List.append_assoc]⟩

theorem LeadsTo.step {w : World} {t t' : Tree} {log c : List SplitCall} (h : LeadsTo w t log)
    (h' : Step t c t') : LeadsTo w t' (c ++ log) := by
  obtain ⟨cs, hs, hl⟩ := h
  exact ⟨c ++ cs, hs.tail h', by rw [hl, List.append_assoc]⟩

theorem LeadsTo.sound {w : World} {t : Tree} {log : List SplitCall} (h : LeadsTo w t log)
    (S : w.tree.Sound) : t.Sound := by
  obtain ⟨_, hs, -⟩ := h
  exact hs.sound S

theorem LeadsTo.calm {w u : World} {t : Tree} (h : LeadsTo w t u.rest.splits)
    (ht : { t with next := u.rest.next } = u.tree) (hn : t.next ≤ u.rest.next) :
    LeadsTo w u.tree u.rest.splits := by
  have := h.step (.skip hn)
  rwa [ht, List.nil_append] at this

/-- Where a run that began in the tidy world `w` may be stopped. -/
def Halt (w u : World) : Prop :=
  ∃ w₁, LeadsTo w w₁.tree w₁.rest.splits ∧ (w₁ = w ∨ Tidy w₁ none) ∧
    (∃ l, u.rest.splits = l ++ w₁.rest.splits) ∧ (Calm w₁ u ∨ Mid w₁ u)

/-- Calm or inside a restructuring. -/
def Going (w u : World) : Prop :=
  (Calm w u ∨ Mid w u) ∧ ∃ l, u.rest.splits = l ++ w.rest.splits

theorem Going.halt {w u : World} (h : Going w u) : Halt w u := ⟨w, .refl w, .inl rfl, h.2, h.1⟩

theorem Going.backed {w u : World} (h : Going w u) : Backed w u :=
  h.1.elim Calm.backed Mid.toBacked

theorem Going.takeId {w u : World} (h : Going w u) : Going w u.takeId := by
  refine ⟨h.1.imp (fun C => ?_) (fun M => ?_), h.2⟩
  · exact ⟨C.node, C.record, C.file, C.root, C.stored, C.next.trans (Nat.le_succ _)⟩
  · exact ⟨⟨M.stored, M.files⟩, M.dirty⟩

theorem Halt.trans {w w' u : World} (h : LeadsTo w w'.tree w'.rest.splits) (T : Tidy w' none)
    (h' : Halt w' u) : Halt w u := by
  obtain ⟨w₁, hl, h₁, hs, hu⟩ := h'
  refine ⟨w₁, h.trans hl, .inr ?_, hs, hu⟩
  rcases h₁ with rfl | h₁
  · exact T
  · exact h₁

/-! ## Primitive runs -/

variable {w : World} {H : World → Prop}

/-- The range that spans a node's children. -/
def View.span (v : View) (n : SSTNode) : KeyRange :=
  ⟨v.headMin n, v.maxKey (n.childIds.getLastD invalidNodeId)⟩

theorem spanKeyRange_reads {n : SSTNode} (hne : n.childIds ≠ [])
    (h : ∀ c ∈ n.childIds, ∃ m, (w.cell c).node = some m) :
    Act.Reads (spanKeyRange n) w (w.view.span n) := by
  obtain ⟨front, hfront⟩ := h (n.childIds.headD invalidNodeId) (by
    cases hk : n.childIds with
    | nil => exact absurd hk hne
    | cons c cs => simp)
  obtain ⟨back, hback⟩ := h (n.childIds.getLastD invalidNodeId) (by
    rw [List.getLastD_eq_getLast?, List.getLast?_eq_some_getLast hne]
    exact List.getLast_mem hne)
  unfold spanKeyRange
  refine Act.Reads.bind (getNode_reads hfront) (Act.Reads.bind (getNode_reads hback) ?_)
  have hf : w.view (n.childIds.headD invalidNodeId) = some front := hfront
  have hb : w.view (n.childIds.getLastD invalidNodeId) = some back := hback
  rw [View.span, View.headMin, View.minKey_some hf, View.maxKey_some hb]
  exact Act.Runs.pure _ w

/-- A node file is written. -/
theorem writeFile_runs {n : SSTNode} (h : H w) : Act.Runs n.writeFile w ⟨n.id⟩ (w.renamed n) H :=
  Act.Runs.op_bind h (Act.Runs.update_bind (Act.Runs.pure _ _))

theorem save_runs (h : H w) : Act.Runs save w () w.saved H :=
  Act.Runs.op_bind h (Act.Runs.update _ _)

theorem nextNodeId_runs : Act.Runs nextNodeId w w.rest.next w.takeId H :=
  Act.Runs.world_bind (Act.Runs.update_bind (Act.Runs.pure _ _))

/-- The node `create` returns. -/
def created (sizing : Sizing) (id level : Nat) (entries : List Entry) (children : List NodeId) :
    SSTNode := (SSTNode.build sizing id level entries children).loaded

theorem create_runs {id level : Nat} {entries : List Entry} {children : List NodeId} (h : H w) :
    Act.Runs (SSTNode.create id level entries children) w
      (created w.rest.sizing id level entries children)
      (w.renamed (SSTNode.build w.rest.sizing id level entries children)) H :=
  Act.Runs.world_bind (Act.Runs.bind (writeFile_runs h) (Act.Runs.pure _ _))

/-- The node `flush_to_disk` leaves. -/
def flushed (sizing : Sizing) (n : SSTNode) : SSTNode := (n.prepare sizing).loaded

theorem flushToDisk_runs {n : SSTNode} (h : H w) :
    Act.Runs n.flushToDisk w (flushed w.rest.sizing n) (w.renamed (n.prepare w.rest.sizing)) H :=
  Act.Runs.world_bind (Act.Runs.bind (writeFile_runs h) (Act.Runs.pure _ _))

end GravTree
