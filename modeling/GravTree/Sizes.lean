import GravTree.Agreement
import Mathlib.Algebra.Order.BigOperators.Group.List

/-!
# The size of nodes

`buffer_full` asks for a node to be split or flushed at `BUFFER_THRESHOLD` bytes, so that no
node stays at that size. An internal node is flushed until its buffer is empty. A leaf is
cut once, in the middle by entry count, and nothing looks at its halves again: a leaf that
got several times the threshold in one cycle leaves halves beyond the threshold, and so does
one whose large entries are all on one side.
-/

namespace GravTree

theorem sortBuffer_size_le {es es' : List Entry} (h : es'.Sublist es) :
    ((sortBuffer es').map Entry.sizeBytes).sum ≤ (es.map Entry.sizeBytes).sum := by
  calc ((sortBuffer es').map Entry.sizeBytes).sum
    _ ≤ ((stableSort es').map Entry.sizeBytes).sum :=
        ((List.destutter_sublist _ _).map _).sum_le_sum fun _ _ => Nat.zero_le _
    _ = (es'.map Entry.sizeBytes).sum := ((stableSort_perm es').map _).sum_eq
    _ ≤ (es.map Entry.sizeBytes).sum := (h.map _).sum_le_sum fun _ _ => Nat.zero_le _

/-- Buffers below `BUFFER_THRESHOLD`. -/
def Limit.threshold : Limit where
  ok es := (es.map Entry.sizeBytes).sum < bufferThreshold
  nil := by decide
  deal h hok := lt_of_le_of_lt (sortBuffer_size_le h) hok

theorem bufferFull_iff (n : SSTNode) :
    n.bufferFull = true ↔ ¬ Limit.threshold.ok n.buffer := by
  show decide _ = true ↔ _
  rw [decide_eq_true_iff]
  exact not_lt.symm

/-- Both halves that the call makes are below `BUFFER_THRESHOLD`. -/
def SplitCall.Relieves (c : SplitCall) : Prop := c.Deals .threshold

/-- A tree in which at most the root is at the threshold. -/
def World.Relieved (w : World) : Prop :=
  ∀ y, y ≠ w.rest.root → ¬ w.tree.Beyond .threshold y

/-! ## Steps of a session -/

theorem World.Relieved.merged {w : World} (h : w.Relieved) (es : List Entry) :
    (w.merged es).Relieved := by
  rintro y hy ⟨n, hn, hno⟩
  rw [rest_merged] at hy
  refine h y hy ⟨n, ?_, hno⟩
  show (w.cell y).node = some n
  rw [← cell_merged_other hy]
  exact hn

/-- `flush()` writes to the root only. -/
theorem Db.flush_relieved (db : Db) (T : Tidy db.world (some db.world.rest.root))
    (h : db.world.Relieved) : db.flush.world.Relieved := by
  obtain ⟨r, hr⟩ := T.sound.root_some
  obtain ⟨n, hn⟩ : ∃ n, (db.world.merged db.writeBuf.entries).view db.world.rest.root = some n :=
    ⟨_, node_merged hr⟩
  have hm := h.merged db.writeBuf.entries
  have hworld : db.flush.world = _ := (persistRoot_runs T db.writeBuf.entries hn).exec_eq
  rw [hworld]
  split
  · have hid : n.id = db.world.rest.root := by
      obtain rfl := Option.some.inj ((node_merged hr).symm.trans hn)
      exact (T.sound.shape.mem_row hr).2.2
    rintro y hy ⟨m, hm', hno⟩
    have hy' : y ≠ db.world.rest.root := by
      rwa [World.rest_saved, rest_rewrite hid, rest_merged] at hy
    refine hm y (by rwa [rest_merged]) ⟨m, ?_, hno⟩
    show ((db.world.merged db.writeBuf.entries).cell y).node = some m
    rw [← hm']
    show _ = (((db.world.merged db.writeBuf.entries).rewrite db.world.rest.root n).cell y).node
    rw [cell_rewrite hn hid, if_neg hy']
  · exact hm

/-- **A cycle** leaves no node at the threshold. -/
theorem Db.cycle_relieves (db : Db) (T : Tidy db.world (some db.world.rest.root))
    (h : db.world.Relieved)
    (hlog : ∀ c ∈ db.cycle.world.rest.splits, ¬ c.Stale ∧ c.Relieves) (y : NodeId) :
    ¬ db.cycle.world.tree.Beyond .threshold y := by
  intro hy
  rcases db.cycle_eases .threshold T with ⟨-, -, hb⟩ | hA
  · have F : Fitting .threshold db.cycle.world.rest.splits :=
      ⟨fun n hn => not_not.mp fun hno => by simp [(bufferFull_iff n).mpr hno] at hn,
        fun c hc => (hlog c hc).2⟩
    obtain ⟨hbefore, hroot⟩ := hb F hy
    have hne : y ≠ db.world.rest.root := fun heq => hroot (List.mem_singleton.mpr heq)
    exact h.merged db.writeBuf.entries y (by rwa [rest_merged]) hbefore
  · exact hA fun c hc => (hlog c hc).1

/-! ## Runs -/

/-- Every split had its parent, and halves below the threshold. -/
def Relieving (log : List SplitCall) : Prop := ∀ c ∈ log, ¬ c.Stale ∧ c.Relieves

instance (log : List SplitCall) : Decidable (Relieving log) := by
  unfold Relieving SplitCall.Relieves SplitCall.Deals Limit.threshold
  infer_instance

theorem Relieving.of_append {l log : List SplitCall} (h : Relieving (l ++ log)) : Relieving log :=
  fun c hc => h c (List.mem_append_right _ hc)

theorem Relieving.attached {log : List SplitCall} (h : Relieving log) : Attached log :=
  fun c hc => (h c hc).1

theorem relieved_run (sizing : Sizing) (ops : List Op) :
    Relieving ((Db.start sizing).run ops).world.rest.splits →
      ((Db.start sizing).run ops).world.Relieved := by
  induction ops using List.reverseRecOn with
  | nil =>
    rintro - y hy ⟨n, hn, -⟩
    rw [Db.run_nil, start_world] at hy hn
    have := (blank_opened sizing).other y hy
    exact nomatch this.symm.trans hn
  | append_singleton ops op ih =>
    intro hlog
    rw [Db.run_append] at hlog ⊢
    obtain ⟨l, hl⟩ := ((Db.start sizing).run ops).step_splits op
    have hlog' : Relieving (((Db.start sizing).run ops).step op).world.rest.splits := hlog
    rw [hl] at hlog'
    have hprev := hlog'.of_append
    have T := tidy_run sizing ops hprev.attached
    cases op with
    | insert k v => exact ih hprev
    | remove k => exact ih hprev
    | flush => exact ((Db.start sizing).run ops).flush_relieved T (ih hprev)
    | cycle =>
      exact fun y _ => ((Db.start sizing).run ops).cycle_relieves T (ih hprev) hlog y

/-- **After a cycle** no node is full, if every split of the run had its parent and made
halves below the threshold. -/
theorem sizes_run (sizing : Sizing) (ops : List Op)
    (hlog : Relieving ((Db.start sizing).run (ops ++ [.cycle])).world.splits) :
    ∀ x n, ((Db.start sizing).run (ops ++ [.cycle])).world.fetch x = some n →
      n.bufferFull = false := by
  intro x n hx
  replace hlog : Relieving ((Db.start sizing).run (ops ++ [.cycle])).world.rest.splits := hlog
  rw [(tidy_run sizing (ops ++ [Op.cycle]) hlog.attached).fetch] at hx
  rw [Db.run_append] at hlog hx
  obtain ⟨l, hl⟩ := ((Db.start sizing).run ops).step_splits .cycle
  have hlog' : Relieving (((Db.start sizing).run ops).step .cycle).world.rest.splits := hlog
  rw [hl] at hlog'
  have hprev := hlog'.of_append
  have hno := ((Db.start sizing).run ops).cycle_relieves (tidy_run sizing ops hprev.attached)
    (relieved_run sizing ops hprev) hlog x
  refine Bool.eq_false_iff.mpr fun hfull => hno ⟨n, hx, (bufferFull_iff n).mp hfull⟩

/-- One of the leaves that the first split makes. -/
theorem sizes_run_round :
    ∃ n, ((Db.start fun _ => (64, 7)).run (round [10, 20])).world.fetch 2 = some n ∧
      n.bufferFull = false := by
  have hsome : (((Db.start fun _ => (64, 7)).run (round [10, 20])).world.fetch 2).isSome = true := by
    decide +kernel
  obtain ⟨n, hn⟩ := Option.isSome_iff_exists.mp hsome
  exact ⟨n, hn, sizes_run _ ([10, 20].map fun k => .insert (.byte k) (.zeros (2 ^ 21)))
    (by decide +kernel) 2 n hn⟩

/-! ## A cycle that leaves full leaves -/

/-- Entries of less than half the threshold. -/
def Op.Small : Op → Prop
  | .insert k v => 2 * (Entry.sizeBytes { key := k, value := v, seqNo := 0 }) < bufferThreshold
  | .remove k => 2 * (Entry.sizeBytes { key := k, seqNo := 0 }) < bufferThreshold
  | _ => True

instance : DecidablePred Op.Small := fun op => by
  unfold Op.Small
  split <;> infer_instance

/-- Ten megabytes are written before the cycle. -/
def heap : List Op :=
  (List.range 10).map fun i => .insert (.byte (UInt8.ofNat i)) (.zeros (2 ^ 20))

/-- The root's two halves have five megabytes each. -/
theorem sizes_heap : ¬ ∀ (sizing : Sizing) (ops : List Op), (∀ op ∈ ops, op.Small) →
    ∀ x n, ((Db.start sizing).run (ops ++ [.cycle])).world.fetch x = some n →
      n.bufferFull = false := by
  intro h
  have hfull : (((Db.start fun _ => (64, 7)).run (heap ++ [.cycle])).world.fetch 2).any
      (·.bufferFull) = true := by decide +kernel
  obtain ⟨n, hn, hn'⟩ := (Option.any_eq_true _ _).mp hfull
  exact absurd hn' (by simp [h (fun _ => (64, 7)) heap (by decide +kernel) 2 n hn])

end GravTree
