import GravTree.Proof.Open

/-!
# Runs

What holds after every step of a session on a fresh directory. As long as every leaf
that is split has its parent, the world stays tidy. As long as the halves can be told
apart as well, the tree stays ordered and layered, and its entries are the writes of
the run.
-/

namespace GravTree

/-! ## The tree stays tidy -/

/-- One step only adds to the log of calls. -/
theorem Db.step_splits (db : Db) (op : Op) :
    ∃ l, (db.step op).world.rest.splits = l ++ db.world.rest.splits := by
  cases op with
  | insert k v => exact ⟨[], rfl⟩
  | remove k => exact ⟨[], rfl⟩
  | flush => exact ((traces_persistRoot fun _ _ => trivial).exec (.self db.world) none).log
  | cycle => exact ((traces_flushPending (fun _ h => h.elim) fun _ _ => trivial).swallow _
      (.self db.world) none).log

/-- **A cycle** either restructures the tree, working on the root, or loses a split. -/
theorem Db.cycle_eases (db : Db) (P : Limit) (T : Tidy db.world (some db.world.rest.root)) :
    ((db.cycle.world = db.world.merged db.writeBuf.entries ∨ Tidy db.cycle.world none) ∧
        LeadsTo (db.world.merged db.writeBuf.entries) db.cycle.world.tree
          db.cycle.world.rest.splits ∧
        (Fitting P db.cycle.world.rest.splits → ∀ {y}, db.cycle.world.tree.Beyond P y →
          (db.world.merged db.writeBuf.entries).tree.Beyond P y ∧ y ∉ [db.world.rest.root])) ∨
      ¬ Attached db.cycle.world.rest.splits := by
  have hspec := flushPending_eases P T db.writeBuf.entries
  have hworld : ∀ {u s e}, flushPending db.writeBuf.entries ⟨db.world, none⟩ =
      .error (.thrown e) ⟨u, s⟩ → db.cycle.world = u := by
    intro u s e h
    simp only [Db.cycle, Db.cycleWith, Act.exec, catchAll, Act.swallow, h, if_true]
  rcases hspec.undisturbed with ⟨a, u, hx, hu⟩ | ⟨e, u, s, hx, hu⟩
  · have : db.cycle.world = u := by
      simp only [Db.cycle, Db.cycleWith, Act.exec, catchAll, Act.swallow, hx]
    exact .inl (this ▸ hu)
  · right
    rw [hworld hx]
    rcases hu with ⟨⟨k, hk⟩, -⟩ | ⟨-, cs, hcs, c, hc, hs⟩
    · cases hk
    · exact fun h => h c (hcs ▸ List.mem_append_left _ hc) hs

theorem Db.cycle_cases (db : Db) (T : Tidy db.world (some db.world.rest.root)) :
    (db.cycle.world = db.world.merged db.writeBuf.entries ∨ Tidy db.cycle.world none) ∧
        LeadsTo (db.world.merged db.writeBuf.entries) db.cycle.world.tree
          db.cycle.world.rest.splits ∨
      ¬ Attached db.cycle.world.rest.splits :=
  (db.cycle_eases .any T).imp_left fun h => ⟨h.1, h.2.1⟩

/-- **`flush()`** writes the root. -/
theorem Db.flush_cases (db : Db) (T : Tidy db.world (some db.world.rest.root)) :
    Settled db.flush.world ∧
      LeadsTo (db.world.merged db.writeBuf.entries) db.flush.world.tree
        db.flush.world.rest.splits := by
  rcases (persistRoot_spec T db.writeBuf.entries).undisturbed with
    ⟨a, u, hx, hu⟩ | ⟨e, u, s, hx, ⟨k, hk⟩, -⟩
  · have : db.flush.world = u := by
      simp only [Db.flush, Db.flushWith, Act.exec, hx]
    exact this ▸ hu
  · cases hk

theorem Db.step_tidy (db : Db) (op : Op) (T : Tidy db.world (some db.world.rest.root))
    (hA : Attached (db.step op).world.rest.splits) :
    Tidy (db.step op).world (some (db.step op).world.rest.root) := by
  cases op with
  | insert k v => exact T
  | remove k => exact T
  | flush => exact (db.flush_cases T).1.tidy
  | cycle => exact (db.cycle_cases T).elim (fun h => T.drained h.1) fun h => absurd hA h

/-- **Every run** whose splits all have their parents leaves a tidy world. -/
theorem tidy_run (sizing : Sizing) (ops : List Op) :
    Attached ((Db.start sizing).run ops).world.rest.splits →
      Tidy ((Db.start sizing).run ops).world
        (some ((Db.start sizing).run ops).world.rest.root) := by
  induction ops using List.reverseRecOn with
  | nil =>
    intro _
    rw [Db.run_nil, start_world]
    exact (tidy_opened sizing).lag _
  | append_singleton ops op ih =>
    intro hA
    rw [Db.run_append] at hA ⊢
    obtain ⟨l, hl⟩ := ((Db.start sizing).run ops).step_splits op
    have hA' : Attached (((Db.start sizing).run ops).step op).world.rest.splits := hA
    refine Db.step_tidy _ op (ih ?_) hA
    rw [hl] at hA'
    exact hA'.of_append

/-! ## The tree stays ordered -/

/-- From the merged tree on, a step of the session is steps of the tree. -/
theorem Tidy.merged_tree {w : World} (T : Tidy w (some w.rest.root)) (es : List Entry) :
    ∃ n, Fills w.tree (w.merged es).tree n es := by
  obtain ⟨n, hr⟩ := T.sound.root_some
  exact ⟨n, fills_merged hr⟩

theorem LeadsTo.fair {w : World} {t : Tree} {log : List SplitCall} (h : LeadsTo w t log)
    (hC : Clean log) : ∃ cs, Steps w.tree cs t ∧ ∀ c ∈ cs, c.Fair := by
  obtain ⟨cs, hs, rfl⟩ := h
  exact ⟨cs, hs, fun c hc => (hC c (List.mem_append_left _ hc)).1⟩

/-- A clean `flush()` or cycle merges the write buffer into the tree and restructures it. -/
theorem Db.drain_clean (db : Db) {op : Op} (hop : op = .flush ∨ op = .cycle)
    (T : Tidy db.world (some db.world.rest.root)) (hC : Clean (db.step op).world.rest.splits) :
    ∃ n cs, Fills db.world.tree (db.world.merged db.writeBuf.entries).tree n
        db.writeBuf.entries ∧
      Steps (db.world.merged db.writeBuf.entries).tree cs (db.step op).world.tree ∧
      (∀ c ∈ cs, c.Fair) ∧ (db.step op).writeBuf.entries = [] := by
  obtain ⟨n, hn⟩ := T.merged_tree db.writeBuf.entries
  rcases hop with rfl | rfl
  · obtain ⟨cs, hs, hF⟩ := (db.flush_cases T).2.fair hC
    exact ⟨n, cs, hn, hs, hF, rfl⟩
  · rcases db.cycle_cases T with ⟨-, hl⟩ | h
    · obtain ⟨cs, hs, hF⟩ := hl.fair hC
      exact ⟨n, cs, hn, hs, hF, rfl⟩
    · exact absurd hC.attached h

theorem Db.step_ordered (db : Db) (op : Op) (T : Tidy db.world (some db.world.rest.root))
    (O : db.world.tree.Ordered) (hC : Clean (db.step op).world.rest.splits) :
    (db.step op).world.tree.Ordered := by
  have hdrain : op = .flush ∨ op = .cycle → (db.step op).world.tree.Ordered := by
    intro hop
    obtain ⟨n, cs, hn, hs, hF, -⟩ := db.drain_clean hop T hC
    exact hs.ordered (hn.sound T.sound) (hn.ordered T.sound O) hF
  cases op with
  | insert k v => exact O
  | remove k => exact O
  | flush => exact hdrain (.inl rfl)
  | cycle => exact hdrain (.inr rfl)

/-- **Every run** whose splits are clean leaves an ordered tree. -/
theorem ordered_run (sizing : Sizing) (ops : List Op) :
    Clean ((Db.start sizing).run ops).world.rest.splits →
      ((Db.start sizing).run ops).world.tree.Ordered := by
  induction ops using List.reverseRecOn with
  | nil =>
    intro _
    rw [Db.run_nil, start_world]
    exact (blank_opened sizing).ordered
  | append_singleton ops op ih =>
    intro hC
    rw [Db.run_append] at hC ⊢
    obtain ⟨l, hl⟩ := ((Db.start sizing).run ops).step_splits op
    have hC' : Clean (((Db.start sizing).run ops).step op).world.rest.splits := hC
    rw [hl] at hC'
    have hprev := hC'.of_append
    exact Db.step_ordered _ op (tidy_run sizing ops hprev.attached) (ih hprev) hC

end GravTree
