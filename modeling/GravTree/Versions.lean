import GravTree.Proof.History

/-!
# Versions across sessions

`seq_` starts at one in every session, while the entries that earlier sessions numbered
stay in the node files. A write is numbered above the stored versions of its key as long
as the earlier sessions wrote the key earlier than this one does, counted in writes.
-/

namespace GravTree

/-- Each session runs and is closed, and the directory is opened again. -/
def Db.sessions (db : Db) : List (List Op) → Except Exc Db
  | [] => .ok db
  | ops :: rest => do
    let db' ← (db.run ops).reopen
    db'.sessions rest

/-- The next write is numbered above every entry of its key in the node files. -/
def Db.OnTop (db : Db) (key : Bytes) : Prop :=
  ∀ x n, db.world.disk.node.lookup x = some n → ∀ e ∈ n.buffer, e.key = key → e.seqNo < db.seq

/-! ## Where entries come from -/

/-- The entries are those of the write buffer, written in this session, and those of the
tree, written in this session or in an earlier one. -/
structure Origins (past es : List Entry) (db : Db) : Prop where
  seq : db.seq = Fin.ofNat _ (es.length + 1)
  buf : ∀ e ∈ db.writeBuf.entries, e ∈ es
  tree : Sourced (· = maxFanout) (fun e => e ∈ past ∨ e ∈ es) [] db.world

namespace Origins

variable {past es : List Entry} {db : Db}

theorem write (R : Origins past es db) (a : Entry) : Origins past (es ++ [a])
    { db with writeBuf := db.writeBuf.insert a, seq := db.seq + 1 } where
  seq := by
    show db.seq + 1 = _
    rw [R.seq, List.length_append, List.length_singleton]
    apply Fin.ext
    simp [Fin.val_add]
  buf e he := by
    rcases (List.mem_orderedInsert Entry.le).mp he with rfl | he
    · simp
    · exact List.mem_append_left _ (R.buf e he)
  tree :=
    have hP : ∀ {n : SSTNode}, n.From (· = maxFanout) (fun e => e ∈ past ∨ e ∈ es) →
        n.From (· = maxFanout) fun e => e ∈ past ∨ e ∈ es ++ [a] :=
      fun h => ⟨fun e he => (h.entries e he).imp_right (List.mem_append_left _), h.fanout⟩
    ⟨fun hx => hP (R.tree.node hx), fun hx => hP (R.tree.file hx), R.tree.log⟩

/-- A session only adds its own writes. -/
theorem run (ops : List Op) (R : Origins past [] db) : Origins past (written ops) (db.run ops) := by
  induction ops using List.reverseRecOn with
  | nil => exact R
  | append_singleton ops op ih =>
    have hbuf : ∀ e ∈ (db.run ops).writeBuf.entries, e ∈ past ∨ e ∈ written ops :=
      fun e he => .inr (ih.buf e he)
    rw [Db.run_append, written_append]
    cases hop : op.entry ((written ops).length + 1) with
    | some a =>
      obtain ⟨hstep, -⟩ := Db.step_of_entry hop ih.seq
      rw [show (db.run ops).run [op] = _ from hstep]
      exact ih.write a
    | none =>
      rw [Option.toList_none, List.append_nil]
      cases op with
      | insert k v => cases hop
      | remove k => cases hop
      | flush =>
        exact ⟨ih.seq, fun _ he => (nomatch he), (traces_persistRoot hbuf).exec ih.tree none⟩
      | cycle =>
        exact ⟨ih.seq, fun _ he => (nomatch he),
          (traces_flushPending (fun _ h => h.ge) hbuf).swallow _ ih.tree none⟩

/-- What a directory is opened with was written in an earlier session. -/
theorem reopen {db' : Db} (R : Origins past es db) (h : db.reopen = .ok db') :
    Origins (past ++ es) [] db' := by
  have hbuf : ∀ e ∈ db.writeBuf.entries, e ∈ past ∨ e ∈ es := fun e he => .inr (R.buf e he)
  have hclosed : Sourced (· = maxFanout) (fun e => e ∈ past ∨ e ∈ es) []
      (Act.exec (catchAll (destroyTree db.writeBuf.entries)) ⟨db.world, none⟩) :=
    (traces_destroyTree hbuf).swallow _ R.tree none
  have hdisk : Sourced (· = maxFanout) (fun e => e ∈ past ++ es ∨ e ∈ []) []
      { sizing := db.world.sizing, disk := db.close } := by
    refine ⟨fun hx => (nomatch hx), fun hx => ⟨fun e he => ?_, (hclosed.file hx).fanout⟩, [], rfl⟩
    exact .inl (List.mem_append.mpr ((hclosed.file hx).entries e he))
  have hopened := traces_openTree.exec hdisk none
  unfold Db.reopen Db.openDir at h
  unfold Act.exec at hopened
  split at h
  · rename_i m hm
    cases h
    rw [hm] at hopened
    exact ⟨rfl, fun _ he => (nomatch he), hopened⟩
  · cases h

/-- Everything on disk was written in one of the sessions. -/
theorem sessions {db' : Db} : ∀ {hist : List (List Op)} {past : List Entry} {db : Db},
    Origins past [] db → db.sessions hist = .ok db' →
      Origins (past ++ hist.flatMap written) [] db' := by
  intro hist
  induction hist with
  | nil =>
    intro past db R h
    cases h
    rwa [List.flatMap_nil, List.append_nil]
  | cons ops hist ih =>
    intro past db R h
    unfold Db.sessions at h
    cases hr : (db.run ops).reopen with
    | error e =>
      rw [hr] at h
      cases h
    | ok db₁ =>
      rw [hr] at h
      have := ih ((R.run ops).reopen hr) h
      rwa [List.flatMap_cons, ← List.append_assoc]

end Origins

theorem origins_start (sizing : Sizing) : Origins [] [] (Db.start sizing) :=
  ⟨rfl, fun _ he => (nomatch he), sourced_start sizing⟩

/-- **The next write is on top** if it comes later in its session than any write of its key
did in an earlier one. -/
theorem onTop_sessions (sizing : Sizing) (hist : List (List Op)) (ops : List Op) (key : Bytes)
    (db : Db) (h : (Db.start sizing).sessions hist = .ok db)
    (hlen : (written ops).length + 1 < 2 ^ 64)
    (hkey : ∀ past ∈ hist, ∀ e ∈ written past, e.key = key →
      e.seqNo.val < (written ops).length + 1) : (db.run ops).OnTop key := by
  intro x n hx e he hk
  have R := ((origins_start sizing).sessions h).run ops
  rw [Fin.lt_def, R.seq, Fin.val_ofNat, Nat.mod_eq_of_lt hlen]
  rcases (R.tree.file (x := x) hx).entries e he with hp | hw
  · obtain ⟨past, hpast, hep⟩ := List.mem_flatMap.mp (by simpa using hp)
    exact hkey past hpast e hep hk
  · have N : Numbered (written ops) := numbered_written (by omega)
    exact Nat.lt_succ_of_le (N.le_length hw)

/-- The second session writes another key before it writes the key of the first. -/
theorem onTop_sessions_two : ∃ db,
    (Db.start fun _ => (64, 7)).sessions [[.insert (.byte 1) (.byte 1)]] = .ok db ∧
      (db.run [.insert (.byte 2) (.byte 2)]).OnTop (.byte 1) := by
  have hok : ((Db.start fun _ => (64, 7)).sessions
      [[.insert (.byte 1) (.byte 1)]]).toOption.isSome := by
    decide +kernel
  cases h : (Db.start fun _ => (64, 7)).sessions [[.insert (.byte 1) (.byte 1)]] with
  | error e => simp [h, Except.toOption] at hok
  | ok db =>
    exact ⟨db, rfl, onTop_sessions _ _ [.insert (.byte 2) (.byte 2)] _ db h (by decide +kernel)
      (by decide +kernel)⟩

/-- The first write of each session gets the number one. -/
theorem onTop_first : ¬ ∀ (sizing : Sizing) (hist : List (List Op)) (ops : List Op) (key : Bytes)
    (db : Db), (Db.start sizing).sessions hist = .ok db → (db.run ops).OnTop key := by
  intro h
  have hstored : ((Db.start fun _ => (64, 7)).sessions
      [[.insert (.byte 1) (.byte 1)]]).toOption.any fun db =>
        (db.world.disk.node.lookup 1).any fun n =>
          n.buffer.any fun e => decide (e.key = .byte 1) && decide (db.seq ≤ e.seqNo) := by
    decide +kernel
  cases hs : (Db.start fun _ => (64, 7)).sessions [[.insert (.byte 1) (.byte 1)]] with
  | error e => simp [hs, Except.toOption] at hstored
  | ok db =>
    have htop := h _ _ [] (.byte 1) db hs
    rw [hs] at hstored
    simp only [Except.toOption, Option.any_some] at hstored
    obtain ⟨n, hn, hb⟩ := (Option.any_eq_true _ _).mp hstored
    simp only [List.any_eq_true, Bool.and_eq_true, decide_eq_true_eq] at hb
    obtain ⟨e, he, hk, hle⟩ := hb
    exact absurd (htop 1 n hn e he hk) (not_lt_of_ge hle)

end GravTree
