import GravTree.Proof.Run

/-!
# What a run has written

A run gives its writes ascending sequence numbers. Before the numbers wrap around, what
is still in the write buffer is newer than anything in the tree, and the tree makes no
entries of its own. In a clean run no write is lost either: some version at least as new
is in the write buffer or in the tree.
-/

namespace GravTree

/-- The entry of the `i`-th write, if the step writes. -/
def Op.entry (i : Nat) : Op → Option Entry
  | .insert k v => some { key := k, value := v, seqNo := Fin.ofNat _ i }
  | .remove k => some { key := k, seqNo := Fin.ofNat _ i, deleted := true }
  | .flush | .cycle => none

/-- The entries a run writes, oldest first. -/
def written (ops : List Op) : List Entry :=
  ops.foldl (fun es op => es ++ (op.entry (es.length + 1)).toList) []

theorem written_append (ops : List Op) (op : Op) :
    written (ops ++ [op]) = written ops ++ (op.entry ((written ops).length + 1)).toList := by
  rw [written, List.foldl_append]
  rfl

/-- Entries are numbered in the order they were written. -/
structure Numbered (es : List Entry) : Prop where
  short : es.length < 2 ^ 64
  seqNo : ∀ {i e}, es[i]? = some e → e.seqNo.val = i + 1

theorem Numbered.le_length {es : List Entry} (N : Numbered es) {e : Entry} (he : e ∈ es) :
    e.seqNo.val ≤ es.length := by
  obtain ⟨i, hi⟩ := List.mem_iff_getElem?.mp he
  have := (List.getElem?_eq_some_iff.mp hi).1
  have := N.seqNo hi
  omega

theorem Numbered.eq_of_seqNo {es : List Entry} (N : Numbered es) {e e' : Entry} (he : e ∈ es)
    (he' : e' ∈ es) (h : e.seqNo = e'.seqNo) : e = e' := by
  obtain ⟨i, hi⟩ := List.mem_iff_getElem?.mp he
  obtain ⟨j, hj⟩ := List.mem_iff_getElem?.mp he'
  have h₁ := N.seqNo hi
  have h₂ := N.seqNo hj
  rw [h] at h₁
  obtain rfl : i = j := by omega
  exact Option.some.inj (hi.symm.trans hj)

/-- The next write has the next number. -/
theorem Numbered.concat {es : List Entry} (N : Numbered es) (hlen : es.length + 1 < 2 ^ 64)
    {a : Entry} (ha : a.seqNo = Fin.ofNat _ (es.length + 1)) : Numbered (es ++ [a]) where
  short := by simpa using hlen
  seqNo {i e} h := by
    rw [List.getElem?_append] at h
    split at h
    · exact N.seqNo h
    · obtain ⟨hi, rfl⟩ : i - es.length = 0 ∧ a = e := by
        rw [List.getElem?_singleton] at h
        split at h
        · exact ⟨‹_›, Option.some.inj h⟩
        · cases h
      rw [ha, Fin.val_ofNat, Nat.mod_eq_of_lt hlen]
      omega

theorem Op.entry_seqNo {i : Nat} {op : Op} {e : Entry} (h : op.entry i = some e) :
    e.seqNo = Fin.ofNat _ i := by
  cases op with
  | insert k v =>
    cases h
    rfl
  | remove k =>
    cases h
    rfl
  | flush => cases h
  | cycle => cases h

/-- A step that writes puts its entry into the write buffer. -/
theorem Db.step_of_entry {db : Db} {i : Nat} {op : Op} {a : Entry} (h : op.entry i = some a)
    (hs : db.seq = Fin.ofNat _ i) :
    db.step op = { db with writeBuf := db.writeBuf.insert a, seq := db.seq + 1 } ∧
      a.seqNo = db.seq := by
  cases op with
  | insert k v =>
    cases h
    exact ⟨by rw [← hs]; rfl, hs.symm⟩
  | remove k =>
    cases h
    exact ⟨by rw [← hs]; rfl, hs.symm⟩
  | flush => cases h
  | cycle => cases h

theorem numbered_written {ops : List Op} : (written ops).length < 2 ^ 64 →
    Numbered (written ops) := by
  induction ops using List.reverseRecOn with
  | nil => exact fun h => ⟨h, fun h => nomatch h⟩
  | append_singleton ops op ih =>
    intro h
    rw [written_append] at h ⊢
    cases hop : op.entry ((written ops).length + 1) with
    | none =>
      rw [hop] at h
      simpa using ih (by simpa using h)
    | some a =>
      rw [hop] at h
      have hlen : (written ops).length + 1 < 2 ^ 64 := by simpa using h
      exact (ih (by omega)).concat hlen (Op.entry_seqNo hop)

/-! ## The write buffer is newer than the tree -/

/-- What is in the tree is among the first `m` writes, and what is in the write buffer is
among the others. -/
structure Ranked (es : List Entry) (m : Nat) (db : Db) : Prop where
  bound : m ≤ es.length
  seq : db.seq = Fin.ofNat _ (es.length + 1)
  buf : ∀ e ∈ db.writeBuf.entries, e ∈ es ∧ m < e.seqNo.val
  tree : Sourced (· = maxFanout) (fun e => e ∈ es ∧ e.seqNo.val ≤ m) [] db.world

namespace Ranked

variable {es : List Entry} {m : Nat} {db : Db}

theorem stored (R : Ranked es m db) {e : Entry} (h : db.world.view.Stored e) :
    e ∈ es ∧ e.seqNo.val ≤ m := by
  obtain ⟨x, n, hx, he⟩ := h
  exact (R.tree.node (x := x) hx).entries e he

/-- **The write buffer is newer** than the tree. -/
theorem newer (R : Ranked es m db) {e e' : Entry} (he : e ∈ db.writeBuf.entries)
    (he' : db.world.view.Stored e') : e'.seqNo < e.seqNo := by
  have h := (R.buf e he).2
  have h' := (R.stored he').2
  exact Fin.lt_def.mpr (by omega)

/-- A write goes to the write buffer. -/
theorem write (R : Ranked es m db) {a : Entry} (ha : a.seqNo = db.seq)
    (hlen : es.length + 1 < 2 ^ 64) :
    Ranked (es ++ [a]) m { db with writeBuf := db.writeBuf.insert a, seq := db.seq + 1 } where
  bound := by
    have := R.bound
    simp only [List.length_append, List.length_singleton]
    omega
  seq := by
    show db.seq + 1 = _
    rw [R.seq, List.length_append, List.length_singleton]
    apply Fin.ext
    simp [Fin.val_add]
  buf := by
    intro e he
    have he : e ∈ db.writeBuf.entries.orderedInsert Entry.le a := he
    rcases (List.mem_orderedInsert Entry.le).mp he with rfl | he
    · refine ⟨by simp, ?_⟩
      have hval : e.seqNo.val = es.length + 1 := by
        rw [ha, R.seq, Fin.val_ofNat, Nat.mod_eq_of_lt hlen]
      have := R.bound
      omega
    · exact ⟨List.mem_append_left _ (R.buf e he).1, (R.buf e he).2⟩
  tree := R.tree.mono fun _ h => ⟨List.mem_append_left _ h.1, h.2⟩

/-- A drain moves the write buffer into the tree. -/
theorem drain (R : Ranked es m db) (N : Numbered es) {w : World}
    (hw : ∀ {P : Entry → Prop}, (∀ e ∈ db.writeBuf.entries, P e) → Sourced (· = maxFanout) P [] db.world →
      Sourced (· = maxFanout) P [] w) : Ranked es es.length { db with writeBuf := {}, world := w } where
  bound := le_rfl
  seq := R.seq
  buf _ he := nomatch he
  tree :=
    hw (fun e he => ⟨(R.buf e he).1, N.le_length (R.buf e he).1⟩)
      (R.tree.mono fun _ h => ⟨h.1, N.le_length h.1⟩)

end Ranked

/-- `open` on an empty directory finds nothing. -/
theorem sourced_start {F : Nat → Prop} {P : Entry → Prop} (sizing : Sizing) :
    Sourced F P [] (Db.start sizing).world := by
  have hempty : Sourced F P [] { sizing } :=
    ⟨fun hx => (nomatch hx), fun hx => (nomatch hx), [], rfl⟩
  exact traces_openTree.exec hempty none

/-- **Every run** with fewer than 2^64 writes ranks them. -/
theorem ranked_run (sizing : Sizing) (ops : List Op) : (written ops).length < 2 ^ 64 →
    ∃ m, Ranked (written ops) m ((Db.start sizing).run ops) := by
  induction ops using List.reverseRecOn with
  | nil =>
    exact fun _ => ⟨0, le_rfl, rfl, fun _ he => (nomatch he), sourced_start sizing⟩
  | append_singleton ops op ih =>
    intro hlen
    rw [written_append] at hlen ⊢
    have hprev : (written ops).length < 2 ^ 64 := by
      rw [List.length_append] at hlen
      omega
    obtain ⟨m, R⟩ := ih hprev
    have N := numbered_written hprev
    rw [Db.run_append]
    cases hop : op.entry ((written ops).length + 1) with
    | some a =>
      obtain ⟨hstep, ha⟩ := Db.step_of_entry hop R.seq
      rw [hop] at hlen
      rw [show ((Db.start sizing).run ops).run [op] = _ from hstep]
      exact ⟨m, R.write ha (by simpa using hlen)⟩
    | none =>
      rw [Option.toList_none, List.append_nil]
      cases op with
      | insert k v => cases hop
      | remove k => cases hop
      | flush => exact ⟨_, R.drain N fun hP S => (traces_persistRoot hP).exec S none⟩
      | cycle => exact ⟨_, R.drain N fun hP S =>
        (traces_flushPending (fun _ h => h.ge) hP).swallow _ S none⟩

/-! ## No write is lost -/

/-- The tree is layered, and each write is held: a version at least as new is in the write
buffer or in the tree. -/
structure Held (es : List Entry) (db : Db) : Prop where
  layered : db.world.tree.Layered
  held : ∀ e ∈ es, Covers db.writeBuf.entries e ∨ db.world.view.Holds e

theorem Fills.holds {t t' : Tree} {n : SSTNode} {es : List Entry} (P : Fills t t' n es)
    {e : Entry} (h : Covers es e ∨ t.view.Holds e) : ∃ e', t'.view.Stored e' ∧
      e'.key = e.key ∧ e.seqNo ≤ e'.seqNo := by
  rcases h with ⟨e', he', h⟩ | ⟨x, m, hx, e', he', h⟩
  · exact ⟨e', P.stored.mpr (.inr he'), h⟩
  · exact ⟨e', P.stored.mpr (.inl ⟨x, m, hx, he'⟩), h⟩

/-- **Every clean run** with fewer than 2^64 writes holds them. -/
theorem held_run (sizing : Sizing) (ops : List Op) : (written ops).length < 2 ^ 64 →
    Clean ((Db.start sizing).run ops).world.rest.splits →
      Held (written ops) ((Db.start sizing).run ops) := by
  induction ops using List.reverseRecOn with
  | nil =>
    intro _ _
    refine ⟨?_, fun _ he => nomatch he⟩
    rw [Db.run_nil, start_world]
    exact (blank_opened sizing).layered
  | append_singleton ops op ih =>
    intro hlen hC
    have hprev : (written ops).length < 2 ^ 64 := by
      rw [written_append, List.length_append] at hlen
      omega
    rw [Db.run_append] at hC ⊢
    obtain ⟨db, hdb⟩ : ∃ db, db = (Db.start sizing).run ops := ⟨_, rfl⟩
    rw [← hdb] at ih hC ⊢
    have hC' : Clean (db.step op).world.rest.splits := hC
    obtain ⟨l, hl⟩ := db.step_splits op
    have hclean : Clean db.world.rest.splits := (hl ▸ hC').of_append
    obtain ⟨V, hheld⟩ := ih hprev hclean
    have T : Tidy db.world (some db.world.rest.root) := by
      rw [hdb] at hclean ⊢
      exact tidy_run sizing ops hclean.attached
    have O : db.world.tree.Ordered := by
      rw [hdb] at hclean ⊢
      exact ordered_run sizing ops hclean
    obtain ⟨m, R⟩ := ranked_run sizing ops hprev
    rw [← hdb] at R
    show Held _ (db.step op)
    rw [written_append]
    cases hop : op.entry ((written ops).length + 1) with
    | some a =>
      obtain ⟨hstep, -⟩ := Db.step_of_entry hop R.seq
      rw [hstep]
      refine ⟨V, fun e he => ?_⟩
      rw [Option.toList_some, List.mem_append, List.mem_singleton] at he
      have hsub : db.writeBuf.entries ⊆ (db.writeBuf.insert a).entries := fun f hf =>
        (List.mem_orderedInsert Entry.le).mpr (.inr hf)
      rcases he with he | rfl
      · exact (hheld e he).imp_left (·.mono hsub)
      · exact .inl (.of_mem ((List.mem_orderedInsert Entry.le).mpr (.inl rfl)))
    | none =>
      rw [Option.toList_none, List.append_nil]
      have hcases : op = .flush ∨ op = .cycle := by
        cases op with
        | insert k v => cases hop
        | remove k => cases hop
        | flush => exact .inl rfl
        | cycle => exact .inr rfl
      obtain ⟨n, cs, hn, hs, hF, -⟩ := db.drain_clean hcases T hC'
      have S' := hn.sound T.sound
      refine ⟨hs.layered S' (hn.ordered T.sound O) (hn.layered T.sound V ?_) hF, fun e he => .inr ?_⟩
      · exact fun e he e' he' _ => R.newer he he'
      · obtain ⟨e', hst, hk, hle⟩ := hn.holds (hheld e he)
        obtain ⟨x, k, hx, e'', he'', hk', hle'⟩ := hs.holds S' hst
        exact ⟨x, k, hx, e'', he'', hk'.trans hk, hle.trans hle'⟩

end GravTree
