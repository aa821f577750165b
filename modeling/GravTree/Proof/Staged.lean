import GravTree.Absorbed
import GravTree.Proof.Moves

/-!
# Where the writes are

A write goes from the write buffer into a local vector of whoever drains it, the flush
thread or a `flush()`, and from there into the tree. As long as they are taken on in the
order they were made, the writes so far are what the tree has taken in, what the flush
thread holds, what a `flush()` holds and what is in the write buffer, in this order.
-/

namespace GravTree

open State

variable {n : Nat}

/-- The entries the flush thread holds. -/
def Flusher.held : Flusher → List Entry
  | .merge pending => pending
  | _ => []

theorem Flusher.held_wake (f : Flusher) : f.wake.held = f.held := by
  cases f <;> rfl

/-- The writes so far: in the tree, with the flush thread, with a `flush()`, in the write
buffer. -/
structure Staged (s : State n) (es ps qs bs : List Entry) : Prop where
  log : s.log = es ++ ps ++ qs ++ bs
  seq : s.seq = Fin.ofNat _ (s.log.length + 1)
  numbered : Numbered s.log
  tree : Absorbed es s.world
  held : ∀ e, e ∈ s.flusher.held ↔ e ∈ ps
  sorted : Sorted s.flusher.held
  buf : ∀ e, e ∈ s.writeBuf.entries ↔ e ∈ bs

namespace Staged

variable {s t : State n} {es ps qs bs : List Entry}

theorem start (n : Nat) (sizing : Sizing) : Staged (State.start n sizing) [] [] [] [] where
  log := rfl
  seq := rfl
  numbered := ⟨Nat.two_pow_pos 64, fun h => nomatch h⟩
  tree := absorbed_start sizing
  held _ := Iff.rfl
  sorted := List.Pairwise.nil
  buf _ := Iff.rfl

/-- Nothing else matters. -/
theorem congr (S : Staged s es ps qs bs) (hlog : t.log = s.log) (hseq : t.seq = s.seq)
    (hworld : t.world = s.world) (hheld : t.flusher.held = s.flusher.held)
    (hbuf : t.writeBuf = s.writeBuf) : Staged t es ps qs bs where
  log := hlog ▸ S.log
  seq := by rw [hseq, hlog, S.seq]
  numbered := hlog ▸ S.numbered
  tree := hworld ▸ S.tree
  held := hheld ▸ S.held
  sorted := hheld ▸ S.sorted
  buf := hbuf ▸ S.buf

theorem numbered_tree (S : Staged s es ps qs bs) : Numbered es := by
  have N := S.numbered
  rw [S.log, List.append_assoc, List.append_assoc] at N
  exact N.append_left

/-- The number of the next write. -/
theorem next (S : Staged s es ps qs bs) (hlen : s.log.length + 1 < 2 ^ 64) :
    s.seq.val = s.log.length + 1 := by
  rw [S.seq, Fin.val_ofNat, Nat.mod_eq_of_lt hlen]

/-- A write is the newest entry, in the log and in the write buffer. -/
theorem write (S : Staged s es ps qs bs) (r : Write) (hlen : s.log.length + 1 < 2 ^ 64) :
    Staged (s.write r) es ps qs
      (bs ++ [{ key := r.key, value := r.value, seqNo := s.seq, deleted := r.deleted }]) := by
  obtain ⟨a, ha⟩ : ∃ a : Entry,
      a = { key := r.key, value := r.value, seqNo := s.seq, deleted := r.deleted } := ⟨_, rfl⟩
  have hlog : (s.write r).log = s.log ++ [a] := by rw [write_log, ha]
  have hbuf : ∀ e, e ∈ (s.write r).writeBuf.entries ↔ e = a ∨ e ∈ s.writeBuf.entries := fun e => by
    rw [ha]
    exact List.mem_orderedInsert Entry.le
  rw [← ha]
  refine ⟨?_, ?_, ?_, S.tree, S.held, S.sorted, fun e => ?_⟩
  · rw [hlog, S.log, List.append_assoc]
  · rw [write_seq, S.seq, hlog, List.length_append, List.length_singleton]
    apply Fin.ext
    simp [Fin.val_add]
  · exact hlog ▸ S.numbered.concat hlen (by rw [ha, ← S.seq])
  · rw [hbuf, S.buf, List.mem_append, List.mem_singleton, or_comm]

/-- The flush thread drains, while no `flush()` holds an entry or none came after it. -/
theorem drain (S : Staged s es ps qs bs) (h : s.flusher = .drain) (hq : qs = [] ∨ bs = []) :
    Staged { s with writeBuf := {}, flusher := .merge s.writeBuf.entries } es bs qs [] := by
  have hps : ps = [] := List.eq_nil_iff_forall_not_mem.mpr fun e he => by
    have := (S.held e).mpr he
    rw [h] at this
    cases this
  refine ⟨?_, S.seq, S.numbered, S.tree, S.buf, s.writeBuf.sorted, fun _ => Iff.rfl⟩
  show s.log = _
  rw [S.log, hps]
  rcases hq with rfl | rfl <;> simp

/-- The flush thread merges. -/
theorem merge (S : Staged s es ps qs bs) {pending : List Entry} (h : s.flusher = .merge pending)
    (hC : Clean (Act.exec (catchAll (flushPending pending)) ⟨s.world, none⟩).rest.splits) :
    Staged { s with
      world := Act.exec (catchAll (flushPending pending)) ⟨s.world, none⟩
      flusher := .clearRequest } (es ++ ps) [] qs bs := by
  have hsorted : Sorted pending := by
    have := S.sorted
    rwa [h] at this
  have hheld : ∀ e, e ∈ pending ↔ e ∈ ps := fun e => by
    have := S.held e
    rwa [h] at this
  have N : Numbered (es ++ ps) := by
    have N := S.numbered
    rw [S.log, List.append_assoc] at N
    exact N.append_left
  have G := S.tree.drain N (b := ⟨pending, hsorted⟩) hheld (.inr rfl) hC
  refine ⟨?_, S.seq, S.numbered, G, fun _ => Iff.rfl, List.Pairwise.nil, S.buf⟩
  show s.log = _
  rw [S.log, List.append_nil]

/-- A `flush()` drains. -/
theorem take (S : Staged s es ps [] bs) : Staged { s with writeBuf := {} } es ps bs [] := by
  refine ⟨?_, S.seq, S.numbered, S.tree, S.held, S.sorted, fun _ => Iff.rfl⟩
  show s.log = _
  rw [S.log, List.append_nil, List.append_nil]

/-- A `flush()` merges and writes the root, while the flush thread holds no entry. -/
theorem persist (S : Staged s es [] qs bs) {pending : List Entry} (hsorted : Sorted pending)
    (hmem : ∀ e, e ∈ pending ↔ e ∈ qs)
    (hC : Clean (Act.exec (persistRoot pending) ⟨s.world, none⟩).rest.splits) :
    Staged { s with world := Act.exec (persistRoot pending) ⟨s.world, none⟩ } (es ++ qs) [] []
      bs := by
  have N : Numbered (es ++ qs) := by
    have N := S.numbered
    rw [S.log, List.append_nil] at N
    exact N.append_left
  have G := S.tree.drain N (b := ⟨pending, hsorted⟩) hmem (.inl rfl) hC
  refine ⟨?_, S.seq, S.numbered, G, S.held, S.sorted, S.buf⟩
  show s.log = _
  rw [S.log, List.append_nil, List.append_nil, List.append_nil]

end Staged

/-- A step takes back neither writes nor calls of `split_leaf`. -/
theorem State.step_grows {o : Options} {s t : State n} {e : Event n} (h : s.step o e = some t) :
    s.log.length ≤ t.log.length ∧ ∃ l, t.world.rest.splits = l ++ s.world.rest.splits := by
  have self := Sourced.self s.world
  cases step_moves h with
  | @call _ c _ => cases c <;> exact ⟨le_rfl, [], rfl⟩
  | write _ => exact ⟨by simp, [], rfl⟩
  | descend _ => exact ⟨le_rfl, ((traces_getFromTree _).exec self _).log⟩
  | persist _ => exact ⟨le_rfl, ((traces_persistRoot fun _ _ => trivial).exec self _).log⟩
  | flusherMerge _ =>
    exact ⟨le_rfl, ((traces_flushPending (fun _ h => h.elim) fun _ _ => trivial).swallow _ self _).log⟩
  | stopPersist _ => exact ⟨le_rfl, ((traces_destroyTree fun _ _ => trivial).swallow _ self _).log⟩
  | _ => exact ⟨le_rfl, [], rfl⟩

end GravTree
