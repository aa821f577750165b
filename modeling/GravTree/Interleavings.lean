import GravTree.Proof.Drain
import GravTree.Proof.Flows
import GravTree.Proof.Lookups

/-!
# Any interleaving

Any number of clients, `flush()` calls among theirs, beside the flush thread and the
destructor. Whatever the order of the critical sections, and even if file operations of the
flush thread throw, no write is lost, none is made up, and `get` does not throw.
-/

namespace GravTree

open State

variable {n : Nat}

/-! ## The tree part of `get` -/

theorem View.firstVersion_stored {v : View} (hsort : ∀ {x m}, v x = some m → Sorted m.buffer)
    {k : Bytes} {path : List NodeId} {e : Entry} (h : v.firstVersion k path = some e) :
    v.Stored e ∧ e.key = k := by
  obtain ⟨x, -, hx⟩ := List.exists_of_findSome?_eq_some h
  obtain ⟨m, hm, hget⟩ := Option.bind_eq_some_iff.mp hx
  obtain ⟨hmem, hk, -⟩ := lookupSorted_eq_some (hsort hm) hget
  exact ⟨⟨x, m, hm, hmem⟩, hk⟩

namespace Tidy

variable {w : World} {lag : Option NodeId}

/-- It returns what some entry of the key shows, or nothing. -/
theorem eval_get (T : Tidy w lag) (key : Bytes) : ∃ a : Option Entry,
    Act.eval (getFromTree key) ⟨w, none⟩ = .ok (a.bind Entry.shown) ∧
      ∀ e, a = some e → w.view.Stored e ∧ e.key = key :=
  ⟨_, getFromTree_serves T.sound.shape T.serves key,
    fun _ h => View.firstVersion_stored (fun hx => T.sound.sorted hx) h⟩

/-- Every node that counts is cached, so lookups read no file. -/
theorem fetches (T : Tidy w lag) : Fetches (· = w) fun _ u => u = w where
  refl h := h
  next h := h
  get id v hv := by
    subst hv
    cases hx : World.view v id with
    | some m =>
      exact Act.Spec.mono (getNode_reads hx) (fun _ _ h => ⟨h.2, trivial⟩) fun _ _ h => h.2.elim
    | none =>
      exact (getNode_fails hx fun h => T.filed.valid.mp h hx).mono (fun _ _ h => h.elim)
        fun _ _ h => h.2

/-- It changes nothing, whatever is to throw. -/
theorem exec_get (T : Tidy w lag) (key : Bytes) (plan : Option (Nat × Stop)) :
    Act.exec (getFromTree key) ⟨w, plan⟩ = w :=
  haveI : Act.Course (fun _ u => u = w) fun _ u => u = w := ⟨fun _ h => h, fun _ h => h⟩
  (T.fetches.getFromTree key rfl).exec (fun _ h => h) plan

end Tidy

/-- What was drained or in the tree before is behind something in the tree now. -/
theorem Drained.holds {w u : World} {es : List Entry} (D : Drained w es u)
    (T : Tidy w (some w.rest.root)) {a : Entry} (ha : Covers es a ∨ w.view.Holds a) :
    u.view.Holds a := by
  obtain ⟨cs, hs, -⟩ := D.steps
  obtain ⟨m, hm⟩ := T.merged_tree es
  obtain ⟨b, hst, hk, hle⟩ := hm.holds ha
  obtain ⟨x, k, hx, c, hc, hk', hle'⟩ := hs.holds (hm.sound T.sound) hst
  exact ⟨x, k, hx, c, hc, hk'.trans hk, hle.trans hle'⟩

/-! ## The invariant -/

/-- The answer is no exception, and a value in it was written under the key. -/
def Answer.Written (a : Answer) (log : List Entry) : Prop :=
  ∃ r, a.result = .ok r ∧
    ∀ v, r = some v → ∃ e ∈ log, e.key = a.key ∧ e.value = v ∧ e.deleted = false

theorem Answer.written_shown {key : Bytes} {since : Nat} {log : List Entry} {a : Option Entry}
    (h : ∀ e, a = some e → e ∈ log ∧ e.key = key) :
    Answer.Written ⟨key, since, .ok (a.bind Entry.shown)⟩ log := by
  refine ⟨_, rfl, fun v hv => ?_⟩
  obtain ⟨e, he, hshown⟩ := Option.bind_eq_some_iff.mp hv
  obtain ⟨hmem, hk⟩ := h e he
  unfold Entry.shown at hshown
  split at hshown
  · cases hshown
  · rename_i hd
    exact ⟨e, hmem, hk, Option.some.inj hshown, by simpa using hd⟩

/-- The world is tidy, and what was written is in the write buffer or with a thread, or the tree
has a version that is at least as new. -/
structure Conserved (s : State n) : Prop where
  tidy : Tidy s.world (some s.world.rest.root)
  source : Sourced (· = maxFanout) (· ∈ s.log) [] s.world
  pending : ∀ a, a ∈ s.writeBuf.entries ∨ s.Taken a → a ∈ s.log
  kept : ∀ a ∈ s.log, (a ∈ s.writeBuf.entries ∨ s.Taken a) ∨ s.world.view.Holds a
  written : ∀ a ∈ s.answers, a.Written s.log

namespace Conserved

variable {o : Options} {s t : State n}

theorem start (n : Nat) (sizing : Sizing) : Conserved (State.start n sizing) where
  tidy := (absorbed_start sizing).tidy
  source := sourced_start sizing
  pending a h := by
    rcases h with h | h | ⟨_, h⟩ | h <;> cases h
  kept _ h := nomatch h
  written _ h := nomatch h

/-- Nothing else matters. -/
theorem congr (C : Conserved s) (h : Shares s t) (ht : ∀ a, t.Taken a ↔ s.Taken a) :
    Conserved t where
  tidy := h.world ▸ C.tidy
  source := h.world ▸ h.log ▸ C.source
  pending a ha := by
    rw [h.writeBuf, ht] at ha
    exact h.log ▸ C.pending a ha
  kept a ha := by
    rw [h.log] at ha
    rw [h.writeBuf, ht, h.world]
    exact C.kept a ha
  written := h.answers ▸ h.log ▸ C.written

theorem stored (C : Conserved s) {a : Entry} (h : s.world.view.Stored a) : a ∈ s.log := by
  obtain ⟨x, m, hx, ha⟩ := h
  exact (C.source.node (x := x) hx).entries a ha

theorem write (C : Conserved s) (r : Write) : Conserved (s.write r) := by
  obtain ⟨a, hlog, hbuf⟩ : ∃ a : Entry, (s.write r).log = s.log ++ [a] ∧
      ∀ e, e ∈ (s.write r).writeBuf.entries ↔ e = a ∨ e ∈ s.writeBuf.entries :=
    ⟨_, rfl, fun _ => List.mem_orderedInsert Entry.le⟩
  have hmem : ∀ {e}, e ∈ s.log → e ∈ (s.write r).log := fun he =>
    hlog ▸ List.mem_append_left _ he
  refine ⟨C.tidy, C.source.mono fun _ => hmem, fun e he => ?_, fun e he => ?_, fun b hb => ?_⟩
  · rw [hbuf] at he
    rcases he with (rfl | he) | he
    · exact hlog ▸ List.mem_append_right _ (List.mem_singleton_self _)
    · exact hmem (C.pending e (.inl he))
    · exact hmem (C.pending e (.inr he))
  · rw [hlog, List.mem_append, List.mem_singleton] at he
    rcases he with he | rfl
    · exact (C.kept e he).imp_left (.imp_left fun he => (hbuf e).mpr (.inr he))
    · exact .inl (.inl ((hbuf e).mpr (.inl rfl)))
  · obtain ⟨res, hres, hv⟩ := C.written b hb
    refine ⟨res, hres, fun v h => ?_⟩
    obtain ⟨e, he, h⟩ := hv v h
    exact ⟨e, hmem he, h⟩

theorem answer (C : Conserved s) {a : Answer} (ha : a.Written s.log) : Conserved (s.answer a) where
  tidy := C.tidy
  source := C.source
  pending := C.pending
  kept := C.kept
  written b hb := by
    rcases List.mem_append.mp hb with hb | hb
    · exact C.written b hb
    · exact List.mem_singleton.mp hb ▸ ha

/-- Someone drains the write buffer. -/
theorem take (C : Conserved s) (h : Shares { s with writeBuf := {} } t)
    (ht : ∀ a, t.Taken a ↔ a ∈ s.writeBuf.entries ∨ s.Taken a) : Conserved t where
  tidy := h.world ▸ C.tidy
  source := h.world ▸ h.log ▸ C.source
  pending a ha := by
    rw [h.writeBuf, ht] at ha
    exact h.log ▸ C.pending a (ha.resolve_left List.not_mem_nil)
  kept a ha := by
    rw [h.log] at ha
    exact (C.kept a ha).imp (fun ha => .inr ((ht a).mpr ha)) fun ha => h.world ▸ ha
  written := h.answers ▸ h.log ▸ C.written

/-- Someone merges what it holds into the tree. -/
theorem merge (C : Conserved s) {es : List Entry} {u : World} (D : Drained s.world es u)
    (h : Shares { s with world := u } t) (ht : ∀ a, s.Taken a ↔ a ∈ es ∨ t.Taken a)
    (hsource : Sourced (· = maxFanout) (· ∈ s.log) [] s.world → Sourced (· = maxFanout) (· ∈ s.log) [] u) :
    Conserved t := by
  refine ⟨h.world ▸ D.tidy, ?_, fun a ha => ?_, fun a ha => ?_, h.answers ▸ h.log ▸ C.written⟩
  · rw [h.world, h.log]
    exact hsource C.source
  · rw [h.writeBuf] at ha
    exact h.log ▸ C.pending a (ha.imp_right fun ha => (ht a).mpr (.inr ha))
  · rw [h.log] at ha
    rw [h.writeBuf, h.world]
    rcases C.kept a ha with (ha | ha) | ha
    · exact .inl (.inl ha)
    · exact ((ht a).mp ha).elim (fun ha => .inr (D.holds C.tidy (.inl (.of_mem ha)))) fun ha =>
        .inl (.inr ha)
    · exact .inr (D.holds C.tidy (.inr ha))

end Conserved

/-! ## Runs -/

/-- File operations succeed, except that one may throw in the body of `flush_thread_fn`, as long
as no node is listed in memory only when it has been caught. -/
def State.Mends (o : Options) (s : State n) : Event n → Prop
  | .call _ _ => True
  | .client _ _ plan => plan = none
  | .flusher none => True
  | .flusher (some p) => ∀ t, s.step o (.flusher (some p)) = some t → t.world.Listed
  | .destructor plan => plan = none

instance (o : Options) (s : State n) : ∀ e : Event n, Decidable (s.Mends o e)
  | .call _ _ => inferInstanceAs (Decidable True)
  | .client _ _ plan => inferInstanceAs (Decidable (plan = none))
  | .flusher none => inferInstanceAs (Decidable True)
  | .flusher (some p) =>
    decidable_of_iff (((s.step o (.flusher (some p))).all fun t => t.world.Listed) = true)
      (by simp [State.Mends, Option.all_eq_true])
  | .destructor plan => inferInstanceAs (Decidable (plan = none))

/-- A file error in the flush thread is mended. -/
theorem State.Mends.listed {o : Options} {s t : State n} {plan : Option (Nat × Stop)}
    (h : s.Mends o (.flusher plan)) (hs : s.step o (.flusher plan) = some t) (hp : plan ≠ none) :
    t.world.Listed := by
  obtain ⟨p, rfl⟩ := Option.ne_none_iff_exists'.mp hp
  exact h t hs

namespace Conserved

variable {o : Options} {s t : State n}

/-- **One step**, after which the splits still had their parents. -/
theorem step (C : Conserved s) {e : Event n} (hok : s.Mends o e) (hs : s.step o e = some t)
    (hA : Attached t.world.rest.splits) : Conserved t := by
  cases step_flows hs with
  | still h ht => exact C.congr h ht
  | write r h ht => exact (C.write r).congr h ht
  | @found _ _ k since a ha h ht =>
    have hw : Answer.Written ⟨k, since, .ok ((some a).bind Entry.shown)⟩ s.log := by
      refine Answer.written_shown fun e he => ?_
      obtain ⟨hmem, hk, -⟩ := lookupSorted_eq_some s.writeBuf.sorted (ha.trans he)
      exact ⟨C.pending e (.inl hmem), hk⟩
    exact (C.answer hw).congr h ht
  | @descend i k since woken plan _ hc h ht =>
    obtain rfl : plan = none := hok
    obtain ⟨a, heval, ha⟩ := C.tidy.eval_get k
    rw [C.tidy.exec_get, heval] at h
    refine (C.answer (Answer.written_shown fun e he => ?_)).congr h ht
    exact ⟨C.stored (ha e he).1, (ha e he).2⟩
  | take h ht => exact C.take h ht
  | @merge pending plan _ hf h ht =>
    have hw := h.world
    have hu : plan ≠ none → t.world.Listed := hok.listed hs
    rw [hw] at hA hu
    have hheld : ∀ a, s.Taken a ↔ a ∈ pending ∨ t.Taken a := fun a => by
      rw [ht, Taken, hf]
      exact Iff.rfl
    refine C.merge (C.tidy.cycle_drained pending plan hA hu) h hheld fun S => ?_
    exact (traces_flushPending (fun _ h => h.ge) fun a ha =>
      C.pending a (.inr ((hheld a).mpr (.inl ha)))).swallow _ S
      plan
  | @persist i pending woken plan _ hc h hheld =>
    obtain rfl : plan = none := hok
    refine C.merge (C.tidy.persist_drained pending).1 h hheld fun S => ?_
    exact (traces_persistRoot fun a ha => C.pending a (.inr ((hheld a).mpr (.inl ha)))).exec S none
  | @destroy pending plan _ hd h hheld =>
    obtain rfl : plan = none := hok
    rw [C.tidy.exec_destroyTree] at h
    refine C.merge (C.tidy.persist_drained pending).1 h hheld fun S => ?_
    exact (traces_persistRoot fun a ha => C.pending a (.inr ((hheld a).mpr (.inl ha)))).exec S none

/-- The tree changes when something is drained into it, and only then. -/
theorem drained (C : Conserved s) {e : Event n} (hok : s.Mends o e) (hs : s.step o e = some t)
    (hA : Attached t.world.rest.splits) :
    t.world = s.world ∨ ∃ es, Drained s.world es t.world := by
  cases step_flows hs with
  | still h _ => exact .inl h.world
  | write r h _ => exact .inl h.world
  | found _ h _ => exact .inl h.world
  | @descend i k since woken plan _ _ h _ =>
    obtain rfl : plan = none := hok
    rw [C.tidy.exec_get] at h
    exact .inl h.world
  | take h _ => exact .inl h.world
  | @merge pending plan _ _ h _ =>
    have hu : plan ≠ none → t.world.Listed := hok.listed hs
    rw [h.world] at hA hu ⊢
    exact .inr ⟨pending, C.tidy.cycle_drained pending plan hA hu⟩
  | @persist i pending woken plan _ _ h _ =>
    obtain rfl : plan = none := hok
    rw [h.world]
    exact .inr ⟨pending, (C.tidy.persist_drained pending).1⟩
  | @destroy pending plan _ _ h _ =>
    obtain rfl : plan = none := hok
    rw [C.tidy.exec_destroyTree] at h
    rw [h.world]
    exact .inr ⟨pending, (C.tidy.persist_drained pending).1⟩

/-- **Every state** of an interleaving in which file errors are mended and the splits had their
parents. -/
theorem reach (sizing : Sizing)
    (h : System.Reach (State.step o) (State.Mends o) (State.start n sizing) s) :
    Attached s.world.rest.splits → Conserved s :=
  h.inv (fun s => Attached s.world.rest.splits → Conserved s) (fun _ => .start n sizing)
    fun s e t ih hok hs hA => by
      obtain ⟨-, l, hl⟩ := State.step_grows hs
      exact (ih (hl ▸ hA).of_append).step hok hs hA

end Conserved

/-- The entry is in the tree. -/
def World.Has (w : World) (e : Entry) : Prop := w.Below w.manifest.rootId e

theorem Tidy.has_iff {w : World} {lag : Option NodeId} (T : Tidy w lag) {e : Entry} :
    w.Has e ↔ w.view.Stored e := by
  constructor
  · intro hpath
    obtain ⟨path, x, m, -, hx, he⟩ := hpath
    rw [T.fetch] at hx
    exact ⟨x, m, hx, he⟩
  · intro hx
    obtain ⟨x, m, hx, he⟩ := hx
    obtain ⟨path, hpath, -⟩ := T.existsUnique_walk hx
    exact ⟨path, x, m, hpath, (T.fetch x).trans hx, he⟩

/-- Two clients, for examples. -/
def one : Fin 2 := 0

def two : Fin 2 := 1

/-- Two clients write 2 MB each, which fills the root. The flush thread takes it on, but the first
file it writes throws. Then the first client reads what it wrote. -/
def brokenSplit : List (Event 2) :=
  List.flatten [
    .call one (.insert (.byte 10) (.zeros (2 ^ 21))) :: List.replicate 3 (.client one none none),
    .call two (.insert (.byte 20) (.zeros (2 ^ 21))) :: List.replicate 5 (.client two none none),
    List.replicate 4 (.flusher none), [.flusher (some (0, .fault))],
    .call one (.get (.byte 10)) :: List.replicate 2 (.client one none none)]

theorem exists_brokenSplit : ∃ s : State 2,
    System.Reach (State.step ⟨2 ^ 22, 2 ^ 30⟩) (State.Mends ⟨2 ^ 22, 2 ^ 30⟩)
      (State.start 2 fun _ => (64, 7)) s ∧ Attached s.world.splits ∧ s.log.length = 2 ∧
      s.answers.length = 1 ∧ s.world.splits.length = 1 ∧ s.world.height = 1 := by
  have hrun : ((System.runOk (State.step ⟨2 ^ 22, 2 ^ 30⟩) (State.Mends ⟨2 ^ 22, 2 ^ 30⟩)
      (State.start 2 fun _ => (64, 7)) brokenSplit).any fun s =>
        decide (Attached s.world.splits) && decide (s.log.length = 2) &&
          decide (s.answers.length = 1) && decide (s.world.splits.length = 1) &&
            decide (s.world.height = 1)) = true := by
    decide +kernel
  obtain ⟨s, hs, hp⟩ := (Option.any_eq_true _ _).mp hrun
  simp only [Bool.and_eq_true, decide_eq_true_eq] at hp
  obtain ⟨⟨⟨⟨hA, hlog⟩, hanswers⟩, hsplits⟩, hheight⟩ := hp
  exact ⟨s, System.reach_runOk hs, hA, hlog, hanswers, hsplits, hheight⟩

variable (o : Options) (sizing : Sizing) {s : State n}

/-- **No write is lost and none is made up** in any interleaving. -/
theorem writes_conserved
    (h : System.Reach (State.step o) (State.Mends o) (State.start n sizing) s)
    (hA : Attached s.world.splits) :
    (∀ e, e ∈ s.writeBuf.entries ∨ s.Taken e ∨ s.world.Has e → e ∈ s.log) ∧
      ∀ e ∈ s.log, e ∈ s.writeBuf.entries ∨ s.Taken e ∨
        ∃ e', s.world.Has e' ∧ e'.key = e.key ∧ e.seqNo ≤ e'.seqNo := by
  have C : Conserved s := .reach sizing h hA
  refine ⟨fun e he => ?_, fun e he => ?_⟩
  · rw [C.tidy.has_iff, ← or_assoc] at he
    exact he.elim (C.pending e) C.stored
  · rw [← or_assoc]
    refine (C.kept e he).imp_right fun he => ?_
    obtain ⟨e', hst, hkey⟩ := View.holds_iff.mp he
    exact ⟨e', C.tidy.has_iff.mpr hst, hkey⟩

/-- Both writes are still there. -/
theorem writes_conserved_brokenSplit : ∃ s : State 2, s.log.length = 2 ∧
    s.world.splits.length = 1 ∧ s.world.height = 1 ∧
    (∀ e, e ∈ s.writeBuf.entries ∨ s.Taken e ∨ s.world.Has e → e ∈ s.log) ∧
      ∀ e ∈ s.log, e ∈ s.writeBuf.entries ∨ s.Taken e ∨
        ∃ e', s.world.Has e' ∧ e'.key = e.key ∧ e.seqNo ≤ e'.seqNo := by
  obtain ⟨s, hs, hA, hlog, -, hsplits, hheight⟩ := exists_brokenSplit
  exact ⟨s, hlog, hsplits, hheight, writes_conserved _ _ hs hA⟩

/-- **No `get` throws**, or returns a value that was not written under its key. -/
theorem answers_written
    (h : System.Reach (State.step o) (State.Mends o) (State.start n sizing) s)
    (hA : Attached s.world.splits) :
    ∀ a ∈ s.answers, a.Written s.log :=
  (Conserved.reach sizing h hA).written

theorem answers_written_brokenSplit : ∃ s : State 2, s.answers.length = 1 ∧
    s.world.splits.length = 1 ∧ s.world.height = 1 ∧ ∀ a ∈ s.answers, a.Written s.log := by
  obtain ⟨s, hs, hA, -, hanswers, hsplits, hheight⟩ := exists_brokenSplit
  exact ⟨s, hanswers, hsplits, hheight, answers_written _ _ hs hA⟩

/-- **Tree, manifest and cache agree** after every step. -/
theorem agreement_reach
    (h : System.Reach (State.step o) (State.Mends o) (State.start n sizing) s)
    (hA : Attached s.world.splits) :
    Agreement s.world :=
  (Conserved.reach sizing h hA).tidy.agreement

theorem agreement_reach_brokenSplit : ∃ s : State 2, s.world.splits.length = 1 ∧
    s.world.height = 1 ∧ Agreement s.world := by
  obtain ⟨s, hs, hA, -, -, hsplits, hheight⟩ := exists_brokenSplit
  exact ⟨s, hsplits, hheight, agreement_reach _ _ hs hA⟩

end GravTree
