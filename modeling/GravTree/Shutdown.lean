import GravTree.Recency

/-!
# The destructor

The destructor stops the flush thread, waits for it, and then does what `flush()` does. Nobody
may use the tree meanwhile. When it is done everything that was ever written is on disk, whatever
the flush thread was doing when it was stopped.
-/

namespace GravTree

open State

variable {n : Nat}

def Client.isIdle : Client → Bool
  | .idle => true
  | _ => false

namespace Destructor

def isIdle : Destructor → Bool
  | .idle => true
  | _ => false

/-- The flush thread has been joined. -/
def joined : Destructor → Bool
  | .drain | .persist _ | .gone => true
  | _ => false

/-- The write buffer has been drained for the last time. -/
def emptied : Destructor → Bool
  | .persist _ | .gone => true
  | _ => false

def isGone : Destructor → Bool
  | .gone => true
  | _ => false

theorem isGone_iff {d : Destructor} : d.isGone = true ↔ d = .gone := by
  cases d <;> simp [isGone]

end Destructor

/-- The destructor is called when every client has returned, and no client calls anything
afterwards. -/
def State.Secludes (s : State n) : Event n → Prop
  | .call _ _ | .client _ _ _ => s.destructor.isIdle = true
  | .flusher _ => True
  | .destructor _ => s.destructor.isIdle = true → ∀ i, (s.clients i).isIdle = true

instance (s : State n) : ∀ e : Event n, Decidable (s.Secludes e)
  | .call _ _ => inferInstanceAs (Decidable (s.destructor.isIdle = true))
  | .client _ _ _ => inferInstanceAs (Decidable (s.destructor.isIdle = true))
  | .flusher _ => inferInstanceAs (Decidable True)
  | .destructor _ =>
    inferInstanceAs (Decidable (s.destructor.isIdle = true → ∀ i, (s.clients i).isIdle = true))

/-! ## The order of the shutdown -/

/-- How far the destructor has come. -/
structure Closing (s : State n) : Prop where
  quiet : s.destructor.isIdle = false → ∀ i, (s.clients i).isIdle = true
  exited : s.destructor.joined = true → s.flusher = .exited
  drained : s.destructor.emptied = true → s.writeBuf = {}

namespace Closing

variable {o : Options} {s t : State n}

theorem idle (h : s.destructor = .idle) : Closing s where
  quiet h' := by simp [h, Destructor.isIdle] at h'
  exited h' := by simp [h, Destructor.joined] at h'
  drained h' := by simp [h, Destructor.emptied] at h'

/-- Clients leave the destructor alone. -/
theorem destructor_client {i : Fin n} {woken : Option (Waiter n)} {plan : Option (Nat × Stop)}
    (hs : s.step o (.client i woken plan) = some t) : t.destructor = s.destructor := by
  cases step_moves hs <;> rfl

/-- So do calls. -/
theorem destructor_call {i : Fin n} {c : Call} (hs : s.step o (.call i c) = some t) :
    t.destructor = s.destructor := by
  cases step_moves hs
  cases c <;> rfl

/-- The flush thread takes no step once it has been joined. -/
theorem not_joined (C : Closing s) {plan : Option (Nat × Stop)}
    (hs : s.step o (.flusher plan) = some t) :
    t.destructor = s.destructor ∧ s.destructor.joined = false := by
  refine ⟨by cases step_moves hs <;> rfl, Bool.eq_false_iff.mpr fun h => ?_⟩
  have : s.flusherStep plan = some t := hs
  rw [State.flusherStep, C.exited h] at this
  cases this

theorem flusher (C : Closing s) {plan : Option (Nat × Stop)}
    (hs : s.step o (.flusher plan) = some t) : Closing t := by
  obtain ⟨hd, hnot⟩ := C.not_joined hs
  have hclients : ∀ i, (s.clients i).isIdle = true → (t.clients i).isIdle = true := by
    cases step_moves hs with
    | flusherNotify _ =>
      intro i h
      cases hc : s.clients i <;> simp_all [Client.isIdle, Client.wake]
    | _ => exact fun i h => h
  refine ⟨fun h i => hclients i (C.quiet (hd ▸ h) i), fun h => ?_, fun h => ?_⟩
  · rw [hd, hnot] at h
    cases h
  · rw [hd] at h
    cases hs' : s.destructor <;> simp_all [Destructor.joined, Destructor.emptied]

/-- **One step.** -/
theorem step (C : Closing s) {e : Event n} (hok : s.Secludes e) (hs : s.step o e = some t) :
    Closing t := by
  have hidle : s.destructor.isIdle = true → s.destructor = .idle := fun h => by
    cases hd : s.destructor <;> simp_all [Destructor.isIdle]
  cases e with
  | call i c => exact .idle ((destructor_call hs).trans (hidle hok))
  | client i woken plan => exact .idle ((destructor_client hs).trans (hidle hok))
  | flusher plan => exact C.flusher hs
  | destructor plan =>
    cases step_moves hs with
    | stop h => exact ⟨fun _ => hok (by rw [h]; rfl), fun h => (nomatch h), fun h => (nomatch h)⟩
    | stopNotify h =>
      refine ⟨fun _ i => ?_, fun h => (nomatch h), fun h => (nomatch h)⟩
      have := C.quiet (by rw [h]; rfl) i
      cases hc : s.clients i <;> simp_all [Client.isIdle, Client.wake]
    | join h hf => exact ⟨fun _ => C.quiet (by rw [h]; rfl), fun _ => hf, fun h => (nomatch h)⟩
    | stopDrain h =>
      exact ⟨fun _ => C.quiet (by rw [h]; rfl), fun _ => C.exited (by rw [h]; rfl), fun _ => rfl⟩
    | stopPersist h =>
      exact ⟨fun _ => C.quiet (by rw [h]; rfl), fun _ => C.exited (by rw [h]; rfl),
        fun _ => C.drained (by rw [h]; rfl)⟩

/-- The last step of the destructor is the one that writes the root. -/
theorem gone (C : Closing s) {e : Event n} (hok : s.Secludes e) (hs : s.step o e = some t)
    (h : t.destructor = .gone) :
    ∃ plan pending, e = .destructor plan ∧ s.destructor = .persist pending := by
  have hbusy : s.destructor = .gone → s.destructor.isIdle = false := fun h => by rw [h]; rfl
  cases e with
  | call i c =>
    exact absurd hok (by simp [State.Secludes, hbusy ((destructor_call hs).symm.trans h)])
  | client i woken plan =>
    exact absurd hok (by simp [State.Secludes, hbusy ((destructor_client hs).symm.trans h)])
  | flusher plan =>
    obtain ⟨hd, hnot⟩ := C.not_joined hs
    rw [← hd, h] at hnot
    cases hnot
  | destructor plan =>
    cases step_moves hs with
    | @stopPersist pending _ hd => exact ⟨plan, pending, rfl, hd⟩
    | _ => cases h

end Closing

/-! ## Everything is on disk -/

/-- The last step of the destructor. -/
theorem Recent.durable {s t : State n} {pending : List Entry} (R : Recent s) (C : Closing s)
    {o : Options} (hs : s.step o (.destructor none) = some t)
    (hd : s.destructor = .persist pending) (R' : Recent t) {dir : Text} (hplain : dir.Plain)
    (hnarrow : dir.Narrow) (F : t.world.Founded) (hfit : t.world.disk.Fits) :
    t.world.Durable dir t.log := by
  cases step_moves hs with
  | @stopPersist pending' _ h =>
    obtain rfl : pending = pending' := by
      rw [hd] at h
      exact Destructor.persist.inj h
    have hworld := R.tidy.exec_destroyTree pending none
    have hsettled := (R.tidy.persist_drained pending).2
    rw [← hworld] at hsettled
    refine Settled.durable (u := Act.exec (catchAll (destroyTree pending)) ⟨s.world, none⟩) hsettled
      ⟨hsettled.tidy, R'.ordered, R'.layered, R'.source, fun e he => ?_⟩ R'.numbered hplain hnarrow
      F hfit
    -- nobody holds anything any more
    rcases R'.kept e he with (he | he | ⟨i, he⟩ | he) | he
    · have hbuf : s.writeBuf = {} := C.drained (by rw [hd]; rfl)
      have he : e ∈ s.writeBuf.entries := he
      rw [hbuf] at he
      cases he
    · have hf : s.flusher = .exited := C.exited (by rw [hd]; rfl)
      have he : e ∈ s.flusher.held := he
      rw [hf] at he
      cases he
    · have hc := C.quiet (by rw [hd]; rfl) i
      have he : e ∈ (s.clients i).held := he
      cases hi : s.clients i <;> simp_all [Client.isIdle, Client.held]
    · cases he
    · exact he
  | _ => simp_all

/-- **The destructor is a barrier**: when it is done, every write is on disk. -/
theorem shutdown_durable (o : Options) (sizing : Sizing) {dir : Text} (hplain : dir.Plain)
    (hnarrow : dir.Narrow) {s : State n}
    (h : System.Reach (State.step o)
      (fun s e => s.Mends o e ∧ ¬ s.Overtakes e ∧ s.Secludes e) (State.start n sizing) s)
    (hgone : s.destructor = .gone) (hlen : s.log.length < 2 ^ 64) (hC : Clean s.world.splits)
    (hfit : s.world.disk.Fits) : s.world.Durable dir s.log := by
  have hinv := h.inv (fun s => s.world.Founded ∧ Closing s ∧
      (s.log.length < 2 ^ 64 → Clean s.world.rest.splits → Recent s ∧
        (s.destructor = .gone → s.world.disk.Fits → s.world.Durable dir s.log)))
    ⟨founded_start n sizing, .idle rfl, fun _ _ => ⟨.start n sizing, fun h => nomatch h⟩⟩
    fun s e t ih hok hs => by
      obtain ⟨F, C, ih⟩ := ih
      have F' := F.step hs
      refine ⟨F', C.step hok.2.2 hs, fun hlen hC => ?_⟩
      obtain ⟨hle, l, hl⟩ := State.step_grows hs
      obtain ⟨R, -⟩ := ih (lt_of_le_of_lt hle hlen) (hl ▸ hC).of_append
      have R' := R.step hok.1 hok.2.1 hs hlen hC
      refine ⟨R', fun hgone hfit => ?_⟩
      obtain ⟨plan, pending, rfl, hd⟩ := C.gone hok.2.2 hs hgone
      obtain rfl : plan = none := hok.1
      exact R.durable C hs hd R' hplain hnarrow F' hfit
  exact (hinv.2.2 hlen hC).2 hgone hfit

/-- A write, the end of the cycle before it, and the destructor. -/
def closing : List (Event 2) :=
  List.flatten [
    .call one (.remove (.byte 10)) :: List.replicate 4 (.client one none none),
    List.replicate 3 (.flusher none), List.replicate 2 (.destructor none),
    List.replicate 2 (.flusher none), List.replicate 3 (.destructor none)]

/-- The last write is on disk without a `flush()`. -/
theorem shutdown_durable_closing : ∃ s : State 2, s.destructor.isGone = true ∧
    s.log.length = 4 ∧ s.world.Durable ['d'] s.log := by
  have hrun : ((System.runOk (State.step ⟨1, 2 ^ 30⟩)
      (fun s e => s.Mends ⟨1, 2 ^ 30⟩ e ∧ ¬ s.Overtakes e ∧ s.Secludes e)
      (State.start 2 fun _ => (64, 7)) (overlapping ++ closing)).any fun s =>
        s.destructor.isGone && decide (s.log.length = 4) && decide (Clean s.world.splits) &&
          decide (∀ p ∈ s.world.disk.node.entries, p.2.Slim s.world.sizing)) = true := by
    decide +kernel
  obtain ⟨s, hs, hp⟩ := (Option.any_eq_true _ _).mp hrun
  simp only [Bool.and_eq_true, decide_eq_true_eq] at hp
  obtain ⟨⟨⟨hgone, hlog⟩, hC⟩, hslim⟩ := hp
  have hreach := System.reach_runOk hs
  exact ⟨s, hgone, hlog, shutdown_durable _ _ (by decide) (by decide) hreach
    (Destructor.isGone_iff.mp hgone) (by omega) hC (((founded_start 2 _).reach hreach).fits hslim)⟩

end GravTree
