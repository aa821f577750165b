import GravTree.Proof.Moves

/-!
# Lost wakeups

The flags that the waits on `flush_cv_` test are set, and their notifications
issued, without `flush_cv_mu_`. So a notification can fall between a waiter's test
and its block, and then it wakes nobody.

That is the only way to lose a wakeup: in a run without such a notification, a
thread that is blocked although its predicate holds is about to be woken.
-/

namespace GravTree

open State

variable {n : Nat}

namespace Client

/-- Before `notify_one`. -/
def isNotify : Client → Bool
  | .notify _ => true
  | _ => false

/-- Past a failed test. -/
def isWaiting : Client → Bool
  | .block _ => true
  | .blocked _ => true
  | _ => false

@[simp] theorem isWaiting_wake (c : Client) : c.wake.isWaiting = c.isBlock := by
  cases c <;> rfl

@[simp] theorem isNotify_wake (c : Client) : c.wake.isNotify = c.isNotify := by
  cases c <;> rfl

@[simp] theorem isWaiting_signalled (b : Bool) : (signalled b).isWaiting = false := by
  cases b <;> rfl

@[simp] theorem isWaiting_next (k : Resume) : k.next.isWaiting = false := by
  cases k <;> rfl

theorem isWaiting_of_isBlocked {c : Client} (h : c.isBlocked = true) : c.isWaiting = true := by
  cases c <;> first | rfl | cases h

end Client

namespace Flusher

/-- Before `notify_all`, now or once the cycle that has begun is over. -/
def toNotify : Flusher → Bool
  | .raise | .drain | .merge _ | .clearRequest | .clearProgress | .notify => true
  | _ => false

/-- Before `notify_all`. -/
def isNotify : Flusher → Bool
  | .notify => true
  | _ => false

/-- `flush_in_progress_` is up. -/
def inCycle : Flusher → Bool
  | .drain | .merge _ | .clearRequest | .clearProgress => true
  | _ => false

/-- Past a failed test. -/
def isWaiting : Flusher → Bool
  | .block | .blocked => true
  | _ => false

end Flusher

namespace Destructor

/-- Before `notify_all`. -/
def isNotify : Destructor → Bool
  | .notify => true
  | _ => false

end Destructor

namespace State

/-- The thread is blocked on `flush_cv_`. -/
def Blocked (s : State n) : Waiter n → Prop
  | .flusher => s.flusher.isBlocked = true
  | .client j => (s.clients j).isBlocked = true

/-- The predicate of the thread's wait. -/
def Ready (s : State n) : Waiter n → Prop
  | .flusher => s.wanted = true
  | .client _ => s.calm = true

/-- Some running thread still has a notification to issue that wakes `t`: a
`notify_all`, or a `notify_one` with nobody else to wake. -/
def WillWake (s : State n) (t : Waiter n) : Prop :=
  s.flusher.toNotify = true ∨ s.destructor.isNotify = true ∨
    (∃ i, (s.clients i).isNotify = true) ∧ ∀ u, s.Blocked u → u = t

/-- Whoever is blocked although its predicate holds will be woken. -/
def NoLostWakeup (s : State n) : Prop := ∀ t, s.Blocked t → s.Ready t → s.WillWake t

/-- The notification issued next comes too early: a thread whose predicate holds by
now has tested it in vain and is not blocked yet. -/
def TooEarly (s : State n) : Event n → Prop
  | .call _ _ => False
  | .client i _ _ =>
    (s.clients i).isNotify = true ∧ s.flusher.isBlock = true ∧ s.wanted = true
  | .flusher _ =>
    s.flusher.isNotify = true ∧ s.calm = true ∧ ∃ j, (s.clients j).isBlock = true
  | .destructor _ =>
    s.destructor.isNotify = true ∧
      (s.flusher.isBlock = true ∨ ∃ j, (s.clients j).isBlock = true)

instance (s : State n) : ∀ e : Event n, Decidable (s.TooEarly e)
  | .call _ _ => inferInstanceAs (Decidable False)
  | .client _ _ _ => inferInstanceAs (Decidable (_ ∧ _ ∧ _))
  | .flusher _ => @instDecidableAnd _ _ _ (@instDecidableAnd _ _ _ (Nat.decidableExistsFin _))
  | .destructor _ => @instDecidableAnd _ _ _ (@instDecidableOr _ _ _ (Nat.decidableExistsFin _))

end State

/-! ## The invariant -/

/-- Where the notifications that the waiting threads need are. -/
structure WakeInv (s : State n) : Prop where
  progress : s.inProgress = s.flusher.inCycle
  requested : s.flusher.isWaiting = true → s.requested = true →
    ∃ i, (s.clients i).isNotify = true
  stopped : s.flusher.isWaiting = true → s.stop = true → s.destructor.isNotify = true
  client : ∀ j, (s.clients j).isWaiting = true → s.inProgress = true ∨ s.flusher.isNotify = true
  clientStopped : ∀ j, (s.clients j).isWaiting = true → s.stop = true →
    s.destructor.isNotify = true

namespace WakeInv

variable {s t : State n}

/-- A client that is not issuing a notification goes on, and does not wait. -/
theorem goto (I : WakeInv s) {i : Fin n} {c : Client} (hi : (s.clients i).isNotify = false)
    (hc : c.isWaiting = false) : WakeInv (s.goto i c) where
  progress := I.progress
  requested hw hr := by
    obtain ⟨j, hj⟩ := I.requested hw hr
    have hne : j ≠ i := fun h => by simp [h, hi] at hj
    exact ⟨j, by simpa [hne] using hj⟩
  stopped := I.stopped
  client j hj := by
    by_cases hji : j = i
    · simp [hji, hc] at hj
    · exact I.client j (by simpa [hji] using hj)
  clientStopped j hj := by
    by_cases hji : j = i
    · simp [hji, hc] at hj
    · exact I.clientStopped j (by simpa [hji] using hj)

/-- A client that was waiting or begins to wait. -/
theorem keepWaiting (I : WakeInv s) {i : Fin n} {c : Client}
    (hi : (s.clients i).isNotify = false) (hp : s.inProgress = true ∨ s.flusher.isNotify = true)
    (hs : s.stop = true → s.destructor.isNotify = true) : WakeInv (s.goto i c) where
  progress := I.progress
  requested hw hr := by
    obtain ⟨j, hj⟩ := I.requested hw hr
    have hne : j ≠ i := fun h => by simp [h, hi] at hj
    exact ⟨j, by simpa [hne] using hj⟩
  stopped := I.stopped
  client j hj := by
    by_cases hji : j = i
    · exact hp
    · exact I.client j (by simpa [hji] using hj)
  clientStopped j hj := by
    by_cases hji : j = i
    · exact hs
    · exact I.clientStopped j (by simpa [hji] using hj)

/-- While a client waits, the flush thread does not. -/
theorem not_waiting (I : WakeInv s) {j : Fin n} (hj : (s.clients j).isWaiting = true) :
    s.flusher.isWaiting = false := by
  rcases I.client j hj with h | h
  · rw [I.progress] at h
    cases hf : s.flusher <;> simp_all [Flusher.inCycle, Flusher.isWaiting]
  · cases hf : s.flusher <;> simp_all [Flusher.isNotify, Flusher.isWaiting]

/-- A client has issued its notification, and the flush thread does not need it. -/
theorem notified (I : WakeInv s) {i : Fin n} {c : Client}
    (hw : s.flusher.isWaiting = true → s.requested = false) (hc : c.isWaiting = false) :
    WakeInv (s.goto i c) where
  progress := I.progress
  requested h hr := by
    have hr : s.requested = true := hr
    simp [hw h] at hr
  stopped := I.stopped
  client j hj := by
    by_cases hji : j = i
    · simp [hji, hc] at hj
    · exact I.client j (by simpa [hji] using hj)
  clientStopped j hj := by
    by_cases hji : j = i
    · simp [hji, hc] at hj
    · exact I.clientStopped j (by simpa [hji] using hj)

/-- The flush thread moves on, does not wait, and nobody waits for what it leaves behind. -/
theorem flusher (I : WakeInv s) {f : Flusher} (hf : f.isWaiting = false)
    (hp : f.inCycle = s.flusher.inCycle) (hn : s.flusher.isNotify = false) :
    WakeInv { s with flusher := f } where
  progress := I.progress.trans hp.symm
  requested h := by simp [hf] at h
  stopped h := by simp [hf] at h
  client j hj := .inl ((I.client j hj).resolve_right (by simp [hn]))
  clientStopped := I.clientStopped

theorem start (n : Nat) (sizing : Sizing) : WakeInv (State.start n sizing) where
  progress := rfl
  requested h := (nomatch h)
  stopped h := nomatch h
  client _ h := nomatch h
  clientStopped _ h := nomatch h

theorem step {o : Options} {e : Event n} (I : WakeInv s) (hok : ¬ s.TooEarly e)
    (hs : s.step o e = some t) : WakeInv t := by
  cases step_moves hs with
  | @call i c h =>
    cases c <;> exact I.goto (by simp [h, Client.isNotify]) rfl
  | below h _ => exact I.goto (by simp [h, Client.isNotify]) rfl
  | atLimit h _ => exact I.goto (by simp [h, Client.isNotify]) rfl
  | pass h _ => exact I.goto (by simp [h, Client.isNotify]) (by simp)
  | @hold i _ _ _ h hc =>
    -- the test failed, so a cycle is on and the destructor has not come
    simp only [calm, Bool.or_eq_false_iff, Bool.not_eq_false'] at hc
    exact I.keepWaiting (by simp [h, Client.isNotify]) (.inl hc.1) (by simp [hc.2])
  | @block i _ _ _ h =>
    have hw : (s.clients i).isWaiting = true := by simp [h, Client.isWaiting]
    exact I.keepWaiting (by simp [h, Client.isNotify]) (I.client i hw) (I.clientStopped i hw)
  | @write i r _ _ h =>
    have I' : WakeInv (s.write r) := ⟨I.1, I.2, I.3, I.4, I.5⟩
    exact I'.goto (by simp [h, Client.isNotify]) rfl
  | full h _ => exact I.goto (by simp [h, Client.isNotify]) rfl
  | done h _ => exact I.goto (by simp [h, Client.isNotify]) rfl
  | already h _ => exact I.goto (by simp [h, Client.isNotify]) (by simp)
  | @request i b _ _ h _ =>
    refine ⟨I.progress, fun _ _ => ⟨i, by simp [Client.isNotify]⟩, I.stopped, fun j hj => ?_,
      fun j hj => ?_⟩
    all_goals
      have hji : j ≠ i := fun hji => by simp [hji, Client.isWaiting] at hj
      have hj : (s.clients j).isWaiting = true := by simpa [hji] using hj
    · exact I.client j hj
    · exact I.clientStopped j hj
  | @notifyNone i b _ h hf _ =>
    refine I.notified (fun hw => ?_) (by simp)
    have hblock : s.flusher.isBlock = true := by
      cases hfl : s.flusher <;> simp_all [Flusher.isWaiting, Flusher.isBlock, Flusher.isBlocked]
    have hno : s.wanted ≠ true := fun hwt => hok ⟨by simp [h, Client.isNotify], hblock, hwt⟩
    simp only [wanted, ne_eq, Bool.or_eq_true, not_or, Bool.not_eq_true] at hno
    exact hno.1
  | @notifyFlusher i b _ h hf =>
    have I' : WakeInv { s with flusher := .test } := I.flusher rfl (by rw [hf]; rfl) (by rw [hf]; rfl)
    exact I'.notified (fun hw => absurd hw Bool.false_ne_true) (by simp)
  | @notifyClient i b j k _ h hj =>
    have hw := I.not_waiting (j := j) (by simp [hj, Client.isWaiting])
    have I' : WakeInv (s.goto j (.wait k)) := I.goto (by simp [hj, Client.isNotify]) rfl
    exact I'.notified (fun hw' => by simp [hw] at hw') (by simp)
  | @found i k t e _ _ h _ =>
    have I' : WakeInv (s.answer ⟨k, t, .ok (if e.deleted then none else some e.value)⟩) :=
      ⟨I.1, I.2, I.3, I.4, I.5⟩
    exact I'.goto (by simp [h, Client.isNotify]) rfl
  | miss h _ => exact I.goto (by simp [h, Client.isNotify]) rfl
  | @descend i k t _ p h =>
    have I' : WakeInv ({ s with world := Act.exec (getFromTree k) ⟨s.world, p⟩ }.answer
        ⟨k, t, Act.eval (getFromTree k) ⟨s.world, p⟩⟩) := ⟨I.1, I.2, I.3, I.4, I.5⟩
    exact I'.goto (by simp [h, Client.isNotify]) rfl
  | @drain i _ _ h =>
    have I' : WakeInv { s with writeBuf := {} } := ⟨I.1, I.2, I.3, I.4, I.5⟩
    exact I'.goto (by simp [h, Client.isNotify]) rfl
  | @persist i pending _ p h =>
    have I' : WakeInv { s with world := Act.exec (persistRoot pending) ⟨s.world, p⟩ } :=
      ⟨I.1, I.2, I.3, I.4, I.5⟩
    exact I'.goto (by simp [h, Client.isNotify]) rfl
  | flusherWanted h _ => exact I.flusher rfl (by rw [h]; rfl) (by rw [h]; rfl)
  | flusherHold h hw =>
    simp only [wanted, Bool.or_eq_false_iff] at hw
    refine ⟨I.progress.trans (by rw [h]; rfl), fun _ hr => ?_, fun _ hst => ?_, fun j hj => .inl ?_,
      I.clientStopped⟩
    · have hr : s.requested = true := hr
      simp [hw.1] at hr
    · have hst : s.stop = true := hst
      simp [hw.2] at hst
    · exact (I.client j hj).resolve_right (by rw [h]; simp [Flusher.isNotify])
  | flusherBlock h =>
    have hw : s.flusher.isWaiting = true := by rw [h]; rfl
    refine ⟨I.progress.trans (by rw [h]; rfl), fun _ => I.requested hw, fun _ => I.stopped hw,
      fun j hj => .inl ?_, I.clientStopped⟩
    exact (I.client j hj).resolve_right (by rw [h]; simp [Flusher.isNotify])
  | flusherExit h _ => exact I.flusher rfl (by rw [h]; rfl) (by rw [h]; rfl)
  | flusherGo h _ => exact I.flusher rfl (by rw [h]; rfl) (by rw [h]; rfl)
  | flusherRaise h =>
    exact ⟨rfl, fun hw => absurd hw Bool.false_ne_true, fun hw => absurd hw Bool.false_ne_true,
      fun _ _ => .inl rfl, I.clientStopped⟩
  | flusherDrain h =>
    have I' : WakeInv { s with flusher := .merge s.writeBuf.entries } :=
      I.flusher rfl (by rw [h]; rfl) (by rw [h]; rfl)
    exact ⟨I'.1, I'.2, I'.3, I'.4, I'.5⟩
  | flusherMerge h =>
    have I' : WakeInv { s with flusher := .clearRequest } :=
      I.flusher rfl (by rw [h]; rfl) (by rw [h]; rfl)
    exact ⟨I'.1, I'.2, I'.3, I'.4, I'.5⟩
  | flusherClearRequest h =>
    have I' : WakeInv { s with flusher := .clearProgress } :=
      I.flusher rfl (by rw [h]; rfl) (by rw [h]; rfl)
    exact ⟨I'.1, fun hw => absurd hw Bool.false_ne_true, I'.3, I'.4, I'.5⟩
  | flusherClearProgress h =>
    exact ⟨rfl, fun hw => absurd hw Bool.false_ne_true, fun hw => absurd hw Bool.false_ne_true,
      fun _ _ => .inr rfl, I.clientStopped⟩
  | flusherNotify h =>
    have hp : s.inProgress = false := by rw [I.progress, h]; rfl
    have hnone : ∀ j, (s.clients j).isBlock = false := fun j => by
      by_contra hj
      exact hok ⟨by rw [h]; rfl, by simp [calm, hp], j, by simpa using hj⟩
    refine ⟨hp, fun hw => absurd hw Bool.false_ne_true, fun hw => absurd hw Bool.false_ne_true,
      fun j hj => ?_, fun j hj => ?_⟩
    all_goals
      have hj : (s.clients j).wake.isWaiting = true := hj
      simp [hnone j] at hj
  | stop h =>
    exact ⟨I.progress, I.requested, fun _ _ => rfl, I.client, fun _ _ _ => rfl⟩
  | stopNotify h =>
    have hno : s.flusher.isBlock = false ∧ ∀ j, (s.clients j).isBlock = false := by
      simpa [TooEarly, h, Destructor.isNotify] using hok
    refine ⟨I.progress.trans ?_, fun hw => ?_, fun hw => ?_, fun j hj => ?_, fun j hj => ?_⟩
    · show s.flusher.inCycle = s.flusher.wake.inCycle
      cases s.flusher <;> rfl
    · have hw : s.flusher.wake.isWaiting = true := hw
      cases hf : s.flusher <;> simp_all [Flusher.wake, Flusher.isWaiting, Flusher.isBlock]
    · have hw : s.flusher.wake.isWaiting = true := hw
      cases hf : s.flusher <;> simp_all [Flusher.wake, Flusher.isWaiting, Flusher.isBlock]
    all_goals
      have hj : (s.clients j).wake.isWaiting = true := hj
      simp [hno.2 j] at hj
  | join h hf =>
    exact ⟨I.progress, I.requested, fun hw => by simp [hf, Flusher.isWaiting] at hw, I.client,
      fun j hj hst => by
        have := I.clientStopped j hj hst
        simp [h, Destructor.isNotify] at this⟩
  | stopDrain h =>
    refine ⟨I.progress, I.requested, fun hw hst => ?_, I.client, fun j hj hst => ?_⟩
    · have := I.stopped hw hst
      simp [h, Destructor.isNotify] at this
    · have := I.clientStopped j hj hst
      simp [h, Destructor.isNotify] at this
  | stopPersist h =>
    refine ⟨I.progress, I.requested, fun hw hst => ?_, I.client, fun j hj hst => ?_⟩
    · have := I.stopped hw hst
      simp [h, Destructor.isNotify] at this
    · have := I.clientStopped j hj hst
      simp [h, Destructor.isNotify] at this

/-- While the invariant holds, no wakeup is lost. -/
theorem noLostWakeup (I : WakeInv s) : s.NoLostWakeup := by
  intro t hb hr
  cases t with
  | flusher =>
    have hb : s.flusher.isBlocked = true := hb
    have hw : s.flusher.isWaiting = true := by
      cases hf : s.flusher <;> simp_all [Flusher.isBlocked, Flusher.isWaiting]
    have hr : s.wanted = true := hr
    simp only [wanted, Bool.or_eq_true] at hr
    rcases hr with hr | hst
    · refine .inr (.inr ⟨I.requested hw hr, fun u hu => ?_⟩)
      cases u with
      | flusher => rfl
      | client j =>
        have := I.not_waiting (Client.isWaiting_of_isBlocked hu)
        simp [hw] at this
    · exact .inr (.inl (I.stopped hw hst))
  | client j =>
    have hw := Client.isWaiting_of_isBlocked hb
    have hr : s.calm = true := hr
    simp only [calm, Bool.or_eq_true, Bool.not_eq_true'] at hr
    rcases hr with hp | hst
    · have hn := (I.client j hw).resolve_left (by simp [hp])
      refine .inl ?_
      cases hf : s.flusher <;> simp_all [Flusher.isNotify, Flusher.toNotify]
    · exact .inr (.inl (I.clientStopped j hw hst))

end WakeInv

/-! ## Nobody sleeps on a request -/

/-- **No wakeup is lost** in a run without a notification that comes too early. -/
theorem noLostWakeup_reach (n : Nat) (o : Options) (sizing : Sizing) {s : State n}
    (h : System.Reach (State.step o) (fun s e => ¬ s.TooEarly e) (State.start n sizing) s) :
    s.NoLostWakeup :=
  (h.inv WakeInv (.start n sizing) fun _ _ _ I hok hs => I.step hok hs).noLostWakeup

/-- A write that asks for a flush, and its notification. -/
def askFlush : List (Event 1) :=
  [.call soleClient (.insert (.byte 1) .empty)] ++
    List.replicate 4 (.client soleClient none none)

/-- The flush thread is blocked, its request is there, and the notification is still to come. -/
theorem noLostWakeup_blocked : ∃ s, System.runOk (State.step ⟨1, 100⟩)
      (fun s e => ¬ s.TooEarly e) (State.start 1 fun _ => (64, 7))
      ([.flusher none, .flusher none] ++ askFlush) = some s ∧
    s.flusher.isBlocked = true ∧ s.requested = true ∧ (s.clients soleClient).isNotify = true ∧
    s.NoLostWakeup := by
  have hrun : ((System.runOk (State.step ⟨1, 100⟩) (fun s e => ¬ s.TooEarly e)
      (State.start 1 fun _ => (64, 7)) ([.flusher none, .flusher none] ++ askFlush)).any fun s =>
        s.flusher.isBlocked && s.requested && (s.clients soleClient).isNotify) = true := by
    decide +kernel
  obtain ⟨s, hs, hp⟩ := (Option.any_eq_true _ _).mp hrun
  rw [Bool.and_eq_true, Bool.and_eq_true] at hp
  exact ⟨s, hs, hp.1.1, hp.1.2, hp.2, noLostWakeup_reach 1 ⟨1, 100⟩ _ (System.reach_runOk hs)⟩

/-- The request and its notification fall between the flush thread's test and its block:
it then sleeps on a request, with nobody left to wake it. -/
theorem wakeup_lost : ∃ s : State 1, System.Reach (State.step ⟨1, 100⟩) (fun _ _ => True)
    (State.start 1 fun _ => (64, 7)) s ∧ ¬ s.NoLostWakeup := by
  have hrun : ((System.runOk (State.step ⟨1, 100⟩) (fun _ _ => True)
      (State.start 1 fun _ => (64, 7))
      ([.flusher none] ++ askFlush ++ [.client soleClient none none, .flusher none])).any fun s =>
        s.flusher.isBlocked && s.requested && !s.flusher.toNotify && !s.destructor.isNotify &&
          !(s.clients 0).isNotify) = true := by
    decide +kernel
  obtain ⟨s, hs, hp⟩ := (Option.any_eq_true _ _).mp hrun
  simp only [Bool.and_eq_true, Bool.not_eq_true'] at hp
  obtain ⟨⟨⟨⟨hb, hr⟩, hf⟩, hd⟩, hc⟩ := hp
  refine ⟨s, System.reach_runOk hs, fun h => ?_⟩
  rcases h .flusher hb (by simp [Ready, wanted, hr]) with h | h | ⟨⟨i, hi⟩, -⟩
  · simp [hf] at h
  · simp [hd] at h
  · have h0 : i = 0 := Subsingleton.elim i 0
    simp [h0, hc] at hi

end GravTree
