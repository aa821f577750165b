import Mathlib.Algebra.Order.BigOperators.Group.Finset
import Mathlib.Data.Fintype.BigOperators
import GravTree.Shutdown
import GravTree.Wakeups

/-!
# Coming to rest

Every call is a straight line of steps but for the wait in it, and every wakeup was paid for by
a call or by a cycle that a call has asked for. So when no calls come any more, the threads take
a bounded number of steps, in whatever order they are scheduled. And if no notification was
issued too early they stop only when every call has returned.
-/

namespace GravTree

open State

variable {n : Nat}

/-! ## What is left to do -/

/-- The steps of a call after `wait_for_flush_complete`, where a request costs `b`. -/
def Resume.work (b : Nat) : Resume → Nat
  | .write _ => b + 10
  | .drain => 2

/-- The steps of a client until it blocks or returns, and what they make others do. -/
def Client.work (b : Nat) : Client → Nat
  | .idle => 0
  | .limit _ => b + 13
  | .wait k => k.work b + 2
  | .block k => k.work b + 1
  | .blocked k => k.work b
  | .write _ => b + 10
  | .threshold => b + 9
  | .signal flushing => b + 8 + if flushing then 4 else 0
  | .notify flushing => 7 + if flushing then 4 else 0
  | .lookup _ _ => 2
  | .descend _ _ => 1
  | .drain => 2
  | .persist _ => 1

/-- The steps of the flush thread until it blocks. A `notify_all` may wake `n` clients. -/
def Flusher.work (n : Nat) : Flusher → Nat
  | .test => 6
  | .awake => 5
  | .raise => 4
  | .drain => 3
  | .merge _ => 2
  | .clearRequest => 1
  | .clearProgress => 2 * n + 8
  | .notify => 2 * n + 7
  | .block => 1
  | .blocked => 0
  | .exited => 0

def Destructor.work (n : Nat) : Destructor → Nat
  | .idle => 2 * n + 11
  | .notify => 2 * n + 10
  | .join => 3
  | .drain => 2
  | .persist _ => 1
  | .gone => 0

/-- What the clients have to do. -/
def clientsWork (cs : Fin n → Client) : Nat := ∑ i, (cs i).work (2 * n + 8)

namespace State

/-- What is left to do if no calls come. A request is worth a cycle. -/
def work (s : State n) : Nat :=
  clientsWork s.clients + s.flusher.work n + s.destructor.work n +
    if s.requested then 2 * n + 8 else 0

/-- A call of a client, or of the destructor. -/
def Calls (s : State n) : Event n → Prop
  | .call _ _ => True
  | .client _ _ _ => False
  | .flusher _ => False
  | .destructor _ => s.destructor.isIdle = true

instance (s : State n) : ∀ e : Event n, Decidable (s.Calls e)
  | .call _ _ => inferInstanceAs (Decidable True)
  | .client _ _ _ => inferInstanceAs (Decidable False)
  | .flusher _ => inferInstanceAs (Decidable False)
  | .destructor _ => inferInstanceAs (Decidable (s.destructor.isIdle = true))

end State

/-! ## Every step uses up some of it -/

theorem Client.work_signalled (b : Nat) (flushing : Bool) :
    (Client.signalled flushing).work b = if flushing then 4 else 0 := by
  cases flushing <;> rfl

theorem clientsWork_update (cs : Fin n → Client) (i : Fin n) (c : Client) :
    clientsWork (Function.update cs i c) + (cs i).work (2 * n + 8) =
      clientsWork cs + c.work (2 * n + 8) := by
  have hother : ∀ j ∈ Finset.univ.erase i, (Function.update cs i c j).work (2 * n + 8) =
      (cs j).work (2 * n + 8) := fun j hj => by
    rw [Function.update_of_ne (Finset.ne_of_mem_erase hj)]
  unfold clientsWork
  rw [← Finset.add_sum_erase _ _ (Finset.mem_univ i), Function.update_self,
    Finset.sum_congr rfl hother,
    ← Finset.add_sum_erase _ (fun j => (cs j).work (2 * n + 8)) (Finset.mem_univ i)]
  omega

theorem clientsWork_goto (s : State n) (i : Fin n) (c : Client) :
    clientsWork (s.goto i c).clients + (s.clients i).work (2 * n + 8) =
      clientsWork s.clients + c.work (2 * n + 8) := clientsWork_update s.clients i c

theorem clientsWork_wake (cs : Fin n → Client) :
    clientsWork (fun i => (cs i).wake) ≤ clientsWork cs + 2 * n := by
  have hone : ∀ c : Client, c.wake.work (2 * n + 8) ≤ c.work (2 * n + 8) + 2 := fun c => by
    cases c <;> simp [Client.wake, Client.work]
  calc clientsWork (fun i => (cs i).wake)
      ≤ ∑ i, ((cs i).work (2 * n + 8) + 2) := Finset.sum_le_sum fun i _ => hone (cs i)
    _ = clientsWork cs + 2 * n := by
      rw [Finset.sum_add_distrib, Finset.sum_const_nat fun _ _ => rfl, Finset.card_univ,
        Fintype.card_fin, Nat.mul_comm n 2]
      rfl

/-- The flush thread has found a request, and has not cleared it. -/
def Flusher.isArmed : Flusher → Bool
  | .raise | .drain | .merge _ | .clearRequest => true
  | _ => false

/-- Why the flush thread is where it is. -/
structure Armed (s : State n) : Prop where
  stopped : s.stop = true ↔ s.destructor.isIdle = false
  exited : s.flusher = .exited → s.stop = true
  awake : s.flusher = .awake → s.requested = true ∨ s.stop = true
  armed : s.flusher.isArmed = true → s.requested = true

namespace Armed

variable {o : Options} {s t : State n}

theorem start (n : Nat) (sizing : Sizing) : Armed (State.start n sizing) where
  stopped := by simp [State.start, Destructor.isIdle]
  exited := by simp [State.start]
  awake := by simp [State.start]
  armed := by simp [State.start, Flusher.isArmed]

/-- A client moves. -/
theorem keep (A : Armed s) (hd : t.destructor = s.destructor) (hst : t.stop = s.stop)
    (hf : t.flusher = s.flusher) (hr : s.requested = true → t.requested = true) : Armed t where
  stopped := by
    rw [hd, hst]
    exact A.stopped
  exited h := hst ▸ A.exited (hf ▸ h)
  awake h := (A.awake (hf ▸ h)).imp hr fun h => hst ▸ h
  armed h := hr (A.armed (hf ▸ h))

/-- The flush thread moves. -/
theorem move (A : Armed s) (hd : t.destructor.isIdle = s.destructor.isIdle) (hst : t.stop = s.stop)
    (hx : t.flusher = .exited → t.stop = true)
    (hw : t.flusher = .awake → t.requested = true ∨ t.stop = true)
    (ha : t.flusher.isArmed = true → t.requested = true) : Armed t where
  stopped := by
    rw [hd, hst]
    exact A.stopped
  exited := hx
  awake := hw
  armed := ha

theorem step (A : Armed s) {e : Event n} (hs : s.step o e = some t) : Armed t := by
  cases step_moves hs with
  | call h => cases ‹Call› <;> exact A.keep rfl rfl rfl id
  | below h _ | atLimit h _ | pass h _ | hold h _ | block h | write h | full h _ | done h _
  | already h _ | notifyNone h _ _ | notifyClient h _ | found h _ | miss h _ | descend h | drain h
  | persist h => exact A.keep rfl rfl rfl id
  | request h _ => exact A.keep rfl rfl rfl fun _ => rfl
  | notifyFlusher h hf => exact A.move rfl rfl (by simp) (by simp) (by simp [Flusher.isArmed])
  | flusherHold h _ | flusherBlock h | flusherClearProgress h | flusherClearRequest h
  | flusherNotify h => exact A.move rfl rfl (by simp) (by simp) (by simp [Flusher.isArmed])
  | flusherWanted h hw =>
    refine A.move rfl rfl (by simp) (fun _ => ?_) (by simp [Flusher.isArmed])
    simpa [wanted] using hw
  | flusherExit h hst => exact A.move rfl rfl (fun _ => hst) (by simp) (by simp [Flusher.isArmed])
  | flusherGo h hst =>
    refine A.move rfl rfl (by simp) (by simp) fun _ => ?_
    exact (A.awake h).resolve_right (by simp [hst])
  | flusherRaise h | flusherDrain h | flusherMerge h =>
    exact A.move rfl rfl (by simp) (by simp) fun _ => A.armed (by rw [h]; rfl)
  | stop h => exact ⟨⟨fun _ => rfl, fun _ => rfl⟩, fun _ => rfl, fun _ => .inr rfl, A.armed⟩
  | stopNotify h =>
    refine ⟨A.stopped.trans (by rw [h]; rfl), fun hf => A.exited ?_, fun hf => A.awake ?_,
      fun hf => A.armed ?_⟩
    all_goals
      cases hfl : s.flusher <;> simp_all [Flusher.wake, Flusher.isArmed]
  | join h _ | stopDrain h | stopPersist h =>
    exact ⟨A.stopped.trans (by rw [h]; rfl), A.exited, A.awake, A.armed⟩

end Armed

section Work

variable {o : Options} {s t : State n}

/-- **Every step** that is no call uses up some of what is left to do. -/
theorem work_step (A : Armed s) {e : Event n} (hs : s.step o e = some t) (he : ¬ s.Calls e) :
    t.work < s.work := by
  -- a client that goes on has less to do than before, by more than what it asks of others
  have hgoto : ∀ {u : State n} {i : Fin n} {c : Client}, u.clients = s.clients →
      u.flusher = s.flusher → u.destructor = s.destructor → u.requested = s.requested →
      c.work (2 * n + 8) < (s.clients i).work (2 * n + 8) → (u.goto i c).work < s.work := by
    intro u i c hc hf hd hr hlt
    have := clientsWork_goto u i c
    rw [hc] at this
    rw [State.work, State.work, goto_flusher, goto_destructor, goto_requested, hf, hd, hr]
    omega
  cases step_moves hs with
  | call => exact absurd trivial he
  | below h _ | atLimit h _ | full h _ | done h _ | block h | hold h _ | drain h | miss h _ =>
    refine hgoto rfl rfl rfl rfl ?_
    rw [h]
    simp [Client.work, Resume.work]
  | @pass i k _ _ h _ =>
    refine hgoto rfl rfl rfl rfl ?_
    rw [h]
    cases k <;> simp [Client.work, Resume.work, Resume.next]
  | write h | found h _ | descend h | persist h =>
    refine hgoto rfl rfl rfl rfl ?_
    rw [h]
    simp [Client.work]
  | @already i b _ _ h _ | @notifyNone i b _ h _ _ =>
    refine hgoto rfl rfl rfl rfl ?_
    rw [h, Client.work_signalled, Client.work]
    omega
  | @request i b _ _ h hr =>
    have := clientsWork_goto { s with requested := true } i (.notify b)
    simp only [h, Client.work] at this
    simp only [State.work, goto_flusher, goto_destructor, goto_requested, hr, if_true]
    simp
    omega
  | @notifyFlusher i b _ h hf =>
    have := clientsWork_goto { s with flusher := .test } i (.signalled b)
    rw [Client.work_signalled] at this
    simp only [h, Client.work] at this
    simp only [State.work, goto_flusher, goto_destructor, goto_requested, hf, Flusher.work]
    omega
  | @notifyClient i b j k _ h hj =>
    have hwake := clientsWork_goto s j (.wait k)
    have := clientsWork_goto (s.goto j (.wait k)) i (.signalled b)
    have hi : ((s.goto j (.wait k)).clients i) = .notify b := by
      rw [goto_clients, Function.update_of_ne, h]
      intro hij
      rw [hij, hj] at h
      cases h
    rw [Client.work_signalled] at this
    simp only [hi, hj, Client.work] at this hwake
    simp only [State.work, goto_flusher, goto_destructor, goto_requested]
    omega
  | flusherWanted h _ | flusherHold h _ | flusherBlock h | flusherExit h _ | flusherGo h _
  | flusherRaise h | flusherDrain h | flusherMerge h =>
    simp [State.work, h, Flusher.work]
  | flusherClearProgress h =>
    simp [State.work, h, Flusher.work]
  | flusherClearRequest h =>
    have hr := A.armed (by rw [h]; rfl)
    simp only [State.work, h, hr, Flusher.work, if_true]
    simp
    omega
  | flusherNotify h =>
    have := clientsWork_wake s.clients
    simp only [State.work, h, Flusher.work, notifyAll_requested, notifyAll_destructor]
    have hclients : s.notifyAll.clients = fun i => (s.clients i).wake := rfl
    rw [hclients]
    omega
  | stop h => exact absurd (show s.destructor.isIdle = true by rw [h]; rfl) he
  | stopNotify h =>
    have := clientsWork_wake s.clients
    have hf : s.flusher.wake.work n ≤ s.flusher.work n + 6 := by
      cases s.flusher <;> simp [Flusher.wake, Flusher.work]
    have hclients : s.notifyAll.clients = fun i => (s.clients i).wake := rfl
    simp only [State.work, h, Destructor.work, notifyAll_requested, notifyAll_flusher]
    rw [hclients]
    omega
  | join h _ | stopDrain h | stopPersist h =>
    simp [State.work, h, Destructor.work]

end Work

/-! ## Nothing stops half-way -/

/-- Every call has returned, and no request is left. -/
structure State.Rests (s : State n) : Prop where
  clients : ∀ i, s.clients i = .idle
  threads : s.flusher = .blocked ∧ s.requested = false ∧ s.destructor = .idle ∨
    s.flusher = .exited ∧ s.destructor = .gone

section Rests

variable {o : Options} {s : State n}

theorem State.Rests.stuck (R : s.Rests) {e : Event n} (he : ¬ s.Calls e) : s.step o e = none := by
  cases e with
  | call i c => exact absurd trivial he
  | client i woken plan =>
    show s.clientStep o i woken plan = none
    rw [clientStep, R.clients i]
  | flusher plan =>
    show s.flusherStep plan = none
    rcases R.threads with ⟨h, -, -⟩ | ⟨h, -⟩ <;> rw [flusherStep, h]
  | destructor plan =>
    rcases R.threads with ⟨-, -, h⟩ | ⟨-, h⟩
    · exact absurd (show s.destructor.isIdle = true by rw [h]; rfl) he
    · show s.destructorStep plan = none
      rw [destructorStep, h]

/-- The flush thread can always go on, unless it waits for the mutex or has to be woken. -/
theorem flusher_of_stuck (h : s.flusherStep none = none) :
    s.flusher = .test ∧ s.mutexFree = false ∨ s.flusher = .blocked ∨ s.flusher = .exited := by
  unfold flusherStep at h
  split at h <;> simp_all

/-- So can a client that has something to do. -/
theorem client_of_stuck {i : Fin n} (h : ∀ woken, s.clientStep o i woken none = none) :
    s.clients i = .idle ∨ (∃ k, s.clients i = .wait k) ∧ s.mutexFree = false ∨
      ∃ k, s.clients i = .blocked k := by
  cases hc : s.clients i with
  | notify b =>
    exfalso
    -- there is a thread to wake, or there is none
    have hnone : ∀ woken, s.notifyOne woken = none := fun woken => by
      have := h woken
      rw [clientStep, hc] at this
      exact Option.map_eq_none_iff.mp this
    have hf : s.flusher.isBlocked = false := by simpa [notifyOne] using hnone (some .flusher)
    have hcs : ∀ j, (s.clients j).isBlocked = false := fun j => by
      simpa [notifyOne] using hnone (some (.client j))
    simpa [notifyOne, hf, hcs] using hnone none
  | lookup k since =>
    have := h none
    rw [clientStep, hc] at this
    dsimp only at this
    split at this <;> cases this
  | _ =>
    have := h none
    rw [clientStep, hc] at this
    simp_all

/-- And so can the destructor, unless it waits for the flush thread. -/
theorem destructor_of_stuck (h : s.destructorStep none = none) :
    s.destructor = .join ∧ s.flusher ≠ .exited ∨ s.destructor = .gone := by
  unfold destructorStep at h
  split at h
  case h_3 hd =>
    refine .inl ⟨hd, fun hf => ?_⟩
    rw [hf] at h
    cases h
  case h_6 hd => exact .inr hd
  all_goals cases h

/-- **A stand is a rest**: if nobody can go on then everybody is done. -/
theorem WakeInv.rests (W : WakeInv s) (A : Armed s)
    (h : ∀ e, ¬ s.Calls e → s.step o e = none) : s.Rests := by
  have hfl := flusher_of_stuck (h (.flusher none) id)
  have hcl := fun i => client_of_stuck (o := o) fun woken => h (.client i woken none) id
  -- nobody is between a test and a block, so the mutex is free
  have hfree : s.mutexFree = true := by
    have hf : s.flusher.isBlock = false := by
      rcases hfl with ⟨h, -⟩ | h | h <;> rw [h] <;> rfl
    have hc : ∀ i, (s.clients i).isBlock = false := fun i => by
      rcases hcl i with h | ⟨⟨k, h⟩, -⟩ | ⟨k, h⟩ <;> rw [h] <;> rfl
    simp [mutexFree, hf, hc]
  have hfl : s.flusher = .blocked ∨ s.flusher = .exited := by
    simpa [hfree] using hfl
  -- a client that is blocked waits for a cycle, and there is none
  have hidle : ∀ i, s.clients i = .idle := fun i => by
    rcases hcl i with hi | ⟨-, hm⟩ | ⟨k, hi⟩
    · exact hi
    · rw [hfree] at hm
      cases hm
    · have := W.client i (by rw [hi]; rfl)
      rw [W.progress] at this
      rcases hfl with hf | hf <;> simp [hf, Flusher.inCycle, Flusher.isNotify] at this
  refine ⟨hidle, ?_⟩
  have hds : s.stop = true → s.destructor = .join ∧ s.flusher ≠ .exited ∨ s.destructor = .gone :=
    fun hst => destructor_of_stuck (h (.destructor none) (by simp [State.Calls, A.stopped.mp hst]))
  rcases hfl with hf | hf
  · have hwait : s.flusher.isWaiting = true := by rw [hf]; rfl
    have hst : s.stop = false := by
      refine Bool.eq_false_iff.mpr fun hst => ?_
      have := W.stopped hwait hst
      rcases hds hst with ⟨hd, -⟩ | hd <;> simp [hd, Destructor.isNotify] at this
    have hr : s.requested = false := by
      refine Bool.eq_false_iff.mpr fun hr => ?_
      obtain ⟨i, hi⟩ := W.requested hwait hr
      rw [hidle i] at hi
      cases hi
    refine .inl ⟨hf, hr, ?_⟩
    have hd : s.destructor.isIdle = true := by
      refine Bool.of_not_eq_false fun hd => ?_
      have := A.stopped.mpr hd
      rw [hst] at this
      cases this
    cases hds : s.destructor <;> simp_all [Destructor.isIdle]
  · exact .inr ⟨hf, (hds (A.exited hf)).resolve_left fun h => h.2 hf⟩

end Rests

/-! ## Runs -/

/-- **The threads come to rest** when no calls come any more. In whatever order they are scheduled,
they take no more steps than there is work left; and if no notification came too early, they stop
exactly when every call has returned. -/
theorem comes_to_rest (o : Options) (sizing : Sizing) {s t : State n} {es : List (Event n)}
    (h : System.Reach (State.step o) (fun _ _ => True) (State.start n sizing) s)
    (hrun : System.runOk (State.step o) (fun s e => ¬ s.Calls e) s es = some t) :
    es.length + t.work ≤ s.work ∧
      (System.Reach (State.step o) (fun s e => ¬ s.TooEarly e) (State.start n sizing) t →
        ((∀ e, ¬ t.Calls e → t.step o e = none) ↔ t.Rests)) := by
  have hA : Armed s := h.inv Armed (.start n sizing) fun _ _ _ A _ hs => A.step hs
  obtain ⟨A, hle⟩ := System.runOk_bounded (I := Armed)
    (fun s e t A he hs => ⟨A.step hs, work_step A hs he⟩) hA hrun
  refine ⟨hle, fun htimely => ?_⟩
  have W : WakeInv t := htimely.inv WakeInv (.start n sizing) fun _ _ _ W hok hs => W.step hok hs
  exact ⟨W.rests A, fun R _ he => R.stuck he⟩

/-- The flush thread blocks. Then a write and a `flush()` are called. -/
def calling : List (Event 2) :=
  [.flusher none, .flusher none, .call one (.insert (.byte 10) .empty), .call two .flush]

/-- The write asks for a cycle, in the middle of which the `flush()` asks for another one and waits
for both. -/
def resting : List (Event 2) :=
  List.flatten [
    List.replicate 4 (.client one none none), .client one (some .flusher) none ::
      List.replicate 6 (.flusher none),
    List.replicate 4 (.client two none none), List.replicate 6 (.flusher none),
    List.replicate 2 (.client two none none), List.replicate 6 (.flusher none),
    List.replicate 3 (.client two none none)]

/-- Both have returned after half as many steps as it might have taken. -/
theorem comes_to_rest_resting : ∃ s t : State 2, s.work = 64 ∧ 32 + t.work ≤ s.work ∧ t.Rests ∧
    ∀ e, ¬ t.Calls e → t.step ⟨1, 100⟩ e = none := by
  have hrun : ((System.runOk (State.step ⟨1, 100⟩) (fun s e => ¬ s.TooEarly e)
      (State.start 2 fun _ => (64, 7)) calling).any fun s => decide (s.work = 64) &&
        (System.runOk (State.step ⟨1, 100⟩) (fun s e => ¬ s.TooEarly e ∧ ¬ s.Calls e) s
          resting).any fun t => (t.clients one).isIdle && (t.clients two).isIdle &&
            t.flusher.isBlocked && !t.requested && t.destructor.isIdle) = true := by
    decide +kernel
  obtain ⟨s, hs, hp⟩ := (Option.any_eq_true _ _).mp hrun
  rw [Bool.and_eq_true, decide_eq_true_eq] at hp
  obtain ⟨hwork, hp⟩ := hp
  obtain ⟨t, ht, hp⟩ := (Option.any_eq_true _ _).mp hp
  simp only [Bool.and_eq_true, Bool.not_eq_true'] at hp
  obtain ⟨⟨⟨⟨hone, htwo⟩, hf⟩, hr⟩, hd⟩ := hp
  have htimely := (System.reach_runOk hs).trans
    (System.reach_runOk (System.runOk_mono (fun _ _ h => h.1) ht))
  obtain ⟨hle, hiff⟩ := comes_to_rest ⟨1, 100⟩ _
    (System.reach_runOk (System.runOk_mono (fun _ _ _ => trivial) hs))
    (System.runOk_mono (fun _ _ h => h.2) ht)
  have hclients : ∀ c : Client, c.isIdle = true → c = .idle := fun c h => by
    cases c <;> first | rfl | cases h
  have hrest : t.Rests := by
    refine ⟨fun i => ?_, .inl ⟨?_, hr, ?_⟩⟩
    · exact hclients _ ((Fin.forall_fin_two (p := fun i => (t.clients i).isIdle = true)).mpr
        ⟨hone, htwo⟩ i)
    · cases hfl : t.flusher <;> simp_all [Flusher.isBlocked]
    · cases hds : t.destructor <;> simp_all [Destructor.isIdle]
  exact ⟨s, t, hwork, hle, hrest, (hiff htimely).mpr hrest⟩

end GravTree
