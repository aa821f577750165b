import GravTree.Proof.Moves

/-!
# The write buffer and its two limits

A writer that finds `write_buf_` at `buffer_threshold` asks for a flush, and one that
finds it at `hard_limit()` first waits for the flush in progress to complete.

The request is a flag that the flush thread clears at the end of its cycle: a writer
that asks after the drain and before the clear is forgotten. The wait is for
`flush_in_progress_` to be down, which it also is when no flush has begun: a writer
that comes through it with the buffer still at the limit goes beyond the limit.
-/

namespace GravTree

open State

variable {n : Nat}

namespace WriteBuf

@[simp] theorem sizeBytes_empty : ({} : WriteBuf).sizeBytes = 0 := rfl

theorem sizeBytes_insert (b : WriteBuf) (e : Entry) :
    (b.insert e).sizeBytes = e.sizeBytes + b.sizeBytes := by
  have hp : (b.entries.orderedInsert Entry.le e).Perm (e :: b.entries) :=
    List.perm_orderedInsert Entry.le e b.entries
  have := (hp.map Entry.sizeBytes).sum_eq
  simpa [sizeBytes, insert] using this

end WriteBuf

theorem Entry.sizeBytes_pos (e : Entry) : 0 < e.sizeBytes := Nat.succ_pos _

/-! ## Requests -/

namespace Client

/-- A write that has not asked for a flush yet. -/
def isAsking : Client → Bool
  | .threshold => true
  | .signal false => true
  | _ => false

/-- In no call of `insert`, `remove` or `flush()`. -/
def isQuiet : Client → Bool
  | .idle | .lookup _ _ | .descend _ _ => true
  | _ => false

/-- A write before the exchange of `signal_flush`. -/
def isSignal : Client → Bool
  | .signal false => true
  | _ => false

end Client

namespace Flusher

/-- Past the drain, with the request still up. -/
def inWindow : Flusher → Bool
  | .merge _ | .clearRequest => true
  | _ => false

/-- In the wait on `flush_cv_`, past a failed test. -/
def inWait : Flusher → Bool
  | .block | .blocked => true
  | _ => false

end Flusher

namespace State

/-- A writer asks for a flush of a full buffer after the flush thread has drained it and
before the flush thread clears the request. -/
def Forgotten (o : Options) (s : State n) : Event n → Prop
  | .client i _ _ => (s.clients i).isSignal = true ∧ s.flusher.inWindow = true ∧
      o.bufferThreshold ≤ s.writeBuf.sizeBytes
  | _ => False

instance (o : Options) (s : State n) : ∀ e : Event n, Decidable (s.Forgotten o e)
  | .client _ _ _ => inferInstanceAs (Decidable (_ ∧ _ ∧ _))
  | .call _ _ | .flusher _ | .destructor _ => inferInstanceAs (Decidable False)

/-- When nobody is writing or flushing and the flush thread waits for a request that
nobody has made, the buffer is below the threshold. -/
def RequestKept (o : Options) (s : State n) : Prop :=
  (∀ i, (s.clients i).isQuiet = true) → s.flusher.inWait = true → s.requested = false →
    s.stop = false → s.writeBuf.sizeBytes < o.bufferThreshold

/-- A full buffer has a request that will be served, or a write that is about to ask. -/
def Served (o : Options) (s : State n) : Prop :=
  o.bufferThreshold ≤ s.writeBuf.sizeBytes →
    s.requested = true ∧ s.flusher.inWindow = false ∨ s.flusher = .exited ∨
      ∃ i, (s.clients i).isAsking = true

end State

namespace State.Served

variable {o : Options} {s t : State n}

/-- A client that has asked already goes on. -/
theorem goto (H : s.Served o) {i : Fin n} {c : Client} (hi : (s.clients i).isAsking = false) :
    (s.goto i c).Served o := by
  intro hs
  rcases H hs with h | h | ⟨j, hj⟩
  · exact .inl h
  · exact .inr (.inl h)
  · have hne : j ≠ i := fun h => by simp [h, hi] at hj
    exact .inr (.inr ⟨j, by simpa [hne] using hj⟩)

/-- A client is about to ask. -/
theorem asking {i : Fin n} {c : Client} (hc : c.isAsking = true) : (s.goto i c).Served o :=
  fun _ => .inr (.inr ⟨i, by simpa using hc⟩)

/-- An empty buffer needs no request. -/
theorem empty (hT : 0 < o.bufferThreshold) (hs : t.writeBuf = {}) : t.Served o := by
  intro h
  rw [hs, WriteBuf.sizeBytes_empty] at h
  omega

/-- The flush thread moves on, and not into or out of the window. -/
theorem flusher (H : s.Served o) {f : Flusher} (hf : f.inWindow = s.flusher.inWindow)
    (he : s.flusher ≠ .exited) : Served o { s with flusher := f } := by
  intro hs
  rcases H hs with ⟨hr, hw⟩ | h | h
  · exact .inl ⟨hr, hf.trans hw⟩
  · exact absurd h he
  · exact .inr (.inr h)

theorem step {e : Event n} (H : s.Served o) (hT : 0 < o.bufferThreshold)
    (hok : ¬ s.Forgotten o e) (hs : s.step o e = some t) : t.Served o := by
  cases step_moves hs with
  | @call i c h => cases c <;> exact H.goto (by simp [h, Client.isAsking])
  | below h _ => exact H.goto (by simp [h, Client.isAsking])
  | atLimit h _ => exact H.goto (by simp [h, Client.isAsking])
  | pass h _ => exact H.goto (by simp [h, Client.isAsking])
  | hold h _ => exact H.goto (by simp [h, Client.isAsking])
  | block h => exact H.goto (by simp [h, Client.isAsking])
  | write _ => exact asking rfl
  | full _ _ => exact asking rfl
  | done _ hlt => exact fun hs => absurd hs (not_le.mpr hlt)
  | @already i b _ _ h hr =>
    cases b with
    | true => exact H.goto (by simp [h, Client.isAsking])
    | false =>
      intro hs
      refine .inl ⟨hr, ?_⟩
      by_contra hw
      exact hok ⟨by simp [h, Client.isSignal], by simpa using hw, hs⟩
  | @request i b _ _ h _ =>
    intro hs
    cases b with
    | true =>
      rcases H hs with h' | h' | ⟨j, hj⟩
      · exact .inl ⟨rfl, h'.2⟩
      · exact .inr (.inl h')
      · have hne : j ≠ i := fun hji => by simp [hji, h, Client.isAsking] at hj
        exact .inr (.inr ⟨j, by simpa [hne] using hj⟩)
    | false =>
      refine .inl ⟨rfl, ?_⟩
      by_contra hw
      exact hok ⟨by simp [h, Client.isSignal], by simpa using hw, hs⟩
  | notifyNone h _ _ => exact H.goto (by simp [h, Client.isAsking])
  | @notifyFlusher i b _ h hf =>
    have H' : Served o { s with flusher := .test } :=
      H.flusher (by rw [hf]; rfl) (by rw [hf]; exact Flusher.noConfusion)
    exact H'.goto (by simp [h, Client.isAsking])
  | @notifyClient i b j k _ h hj =>
    have H' : (s.goto j (.wait k)).Served o := H.goto (by simp [hj, Client.isAsking])
    refine H'.goto ?_
    have hij : i ≠ j := fun hij => by simp [hij, hj] at h
    simp [hij, h, Client.isAsking]
  | @found i k t e _ _ h _ =>
    have H' : (s.answer ⟨k, t, .ok (if e.deleted then none else some e.value)⟩).Served o := H
    exact H'.goto (by simp [h, Client.isAsking])
  | miss h _ => exact H.goto (by simp [h, Client.isAsking])
  | @descend i k t _ p h =>
    have H' : Served o ({ s with world := Act.exec (getFromTree k) ⟨s.world, p⟩ }.answer
        ⟨k, t, Act.eval (getFromTree k) ⟨s.world, p⟩⟩) := H
    exact H'.goto (by simp [h, Client.isAsking])
  | drain _ => exact empty hT rfl
  | @persist i pending _ p h =>
    have H' : Served o { s with world := Act.exec (persistRoot pending) ⟨s.world, p⟩ } := H
    exact H'.goto (by simp [h, Client.isAsking])
  | flusherWanted h _ => exact H.flusher (by rw [h]; rfl) (by rw [h]; exact Flusher.noConfusion)
  | flusherHold h _ => exact H.flusher (by rw [h]; rfl) (by rw [h]; exact Flusher.noConfusion)
  | flusherBlock h => exact H.flusher (by rw [h]; rfl) (by rw [h]; exact Flusher.noConfusion)
  | flusherExit h _ => exact fun _ => .inr (.inl rfl)
  | flusherGo h _ => exact H.flusher (by rw [h]; rfl) (by rw [h]; exact Flusher.noConfusion)
  | flusherRaise h =>
    have H' : Served o { s with flusher := .drain } :=
      H.flusher (by rw [h]; rfl) (by rw [h]; exact Flusher.noConfusion)
    exact H'
  | flusherDrain _ => exact empty hT rfl
  | flusherMerge h =>
    have H' : Served o { s with flusher := .clearRequest } :=
      H.flusher (by rw [h]; rfl) (by rw [h]; exact Flusher.noConfusion)
    exact H'
  | flusherClearRequest h =>
    -- only a write that has not asked yet keeps a full buffer alive here
    intro hs
    rcases H hs with ⟨-, hw⟩ | h' | h'
    · simp [h, Flusher.inWindow] at hw
    · simp [h] at h'
    · exact .inr (.inr h')
  | flusherClearProgress h =>
    have H' : Served o { s with flusher := .notify } :=
      H.flusher (by rw [h]; rfl) (by rw [h]; exact Flusher.noConfusion)
    exact H'
  | flusherNotify h =>
    intro hs
    rcases H hs with h' | h' | ⟨j, hj⟩
    · exact .inl ⟨h'.1, rfl⟩
    · simp [h] at h'
    · refine .inr (.inr ⟨j, ?_⟩)
      show (s.clients j).wake.isAsking = true
      cases hc : s.clients j <;> simp_all [Client.wake, Client.isAsking]
  | stop _ => exact H
  | stopNotify _ =>
    intro hs
    rcases H hs with ⟨hr, hw⟩ | h' | ⟨j, hj⟩
    · refine .inl ⟨hr, ?_⟩
      show s.flusher.wake.inWindow = false
      cases hf : s.flusher <;> simp_all [Flusher.wake, Flusher.inWindow]
    · exact .inr (.inl (by show s.flusher.wake = _; rw [h']; rfl))
    · refine .inr (.inr ⟨j, ?_⟩)
      show (s.clients j).wake.isAsking = true
      cases hc : s.clients j <;> simp_all [Client.wake, Client.isAsking]
  | join _ _ => exact H
  | stopDrain _ => exact empty hT rfl
  | stopPersist _ => exact H

theorem requestKept (H : s.Served o) : s.RequestKept o := by
  intro hq hw hr _
  by_contra hs
  rcases H (not_lt.mp hs) with ⟨hr', -⟩ | hx | ⟨i, hi⟩
  · simp [hr] at hr'
  · simp [hx, Flusher.inWait] at hw
  · have := hq i
    cases hc : s.clients i <;> simp_all [Client.isQuiet, Client.isAsking]

end State.Served

/-- **No request is lost** in a run in which nobody asks between the drain and the clear. -/
theorem requestKept_reach (n : Nat) (o : Options) (sizing : Sizing)
    (hT : 0 < o.bufferThreshold) {s : State n}
    (h : System.Reach (State.step o) (fun s e => ¬ s.Forgotten o e) (State.start n sizing) s) :
    s.RequestKept o :=
  (h.inv (State.Served o) (.empty hT rfl) fun _ _ _ H hok hs => H.step hT hok hs).requestKept

/-- One write that fills the buffer and asks for a flush of it. -/
def fillUp : List (Event 1) :=
  [.call soleClient (.insert (.byte 1) .empty)] ++ List.replicate 5 (.client soleClient none none)

/-- The flush thread serves a request and waits for the next. -/
theorem requestKept_served : ∃ s, System.runOk (State.step ⟨1, 100⟩)
      (fun s e => ¬ s.Forgotten ⟨1, 100⟩ e) (State.start 1 fun _ => (64, 7))
      (fillUp ++ List.replicate 9 (.flusher none)) = some s ∧
    s.RequestKept ⟨1, 100⟩ := by
  obtain ⟨s, hs⟩ := Option.isSome_iff_exists.mp (show (System.runOk (State.step ⟨1, 100⟩)
      (fun s e => ¬ s.Forgotten ⟨1, 100⟩ e) (State.start 1 fun _ => (64, 7))
      (fillUp ++ List.replicate 9 (.flusher none))).isSome = true by decide +kernel)
  exact ⟨s, hs, requestKept_reach 1 ⟨1, 100⟩ _ Nat.one_pos (System.reach_runOk hs)⟩

/-- The second write asks after the drain. Its request is cleared with the first, and the
flush thread waits with a full buffer. -/
theorem request_lost : ∃ s : State 1, System.Reach (State.step ⟨1, 100⟩) (fun _ _ => True)
    (State.start 1 fun _ => (64, 7)) s ∧ ¬ s.RequestKept ⟨1, 100⟩ := by
  have hrun : ((System.runOk (State.step ⟨1, 100⟩) (fun _ _ => True)
      (State.start 1 fun _ => (64, 7))
      (fillUp ++ List.replicate 4 (.flusher none) ++
        [.call soleClient (.insert (.byte 2) .empty)] ++ List.replicate 4 (.client soleClient none none) ++
        List.replicate 6 (.flusher none))).any fun s =>
        (s.clients 0).isQuiet && s.flusher.inWait && !s.requested && !s.stop &&
          decide (1 ≤ s.writeBuf.sizeBytes)) = true := by
    decide +kernel
  obtain ⟨s, hs, hp⟩ := (Option.any_eq_true _ _).mp hrun
  simp only [Bool.and_eq_true, Bool.not_eq_true', decide_eq_true_eq] at hp
  obtain ⟨⟨⟨⟨hq, hw⟩, hr⟩, hst⟩, hsize⟩ := hp
  refine ⟨s, System.reach_runOk hs, fun h => ?_⟩
  have hlt : s.writeBuf.sizeBytes < 1 :=
    h (fun i => Subsingleton.elim 0 i ▸ hq) hw hr hst
  omega

/-! ## Back-pressure -/

namespace State

/-- A write comes through the wait with the buffer still at the hard limit. -/
def Unrelieved (o : Options) (s : State n) : Event n → Prop
  | .client i _ _ => (∃ r, s.clients i = .wait (.write r)) ∧ s.calm = true ∧
      o.hardLimit ≤ s.writeBuf.sizeBytes
  | _ => False

instance (o : Options) (s : State n) (e : Event n) : Decidable (s.Unrelieved o e) := by
  cases e with
  | client i w p =>
    have : Decidable (∃ r, s.clients i = .wait (.write r)) := by
      cases hc : s.clients i with
      | wait k =>
        cases k with
        | write r => exact isTrue ⟨r, rfl⟩
        | drain => exact isFalse (by simp)
      | _ => exact isFalse (by simp)
    unfold Unrelieved
    infer_instance
  | _ =>
    unfold Unrelieved
    infer_instance

/-- The buffer is less than one entry, the latest, above the hard limit. -/
def Bounded (o : Options) (s : State n) : Prop :=
  ∀ e, s.log.getLast? = some e → s.writeBuf.sizeBytes < o.hardLimit + e.sizeBytes

/-- A writer about to write has found the buffer below the hard limit. -/
structure Relieved (o : Options) (s : State 1) : Prop where
  below : ∀ r, s.clients 0 = .write r → s.writeBuf.sizeBytes < o.hardLimit
  bounded : s.Bounded o

end State

namespace State.Relieved

variable {o : Options} {s t : State 1}

/-- Neither the buffer nor the log changes, and the writer does not get to the write. -/
theorem keep (H : s.Relieved o) (hb : t.writeBuf = s.writeBuf) (hl : t.log = s.log)
    (hc : ∀ r, t.clients 0 = .write r → s.clients 0 = .write r) : t.Relieved o where
  below r hr := hb ▸ H.below r (hc r hr)
  bounded e he := hb ▸ H.bounded e (hl ▸ he)

/-- The writer goes on, and not to the write. -/
theorem goto (H : s.Relieved o) {i : Fin 1} {c : Client} (hc : ∀ r, c ≠ .write r) :
    (s.goto i c).Relieved o := by
  obtain rfl : i = 0 := Subsingleton.elim i 0
  exact H.keep rfl rfl fun r hr => absurd (by simpa using hr) (hc r)

/-- The writer goes on to the write, with room in the buffer. -/
theorem goto_write (H : s.Relieved o) {i : Fin 1} {c : Client}
    (hs : s.writeBuf.sizeBytes < o.hardLimit) : (s.goto i c).Relieved o :=
  ⟨fun _ _ => hs, H.bounded⟩

/-- The buffer is drained. -/
theorem empty (H : s.Relieved o) (hb : t.writeBuf = {})
    (hc : ∀ r, t.clients 0 = .write r → s.clients 0 = .write r) : t.Relieved o where
  below r hr := by
    have := H.below r (hc r hr)
    rw [hb, WriteBuf.sizeBytes_empty]
    omega
  bounded e _ := by
    have := e.sizeBytes_pos
    rw [hb, WriteBuf.sizeBytes_empty]
    omega

/-- A notification does not take a writer to the write. -/
theorem wake_write {c : Client} {r : Write} (h : c.wake = .write r) : c = .write r := by
  cases c <;> simp_all [Client.wake]

theorem step {e : Event 1} (H : s.Relieved o) (hok : ¬ s.Unrelieved o e)
    (hs : s.step o e = some t) : t.Relieved o := by
  cases step_moves hs with
  | @call i c h => cases c <;> exact H.goto (fun _ => Client.noConfusion)
  | below _ hlt => exact H.goto_write hlt
  | atLimit _ _ => exact H.goto (fun _ => Client.noConfusion)
  | @pass i k _ _ h hc =>
    cases k with
    | drain => exact H.goto (fun _ => Client.noConfusion)
    | write r =>
      refine H.goto_write ?_
      by_contra hlt
      exact hok ⟨⟨r, h⟩, hc, not_lt.mp hlt⟩
  | hold _ _ => exact H.goto (fun _ => Client.noConfusion)
  | block _ => exact H.goto (fun _ => Client.noConfusion)
  | @write i r _ _ h =>
    obtain rfl : i = 0 := Subsingleton.elim i 0
    have hlt := H.below r h
    refine ⟨fun _ hr => by simp at hr, fun e he => ?_⟩
    -- the new entry is the latest, and there was room before it
    obtain rfl : { key := r.key, value := r.value, seqNo := s.seq, deleted := r.deleted } = e := by
      simpa using he
    simp only [goto_writeBuf, write_writeBuf, WriteBuf.sizeBytes_insert]
    omega
  | full _ _ => exact H.goto (fun _ => Client.noConfusion)
  | done _ _ => exact H.goto (fun _ => Client.noConfusion)
  | @already _ b _ _ _ _ => cases b <;> exact H.goto (fun _ => Client.noConfusion)
  | @request i b _ _ _ _ =>
    have H' : Relieved o { s with requested := true } := H.keep rfl rfl fun _ hr => hr
    exact H'.goto (fun _ => Client.noConfusion)
  | @notifyNone _ b _ _ _ _ => cases b <;> exact H.goto (fun _ => Client.noConfusion)
  | @notifyFlusher i b _ _ _ =>
    have H' : Relieved o { s with flusher := .test } := H.keep rfl rfl fun _ hr => hr
    cases b <;> exact H'.goto (fun _ => Client.noConfusion)
  | @notifyClient i b j k _ _ _ =>
    have H' : (s.goto j (.wait k)).Relieved o := H.goto (fun _ => Client.noConfusion)
    cases b <;> exact H'.goto (fun _ => Client.noConfusion)
  | @found i k t e _ _ _ _ =>
    have H' : (s.answer ⟨k, t, .ok (if e.deleted then none else some e.value)⟩).Relieved o :=
      H.keep rfl rfl fun _ hr => hr
    exact H'.goto (fun _ => Client.noConfusion)
  | miss _ _ => exact H.goto (fun _ => Client.noConfusion)
  | @descend i k t _ p _ =>
    have H' : Relieved o ({ s with world := Act.exec (getFromTree k) ⟨s.world, p⟩ }.answer
        ⟨k, t, Act.eval (getFromTree k) ⟨s.world, p⟩⟩) := H.keep rfl rfl fun _ hr => hr
    exact H'.goto (fun _ => Client.noConfusion)
  | @drain i _ _ _ =>
    have H' : Relieved o { s with writeBuf := {} } := H.empty rfl fun _ hr => hr
    exact H'.goto (fun _ => Client.noConfusion)
  | @persist i pending _ p _ =>
    have H' : Relieved o { s with world := Act.exec (persistRoot pending) ⟨s.world, p⟩ } :=
      H.keep rfl rfl fun _ hr => hr
    exact H'.goto (fun _ => Client.noConfusion)
  | flusherDrain _ => exact H.empty rfl fun _ hr => hr
  | flusherNotify _ => exact H.keep rfl rfl fun _ hr => wake_write hr
  | stopNotify _ => exact H.keep rfl rfl fun _ hr => wake_write hr
  | stopDrain _ => exact H.empty rfl fun _ hr => hr
  | _ => exact H.keep rfl rfl fun _ hr => hr

theorem start (o : Options) (sizing : Sizing) : (State.start 1 sizing).Relieved o :=
  ⟨fun _ hr => (nomatch hr), fun _ he => (nomatch he)⟩

end State.Relieved

/-- **The buffer is bounded** in a run in which no write comes through the wait with the
buffer still at the hard limit. -/
theorem bounded_reach (o : Options) (sizing : Sizing) {s : State 1}
    (h : System.Reach (State.step o) (fun s e => ¬ s.Unrelieved o e) (State.start 1 sizing) s) :
    s.Bounded o :=
  (h.inv (State.Relieved o) (.start o sizing) fun _ _ _ H hok hs => H.step hok hs).bounded

/-- The flush thread takes up the request of the first write and raises its flag, and the writer
comes with a second write, finds the buffer at the hard limit, and blocks. -/
def blocking : List (Event 1) :=
  fillUp ++ List.replicate 3 (.flusher none) ++ [.call soleClient (.insert (.byte 2) .empty)] ++
    List.replicate 3 (.client soleClient none none)

/-- The flush thread drains the buffer, ends its cycle and wakes the writer, which writes. -/
def relieving : List (Event 1) :=
  List.replicate 5 (.flusher none) ++ List.replicate 2 (.client soleClient none none)

/-- A writer that waits at the hard limit writes after the drain. -/
theorem bounded_relieving : ∃ s t, System.runOk (State.step ⟨1, 2⟩)
      (fun s e => ¬ s.Unrelieved ⟨1, 2⟩ e) (State.start 1 fun _ => (64, 7)) blocking = some s ∧
    (s.clients soleClient).isBlocked = true ∧ 2 ≤ s.writeBuf.sizeBytes ∧
    System.runOk (State.step ⟨1, 2⟩) (fun s e => ¬ s.Unrelieved ⟨1, 2⟩ e)
      (State.start 1 fun _ => (64, 7)) (blocking ++ relieving) = some t ∧
    t.log.length = 2 ∧ t.Bounded ⟨1, 2⟩ := by
  have hwaits : ((System.runOk (State.step ⟨1, 2⟩) (fun s e => ¬ s.Unrelieved ⟨1, 2⟩ e)
      (State.start 1 fun _ => (64, 7)) blocking).any fun s =>
        (s.clients soleClient).isBlocked && decide (2 ≤ s.writeBuf.sizeBytes)) = true := by
    decide +kernel
  have hwrites : ((System.runOk (State.step ⟨1, 2⟩) (fun s e => ¬ s.Unrelieved ⟨1, 2⟩ e)
      (State.start 1 fun _ => (64, 7)) (blocking ++ relieving)).any fun t =>
        decide (t.log.length = 2)) = true := by
    decide +kernel
  obtain ⟨s, hs, hp⟩ := (Option.any_eq_true _ _).mp hwaits
  rw [Bool.and_eq_true, decide_eq_true_eq] at hp
  obtain ⟨t, ht, hlog⟩ := (Option.any_eq_true _ _).mp hwrites
  exact ⟨s, t, hs, hp.1, hp.2, ht, of_decide_eq_true hlog,
    bounded_reach ⟨1, 2⟩ _ (System.reach_runOk ht)⟩

/-- Two writes before the flush thread runs at all: the second finds the buffer at the hard
limit, and the wait lets it through. -/
theorem pressure_exceeded : ∃ s : State 1, System.Reach (State.step ⟨1, 2⟩) (fun _ _ => True)
    (State.start 1 fun _ => (64, 7)) s ∧ ¬ s.Bounded ⟨1, 2⟩ := by
  have hrun : ((System.runOk (State.step ⟨1, 2⟩) (fun _ _ => True)
      (State.start 1 fun _ => (64, 7))
      (fillUp ++ [.call soleClient (.insert (.byte 2) .empty)] ++
        List.replicate 3 (.client soleClient none none))).any fun s =>
        (s.log.getLast?.any fun e => decide (2 + e.sizeBytes ≤ s.writeBuf.sizeBytes))) = true := by
    decide +kernel
  obtain ⟨s, hs, hp⟩ := (Option.any_eq_true _ _).mp hrun
  obtain ⟨e, he, hp⟩ := (Option.any_eq_true _ _).mp hp
  refine ⟨s, System.reach_runOk hs, fun h => ?_⟩
  have hlt : s.writeBuf.sizeBytes < 2 + e.sizeBytes := h e he
  have hge : 2 + e.sizeBytes ≤ s.writeBuf.sizeBytes := by simpa using hp
  omega

end GravTree
