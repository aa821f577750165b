import GravTree.Threads

/-!
# The moves of the threads

What one step can do, once for all: each move with the place its thread was at,
what it found and the state it leaves.
-/

namespace GravTree

open State

variable {n : Nat}

/-- The moves. -/
inductive Moves (o : Options) (s : State n) : Event n → State n → Prop
  | call {i c} (h : s.clients i = .idle) : Moves o s (.call i c) (s.call i c)
  | below {i r w p} (h : s.clients i = .limit r) (hs : s.writeBuf.sizeBytes < o.hardLimit) :
      Moves o s (.client i w p) (s.goto i (.write r))
  | atLimit {i r w p} (h : s.clients i = .limit r) (hs : o.hardLimit ≤ s.writeBuf.sizeBytes) :
      Moves o s (.client i w p) (s.goto i (.wait (.write r)))
  | pass {i k w p} (h : s.clients i = .wait k) (hc : s.calm = true) :
      Moves o s (.client i w p) (s.goto i k.next)
  | hold {i k w p} (h : s.clients i = .wait k) (hc : s.calm = false) :
      Moves o s (.client i w p) (s.goto i (.block k))
  | block {i k w p} (h : s.clients i = .block k) :
      Moves o s (.client i w p) (s.goto i (.blocked k))
  | write {i r w p} (h : s.clients i = .write r) :
      Moves o s (.client i w p) ((s.write r).goto i .threshold)
  | full {i w p} (h : s.clients i = .threshold) (hs : o.bufferThreshold ≤ s.writeBuf.sizeBytes) :
      Moves o s (.client i w p) (s.goto i (.signal false))
  | done {i w p} (h : s.clients i = .threshold) (hs : s.writeBuf.sizeBytes < o.bufferThreshold) :
      Moves o s (.client i w p) (s.goto i .idle)
  | already {i b w p} (h : s.clients i = .signal b) (hr : s.requested = true) :
      Moves o s (.client i w p) (s.goto i (.signalled b))
  | request {i b w p} (h : s.clients i = .signal b) (hr : s.requested = false) :
      Moves o s (.client i w p) ({ s with requested := true }.goto i (.notify b))
  | notifyNone {i b p} (h : s.clients i = .notify b) (hf : s.flusher.isBlocked = false)
      (hc : ∀ j, (s.clients j).isBlocked = false) :
      Moves o s (.client i none p) (s.goto i (.signalled b))
  | notifyFlusher {i b p} (h : s.clients i = .notify b) (hf : s.flusher = .blocked) :
      Moves o s (.client i (some .flusher) p) ({ s with flusher := .test }.goto i (.signalled b))
  | notifyClient {i b j k p} (h : s.clients i = .notify b) (hj : s.clients j = .blocked k) :
      Moves o s (.client i (some (.client j)) p) ((s.goto j (.wait k)).goto i (.signalled b))
  | found {i k t e w p} (h : s.clients i = .lookup k t) (he : s.writeBuf.findKey k = some e) :
      Moves o s (.client i w p)
        ((s.answer ⟨k, t, .ok (if e.deleted then none else some e.value)⟩).goto i .idle)
  | miss {i k t w p} (h : s.clients i = .lookup k t) (he : s.writeBuf.findKey k = none) :
      Moves o s (.client i w p) (s.goto i (.descend k t))
  | descend {i k t w p} (h : s.clients i = .descend k t) :
      Moves o s (.client i w p) (({ s with
        world := Act.exec (getFromTree k) ⟨s.world, p⟩ }.answer
          ⟨k, t, Act.eval (getFromTree k) ⟨s.world, p⟩⟩).goto i .idle)
  | drain {i w p} (h : s.clients i = .drain) :
      Moves o s (.client i w p)
        ({ s with writeBuf := {} }.goto i (.persist s.writeBuf.entries))
  | persist {i pending w p} (h : s.clients i = .persist pending) :
      Moves o s (.client i w p)
        ({ s with world := Act.exec (persistRoot pending) ⟨s.world, p⟩ }.goto i .idle)
  | flusherWanted {p} (h : s.flusher = .test) (hw : s.wanted = true) :
      Moves o s (.flusher p) { s with flusher := .awake }
  | flusherHold {p} (h : s.flusher = .test) (hw : s.wanted = false) :
      Moves o s (.flusher p) { s with flusher := .block }
  | flusherBlock {p} (h : s.flusher = .block) :
      Moves o s (.flusher p) { s with flusher := .blocked }
  | flusherExit {p} (h : s.flusher = .awake) (hs : s.stop = true) :
      Moves o s (.flusher p) { s with flusher := .exited }
  | flusherGo {p} (h : s.flusher = .awake) (hs : s.stop = false) :
      Moves o s (.flusher p) { s with flusher := .raise }
  | flusherRaise {p} (h : s.flusher = .raise) :
      Moves o s (.flusher p) { s with inProgress := true, flusher := .drain }
  | flusherDrain {p} (h : s.flusher = .drain) :
      Moves o s (.flusher p) { s with writeBuf := {}, flusher := .merge s.writeBuf.entries }
  | flusherMerge {pending p} (h : s.flusher = .merge pending) :
      Moves o s (.flusher p) { s with
        world := Act.exec (catchAll (flushPending pending)) ⟨s.world, p⟩
        flusher := .clearRequest }
  | flusherClearRequest {p} (h : s.flusher = .clearRequest) :
      Moves o s (.flusher p) { s with requested := false, flusher := .clearProgress }
  | flusherClearProgress {p} (h : s.flusher = .clearProgress) :
      Moves o s (.flusher p) { s with inProgress := false, flusher := .notify }
  | flusherNotify {p} (h : s.flusher = .notify) :
      Moves o s (.flusher p) { s.notifyAll with flusher := .test }
  | stop {p} (h : s.destructor = .idle) :
      Moves o s (.destructor p) { s with stop := true, destructor := .notify }
  | stopNotify {p} (h : s.destructor = .notify) :
      Moves o s (.destructor p) { s.notifyAll with destructor := .join }
  | join {p} (h : s.destructor = .join) (hf : s.flusher = .exited) :
      Moves o s (.destructor p) { s with destructor := .drain }
  | stopDrain {p} (h : s.destructor = .drain) :
      Moves o s (.destructor p)
        { s with writeBuf := {}, destructor := .persist s.writeBuf.entries }
  | stopPersist {pending p} (h : s.destructor = .persist pending) :
      Moves o s (.destructor p) { s with
        world := Act.exec (catchAll (destroyTree pending)) ⟨s.world, p⟩
        destructor := .gone }

namespace State

variable {o : Options} {s s' : State n}

theorem notifyOne_moves {i : Fin n} {b : Bool} {woken : Option (Waiter n)}
    {p : Option (Nat × Stop)} (h : s.clients i = .notify b)
    (hs : s.notifyOne woken = some s') :
    Moves o s (.client i woken p) (s'.goto i (.signalled b)) := by
  unfold notifyOne at hs
  split at hs
  · split at hs
    · rename_i hnone
      cases hs
      simp only [Bool.and_eq_true, Bool.not_eq_true', decide_eq_true_eq] at hnone
      exact .notifyNone h hnone.1 hnone.2
    · cases hs
  · split at hs
    · rename_i hf
      cases hs
      refine .notifyFlusher h ?_
      cases hfl : s.flusher <;> simp_all [Flusher.isBlocked]
    · cases hs
  · rename_i j
    split at hs
    · rename_i hj
      cases hs
      cases hcl : s.clients j with
      | blocked k => exact .notifyClient h hcl
      | _ => simp [hcl, Client.isBlocked] at hj
    · cases hs

theorem clientStep_moves {i : Fin n} {woken : Option (Waiter n)} {p : Option (Nat × Stop)}
    (hs : s.clientStep o i woken p = some s') : Moves o s (.client i woken p) s' := by
  unfold clientStep at hs
  split at hs
  case h_1 => cases hs
  case h_2 r h =>
    cases hs
    split
    · exact .atLimit h ‹_›
    · exact .below h (not_le.mp ‹_›)
  case h_3 k h =>
    split at hs
    · cases hs
      split
      · exact .pass h ‹_›
      · exact .hold h (by simpa using ‹¬ s.calm = true›)
    · cases hs
  case h_4 k h =>
    cases hs
    exact .block h
  case h_5 => cases hs
  case h_6 r h =>
    cases hs
    exact .write h
  case h_7 h =>
    cases hs
    split
    · exact .full h ‹_›
    · exact .done h (not_le.mp ‹_›)
  case h_8 b h =>
    cases hs
    split
    · rename_i hr
      have : { s with requested := true } = s := by rw [← hr]
      rw [this]
      exact .already h hr
    · exact .request h (by simpa using ‹¬ s.requested = true›)
  case h_9 b h =>
    obtain ⟨s₁, h₁, rfl⟩ := Option.map_eq_some_iff.mp hs
    exact notifyOne_moves h h₁
  case h_10 k t h =>
    split at hs
    · cases hs
      exact .found h ‹_›
    · cases hs
      exact .miss h ‹_›
  case h_11 k t h =>
    cases hs
    exact .descend h
  case h_12 h =>
    cases hs
    exact .drain h
  case h_13 pending h =>
    cases hs
    exact .persist h

theorem flusherStep_moves {p : Option (Nat × Stop)} (hs : s.flusherStep p = some s') :
    Moves o s (.flusher p) s' := by
  unfold flusherStep at hs
  split at hs
  case h_1 h =>
    split at hs
    · cases hs
      split
      · exact .flusherWanted h ‹_›
      · exact .flusherHold h (by simpa using ‹¬ s.wanted = true›)
    · cases hs
  case h_2 h =>
    cases hs
    exact .flusherBlock h
  case h_3 => cases hs
  case h_4 h =>
    cases hs
    split
    · exact .flusherExit h ‹_›
    · exact .flusherGo h (by simpa using ‹¬ s.stop = true›)
  case h_5 h =>
    cases hs
    exact .flusherRaise h
  case h_6 h =>
    cases hs
    exact .flusherDrain h
  case h_7 pending h =>
    cases hs
    exact .flusherMerge h
  case h_8 h =>
    cases hs
    exact .flusherClearRequest h
  case h_9 h =>
    cases hs
    exact .flusherClearProgress h
  case h_10 h =>
    cases hs
    exact .flusherNotify h
  case h_11 => cases hs

theorem destructorStep_moves {p : Option (Nat × Stop)} (hs : s.destructorStep p = some s') :
    Moves o s (.destructor p) s' := by
  unfold destructorStep at hs
  split at hs
  case h_1 h =>
    cases hs
    exact .stop h
  case h_2 h =>
    cases hs
    exact .stopNotify h
  case h_3 h =>
    split at hs
    · cases hs
      exact .join h ‹_›
    · cases hs
  case h_4 h =>
    cases hs
    exact .stopDrain h
  case h_5 pending h =>
    cases hs
    exact .stopPersist h
  case h_6 => cases hs

/-- **Every step is one of the moves.** -/
theorem step_moves {e : Event n} (hs : s.step o e = some s') : Moves o s e s' := by
  cases e with
  | call i c =>
    unfold step at hs
    split at hs
    · rename_i heq
      cases heq
      split at hs
      · cases hs
        exact .call ‹_›
      · cases hs
    all_goals contradiction
  | client i woken p => exact clientStep_moves hs
  | flusher p => exact flusherStep_moves hs
  | destructor p => exact destructorStep_moves hs

end State

end GravTree
