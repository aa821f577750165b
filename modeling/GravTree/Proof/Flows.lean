import GravTree.Durability

/-!
# What a step does to the entries

Most steps only move a thread. Of the others each does one thing: a write, an answer, a drain
of the write buffer into a local vector, or a merge of such a vector into the tree.
-/

namespace GravTree

open State

variable {n : Nat}

/-- The entries the destructor holds. -/
def Destructor.held : Destructor → List Entry
  | .persist pending => pending
  | _ => []

namespace State

/-- A thread other than the flush thread holds the entry in a local vector. -/
def Aside (s : State n) (e : Entry) : Prop :=
  (∃ i, e ∈ (s.clients i).held) ∨ e ∈ s.destructor.held

/-- Some thread holds the entry in a local vector. -/
def Taken (s : State n) (e : Entry) : Prop := e ∈ s.flusher.held ∨ s.Aside e

/-- The states differ in where the threads are. -/
structure Shares (s t : State n) : Prop where
  writeBuf : t.writeBuf = s.writeBuf
  seq : t.seq = s.seq
  world : t.world = s.world
  log : t.log = s.log
  answers : t.answers = s.answers

/-- What a step does. -/
inductive Flows (s : State n) : Event n → State n → Prop
  | still {e t} (h : Shares s t) (ht : ∀ a, t.Taken a ↔ s.Taken a) : Flows s e t
  | write {e t} (r : Write) (h : Shares (s.write r) t) (ht : ∀ a, t.Taken a ↔ s.Taken a) :
      Flows s e t
  | found {e t k since a} (ha : s.writeBuf.findKey k = some a)
      (h : Shares (s.answer ⟨k, since, .ok a.shown⟩) t) (ht : ∀ a, t.Taken a ↔ s.Taken a) :
      Flows s e t
  | descend {i k since woken plan t} (hc : s.clients i = .descend k since)
      (h : Shares ({ s with world := Act.exec (getFromTree k) ⟨s.world, plan⟩ }.answer
        ⟨k, since, Act.eval (getFromTree k) ⟨s.world, plan⟩⟩) t)
      (ht : ∀ a, t.Taken a ↔ s.Taken a) : Flows s (.client i woken plan) t
  | take {e t} (h : Shares { s with writeBuf := {} } t)
      (ht : ∀ a, t.Taken a ↔ a ∈ s.writeBuf.entries ∨ s.Taken a) : Flows s e t
  | merge {pending plan t} (hf : s.flusher = .merge pending)
      (h : Shares { s with
        world := Act.exec (catchAll (flushPending pending)) ⟨s.world, plan⟩ } t)
      (ht : ∀ a, t.Taken a ↔ s.Aside a) : Flows s (.flusher plan) t
  | persist {i pending woken plan t} (hc : s.clients i = .persist pending)
      (h : Shares { s with world := Act.exec (persistRoot pending) ⟨s.world, plan⟩ } t)
      (hs : ∀ a, s.Taken a ↔ a ∈ pending ∨ t.Taken a) : Flows s (.client i woken plan) t
  | destroy {pending plan t} (hd : s.destructor = .persist pending)
      (h : Shares { s with
        world := Act.exec (catchAll (destroyTree pending)) ⟨s.world, plan⟩ } t)
      (hs : ∀ a, s.Taken a ↔ a ∈ pending ∨ t.Taken a) : Flows s (.destructor plan) t

/-! ## Who holds what -/

section Held

variable {s t : State n} {i : Fin n} {c : Client}

/-- A client goes on to something, and held nothing. -/
theorem aside_goto_of_nil (h : (s.clients i).held = []) (a : Entry) :
    (s.goto i c).Aside a ↔ a ∈ c.held ∨ s.Aside a := by
  have hself : ((s.goto i c).clients i).held = c.held := by
    rw [goto_clients, Function.update_self]
  have hother : ∀ {j}, j ≠ i → ((s.goto i c).clients j).held = (s.clients j).held := fun hj => by
    rw [goto_clients, Function.update_of_ne hj]
  constructor
  · intro ha
    rcases ha with ⟨j, hj⟩ | ha
    · by_cases hji : j = i
      · rw [hji, hself] at hj
        exact .inl hj
      · rw [hother hji] at hj
        exact .inr (.inl ⟨j, hj⟩)
    · exact .inr (.inr ha)
  · intro ha
    rcases ha with ha | ⟨j, hj⟩ | ha
    · exact .inl ⟨i, hself.symm ▸ ha⟩
    · refine .inl ⟨j, ?_⟩
      have hji : j ≠ i := fun hji => by
        rw [hji, h] at hj
        cases hj
      rwa [hother hji]
    · exact .inr ha

/-- A client goes on to nothing. -/
theorem aside_of_goto (h : c.held = []) (a : Entry) :
    s.Aside a ↔ a ∈ (s.clients i).held ∨ (s.goto i c).Aside a := by
  have hother : ∀ {j}, j ≠ i → ((s.goto i c).clients j).held = (s.clients j).held := fun hj => by
    rw [goto_clients, Function.update_of_ne hj]
  constructor
  · intro ha
    rcases ha with ⟨j, hj⟩ | ha
    · by_cases hji : j = i
      · exact .inl (hji ▸ hj)
      · exact .inr (.inl ⟨j, (hother hji).symm ▸ hj⟩)
    · exact .inr (.inr ha)
  · intro ha
    rcases ha with ha | ⟨j, hj⟩ | ha
    · exact .inl ⟨i, ha⟩
    · have hji : j ≠ i := fun hji => by
        rw [hji, goto_clients, Function.update_self, h] at hj
        cases hj
      exact .inl ⟨j, hother hji ▸ hj⟩
    · exact .inr ha

/-- A client goes on with what it held. -/
theorem held_goto (h : c.held = (s.clients i).held) (j : Fin n) :
    ((s.goto i c).clients j).held = (s.clients j).held := by
  by_cases hj : j = i
  · rw [hj, goto_clients, Function.update_self, h]
  · rw [goto_clients, Function.update_of_ne hj]

theorem taken_congr (hf : t.flusher.held = s.flusher.held)
    (hc : ∀ j, (t.clients j).held = (s.clients j).held)
    (hd : t.destructor.held = s.destructor.held) (a : Entry) : t.Taken a ↔ s.Taken a := by
  simp only [Taken, Aside, hf, hc, hd]

end Held

/-! ## Every step -/

variable {s t : State n}

/-- A step that only moves a client. -/
theorem Flows.goto {s' : State n} {e : Event n} {i : Fin n} {c : Client} (h : Shares s s')
    (hf : s'.flusher.held = s.flusher.held) (hcs : s'.clients = s.clients)
    (hd : s'.destructor = s.destructor) (hc : c.held = (s.clients i).held) :
    Flows s e (s'.goto i c) :=
  .still ⟨h.writeBuf, h.seq, h.world, h.log, h.answers⟩
    (taken_congr hf (fun j => (held_goto (hcs ▸ hc) j).trans (by rw [hcs])) (by rw [← hd]; rfl))

/-- A step that only moves the flush thread. -/
theorem Flows.flusher {e : Event n} {requested inProgress : Bool} {f : Flusher}
    (hf : f.held = s.flusher.held) : Flows s e { s with requested, inProgress, flusher := f } :=
  .still ⟨rfl, rfl, rfl, rfl, rfl⟩ (taken_congr hf (fun _ => rfl) rfl)

/-- A step that only moves the destructor. -/
theorem Flows.destructor {e : Event n} {stop : Bool} {d : Destructor}
    (hd : d.held = s.destructor.held) : Flows s e { s with stop, destructor := d } :=
  .still ⟨rfl, rfl, rfl, rfl, rfl⟩ (taken_congr rfl (fun _ => rfl) hd)

/-- **What each step does** to the entries. -/
theorem step_flows {o : Options} {e : Event n} (hs : s.step o e = some t) : Flows s e t := by
  have self : Shares s s := ⟨rfl, rfl, rfl, rfl, rfl⟩
  cases step_moves hs with
  | call h => cases ‹Call› <;> exact .goto self rfl rfl rfl (by rw [h]; rfl)
  | below h _ => exact .goto self rfl rfl rfl (by rw [h]; rfl)
  | atLimit h _ => exact .goto self rfl rfl rfl (by rw [h]; rfl)
  | @pass _ k _ _ h _ => exact .goto self rfl rfl rfl (by rw [h]; cases k <;> rfl)
  | hold h _ => exact .goto self rfl rfl rfl (by rw [h]; rfl)
  | block h => exact .goto self rfl rfl rfl (by rw [h]; rfl)
  | @write i r _ _ h =>
    exact .write r ⟨rfl, rfl, rfl, rfl, rfl⟩
      (taken_congr rfl (held_goto (s := s.write r) (by rw [write_clients, h]; rfl)) rfl)
  | full h _ => exact .goto self rfl rfl rfl (by rw [h]; rfl)
  | done h _ => exact .goto self rfl rfl rfl (by rw [h]; rfl)
  | @already _ b _ _ h _ => exact .goto self rfl rfl rfl (by rw [h]; cases b <;> rfl)
  | request h _ => exact .goto ⟨rfl, rfl, rfl, rfl, rfl⟩ rfl rfl rfl (by rw [h]; rfl)
  | @notifyNone _ b _ h _ _ => exact .goto self rfl rfl rfl (by rw [h]; cases b <;> rfl)
  | @notifyFlusher _ b _ h hf =>
    exact .goto ⟨rfl, rfl, rfl, rfl, rfl⟩ (by rw [hf]; rfl) rfl rfl (by rw [h]; cases b <;> rfl)
  | @notifyClient i b j k _ h hj =>
    have hwait : ∀ l, ((s.goto j (.wait k)).clients l).held = (s.clients l).held :=
      held_goto (by rw [hj]; rfl)
    have hgone : ∀ l, (((s.goto j (.wait k)).goto i (.signalled b)).clients l).held =
        ((s.goto j (.wait k)).clients l).held :=
      held_goto (by rw [hwait, h]; cases b <;> rfl)
    exact .still ⟨rfl, rfl, rfl, rfl, rfl⟩
      (taken_congr rfl (fun l => (hgone l).trans (hwait l)) rfl)
  | @found i k since a _ _ h ha =>
    exact .found ha ⟨rfl, rfl, rfl, rfl, rfl⟩
      (taken_congr rfl (held_goto (s := s.answer _) (by rw [answer_clients, h]; rfl)) rfl)
  | miss h _ => exact .goto self rfl rfl rfl (by rw [h]; rfl)
  | descend h =>
    exact .descend h ⟨rfl, rfl, rfl, rfl, rfl⟩ (taken_congr rfl
      (held_goto (s := State.answer _ _)
        (by rw [answer_clients]; show _ = (s.clients _).held; rw [h]; rfl)) rfl)
  | drain h =>
    refine .take ⟨rfl, rfl, rfl, rfl, rfl⟩ fun a => ?_
    have := aside_goto_of_nil (s := { s with writeBuf := {} }) (c := .persist s.writeBuf.entries)
      (by rw [show _ = Client.drain from h]; rfl) a
    unfold Taken
    rw [this, or_left_comm]
    rfl
  | persist h =>
    refine .persist h ⟨rfl, rfl, rfl, rfl, rfl⟩ fun a => ?_
    have := aside_of_goto (s := s) (i := ‹Fin n›) (c := .idle) rfl a
    unfold Taken
    rw [this, h, or_left_comm]
    rfl
  | flusherWanted h _ => exact .flusher (by rw [h]; rfl)
  | flusherHold h _ => exact .flusher (by rw [h]; rfl)
  | flusherBlock h => exact .flusher (by rw [h]; rfl)
  | flusherExit h _ => exact .flusher (by rw [h]; rfl)
  | flusherGo h _ => exact .flusher (by rw [h]; rfl)
  | flusherRaise h => exact .flusher (by rw [h]; rfl)
  | flusherDrain h =>
    refine .take ⟨rfl, rfl, rfl, rfl, rfl⟩ fun a => ?_
    unfold Taken
    rw [h]
    simp [Flusher.held, Aside]
  | flusherMerge h =>
    refine .merge h ⟨rfl, rfl, rfl, rfl, rfl⟩ fun a => ?_
    simp [Taken, Flusher.held, Aside]
  | flusherClearRequest h => exact .flusher (by rw [h]; rfl)
  | flusherClearProgress h => exact .flusher (by rw [h]; rfl)
  | flusherNotify h =>
    exact .still ⟨rfl, rfl, rfl, rfl, rfl⟩
      (taken_congr (by rw [h]; rfl) (fun j => Client.held_wake _) rfl)
  | stop h => exact .destructor (by rw [h]; rfl)
  | stopNotify h =>
    exact .still ⟨rfl, rfl, rfl, rfl, rfl⟩
      (taken_congr (Flusher.held_wake _) (fun j => Client.held_wake _) (by rw [h]; rfl))
  | join h _ => exact .destructor (by rw [h]; rfl)
  | stopDrain h =>
    refine .take ⟨rfl, rfl, rfl, rfl, rfl⟩ fun a => ?_
    simp [Taken, Aside, Destructor.held, h, or_comm, or_left_comm]
  | stopPersist h =>
    refine .destroy h ⟨rfl, rfl, rfl, rfl, rfl⟩ fun a => ?_
    simp [Taken, Aside, Destructor.held, h, or_comm, or_left_comm]

/-- No entry comes from nowhere: what is in the write buffer or with a thread was written. -/
theorem Flows.pending {e : Event n} (h : Flows s e t)
    (hp : ∀ a, a ∈ s.writeBuf.entries ∨ s.Taken a → a ∈ s.log) (a : Entry)
    (ha : a ∈ t.writeBuf.entries ∨ t.Taken a) : a ∈ t.log := by
  cases h with
  | still h ht | found _ h ht | descend _ h ht =>
    rw [h.writeBuf, ht] at ha
    exact h.log ▸ hp a ha
  | write r h ht =>
    obtain ⟨b, hlog, hbuf⟩ : ∃ b : Entry, (s.write r).log = s.log ++ [b] ∧
        ∀ e, e ∈ (s.write r).writeBuf.entries ↔ e = b ∨ e ∈ s.writeBuf.entries :=
      ⟨_, rfl, fun _ => List.mem_orderedInsert Entry.le⟩
    rw [h.writeBuf, hbuf, ht, or_assoc] at ha
    rw [h.log, hlog, List.mem_append, List.mem_singleton, or_comm]
    exact ha.imp_right (hp a)
  | take h ht =>
    rw [h.writeBuf, ht] at ha
    exact h.log ▸ hp a (ha.resolve_left List.not_mem_nil)
  | merge _ h ht =>
    rw [h.writeBuf, ht] at ha
    exact h.log ▸ hp a (ha.imp_right .inr)
  | persist _ h hs | destroy _ h hs =>
    rw [h.writeBuf] at ha
    exact h.log ▸ hp a (ha.imp_right fun ha => (hs a).mpr (.inr ha))

end State

end GravTree
