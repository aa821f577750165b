import GravTree.Crashes
import GravTree.Freshness
import GravTree.Recency

/-!
# Reads beside `flush()`

A `get` that does not find its key in the write buffer may find in the tree less than had been
written when it was called: what a thread holds at that moment is in neither. Otherwise the
newest version in the tree is the last write of the key at some time since the call, whoever
merged it and in whatever order, as long as nothing is overtaken.
-/

namespace GravTree

open State

variable {n : Nat}

/-- A `get` is about to look into the tree for what some thread holds. -/
def State.Misses (s : State n) : Event n → Prop
  | .client i _ _ => ∃ a, s.Taken a ∧ (s.clients i).Seeks a
  | _ => False

instance (s : State n) : ∀ e : Event n, Decidable (s.Misses e)
  | .call _ _ => inferInstanceAs (Decidable False)
  | .client i _ _ =>
    decidable_of_iff (∃ a ∈ s.flusher.held ++ s.aside, (s.clients i).Seeks a) <| by
      simp only [State.Misses, State.Taken, List.mem_append, State.mem_aside]
  | .flusher _ => inferInstanceAs (Decidable False)
  | .destructor _ => inferInstanceAs (Decidable False)

/-! ## What a `get` under way knows -/

section Knows

variable {o : Options} {s t : State n}

/-- Every `get` under way knows what it has to. -/
def State.Informed (s : State n) : Prop :=
  ∀ i, (s.clients i).Knows s.log.length s.writeBuf.entries

theorem State.Informed.goto {i : Fin n} {c : Client} (K : s.Informed)
    (hc : c.Knows s.log.length s.writeBuf.entries) : (s.goto i c).Informed := by
  intro j
  by_cases hj : j = i
  · simpa [hj] using hc
  · simpa [hj] using K j

/-- The write buffer is drained. -/
theorem State.Informed.drained (K : s.Informed) (ht : t.clients = s.clients)
    (hl : t.log = s.log) (hb : t.writeBuf = {}) : t.Informed := by
  intro i
  rw [ht, hl, hb]
  exact (K i).mono le_rfl fun _ he => nomatch he

theorem State.Informed.notifyAll (K : s.Informed) : s.notifyAll.Informed := fun i => (K i).wake

/-- A write has a higher number than those before it. -/
theorem State.Informed.write (K : s.Informed) (R : Recent s) (r : Write)
    (hlen : s.log.length + 1 < 2 ^ 64) : (s.write r).Informed := by
  intro i
  refine (K i).mono (by simp) fun e he => ?_
  rcases (List.mem_orderedInsert Entry.le).mp he with rfl | he
  · right
    show _ < s.seq.val
    rw [R.seq, Fin.val_ofNat, Nat.mod_eq_of_lt hlen]
    omega
  · exact .inl he

theorem State.Informed.step {e : Event n} (K : s.Informed) (R : Recent s)
    (hs : s.step o e = some t) (hlen : t.log.length < 2 ^ 64) : t.Informed := by
  cases step_moves hs with
  | @call i c _ =>
    cases c with
    | get k => exact K.goto (Nat.le_refl _)
    | _ => exact K.goto trivial
  | @pass _ k _ _ _ _ => exact K.goto (by cases k <;> trivial)
  | @write i r _ _ h =>
    have K' := K.write R r (by simpa using hlen)
    exact K'.goto trivial
  | @already _ b _ _ _ _ => exact K.goto (by cases b <;> trivial)
  | request _ _ => exact State.Informed.goto (s := { s with requested := true }) K trivial
  | @notifyNone _ b _ _ _ _ => exact K.goto (by cases b <;> trivial)
  | @notifyFlusher _ b _ _ _ =>
    exact State.Informed.goto (s := { s with flusher := .test }) K (by cases b <;> trivial)
  | @notifyClient i b j k _ _ _ =>
    have K' : (s.goto j (.wait k)).Informed := K.goto trivial
    exact K'.goto (by cases b <;> trivial)
  | found _ _ => exact State.Informed.goto (s := s.answer _) K trivial
  | @miss i k since _ _ h he =>
    have hk := K i
    rw [h] at hk
    have hno := (lookupSorted_eq_none s.writeBuf.sorted).mp he
    exact K.goto ⟨hk, fun e he hek => absurd hek (hno e he)⟩
  | descend _ => exact State.Informed.goto (s := State.answer _ _) K trivial
  | drain _ =>
    exact State.Informed.goto (s := { s with writeBuf := {} }) (K.drained rfl rfl rfl) trivial
  | persist _ => exact State.Informed.goto (s := { s with world := _ }) K trivial
  | flusherDrain _ => exact K.drained rfl rfl rfl
  | flusherNotify _ => exact K.notifyAll
  | stopNotify _ => exact K.notifyAll
  | stopDrain _ => exact K.drained rfl rfl rfl
  | below _ _ | atLimit _ _ | hold _ _ | block _ | full _ _ | done _ _ => exact K.goto trivial
  | _ => exact K

end Knows

/-! ## Fresh answers -/

theorem Numbered.take {es : List Entry} (N : Numbered es) (j : Nat) : Numbered (es.take j) := by
  have h : es.take j <+: es := List.take_prefix ..
  exact N.of_initial h

namespace Recent

variable {s : State n} {key : Bytes}

/-- What is found in the write buffer is the last write of the key. -/
theorem lastEntry_buf (R : Recent s) {e : Entry} (h : s.writeBuf.findKey key = some e) :
    lastEntry key s.log = some e := by
  obtain ⟨he, hk, hmax⟩ := lookupSorted_eq_some s.writeBuf.sorted h
  refine R.numbered.lastEntry_eq (R.pending e (.inl he)) hk fun a ha hak => ?_
  rcases R.kept a ha with (ha | ha) | ⟨x, m, hx, b, hb, -, hle⟩
  · exact hmax a ha hak
  · exact (R.buffered e he a (.inl ha)).le
  · exact hle.trans (R.buffered e he b (.inr ⟨x, m, hx, hb⟩)).le

/-- **The tree is new enough** for a `get` that misses nothing. -/
theorem fresh_tree (R : Recent s) {since : Nat} (hs : since ≤ s.log.length)
    (hbuf : ∀ e ∈ s.writeBuf.entries, e.key = key → since < e.seqNo.val)
    (htaken : ∀ e, s.Taken e → e.key = key → since < e.seqNo.val) :
    Answer.Fresh ⟨key, since, .ok ((s.world.tree.answer key).bind Entry.shown)⟩ s.log := by
  have hnewest := R.ordered.newest R.tidy.sound R.layered key
  -- every write of the key up to the call is behind something in the tree
  have hheld : ∀ e ∈ s.log, e.key = key → e.seqNo.val ≤ since → s.world.view.Holds e := by
    intro e he hk hle
    rcases R.kept e he with (he | he) | he
    · exact absurd (hbuf e he hk) (not_lt.mpr hle)
    · exact absurd (htaken e he hk) (not_lt.mpr hle)
    · exact he
  have htake : ∀ {j} {e : Entry}, e ∈ s.log.take j → e ∈ s.log ∧ e.seqNo.val ≤ j := fun he =>
    ⟨List.mem_of_mem_take he,
      ((R.numbered.take _).le_length he).trans (List.length_take_le _ _)⟩
  cases ha : s.world.tree.answer key with
  | none =>
    rw [ha] at hnewest
    refine ⟨since, le_rfl, hs, ?_⟩
    have hno : lastEntry key (s.log.take since) = none := lastEntry_eq_none.mpr fun e he hk => by
      obtain ⟨hmem, hle⟩ := htake he
      obtain ⟨x, m, hx, b, hb, hbk, -⟩ := hheld e hmem hk hle
      exact hnewest b ⟨x, m, hx, hb⟩ (hbk.trans hk)
    rw [hno]
  | some e =>
    rw [ha] at hnewest
    obtain ⟨hst, hk, hmax⟩ := hnewest
    have hmem : e ∈ s.log := R.stored hst
    have hle := R.numbered.le_length hmem
    refine ⟨max since e.seqNo.val, le_max_left _ _, max_le hs hle, ?_⟩
    have hlast : lastEntry key (s.log.take (max since e.seqNo.val)) = some e := by
      refine (R.numbered.take _).lastEntry_eq ?_ hk fun b hb hbk => ?_
      · obtain ⟨i, hi⟩ := List.mem_iff_getElem?.mp hmem
        have hseq := R.numbered.seqNo hi
        refine List.mem_of_getElem? (i := i) ?_
        rw [List.getElem?_take_of_lt (by omega), hi]
      · obtain ⟨hb, hbj⟩ := htake hb
        by_cases hbs : b.seqNo.val ≤ since
        · obtain ⟨x, m, hx, c, hc, hck, hle⟩ := hheld b hb hbk hbs
          exact hle.trans (hmax c ⟨x, m, hx, hc⟩ (hck.trans hbk))
        · exact Fin.le_def.mpr (by omega)
    rw [hlast]

end Recent

/-- Every `get` under way knows what it has to, and those that returned were fresh. -/
structure Answering (s : State n) : Prop extends Recent s where
  informed : s.Informed
  fresh : ∀ a ∈ s.answers, a.Fresh s.log

namespace Answering

variable {o : Options} {s t : State n}

theorem start (n : Nat) (sizing : Sizing) : Answering (State.start n sizing) where
  toRecent := .start n sizing
  informed _ := trivial
  fresh _ h := nomatch h

/-- **One step**, after which the splits are still clean. -/
theorem step (A : Answering s) {e : Event n} (hok : s.Mends o e) (hover : ¬ s.Overtakes e)
    (hmiss : ¬ s.Misses e) (hs : s.step o e = some t) (hlen : t.log.length < 2 ^ 64)
    (hC : Clean t.world.rest.splits) : Answering t := by
  refine ⟨A.toRecent.step hok hover hs hlen hC, A.informed.step A.toRecent hs hlen, ?_⟩
  cases step_moves hs with
  | @found i k since e _ _ h he =>
    have hk := A.informed i
    rw [h] at hk
    intro a ha
    rcases List.mem_append.mp ha with ha | ha
    · exact A.fresh a ha
    · obtain rfl := List.mem_singleton.mp ha
      refine ⟨s.log.length, hk, Nat.le_refl _, ?_⟩
      show _ = Except.ok ((lastEntry k (s.log.take s.log.length)).bind Entry.shown)
      rw [List.take_length, A.lastEntry_buf he]
      rfl
  | @descend i k since _ p h =>
    obtain rfl : p = none := hok
    have hk := A.informed i
    rw [h] at hk
    intro a ha
    rcases List.mem_append.mp ha with ha | ha
    · exact A.fresh a ha
    · obtain rfl := List.mem_singleton.mp ha
      rw [getFromTree_serves A.tidy.sound.shape A.tidy.serves k]
      refine A.fresh_tree hk.1 hk.2 fun e he hek => ?_
      by_contra hle
      exact hmiss ⟨e, he, by rw [h]; exact ⟨hek, not_lt.mp hle⟩⟩
  | @write i r _ _ h => exact fun a ha => (A.fresh a ha).append _
  | @call i c _ => cases c <;> exact A.fresh
  | _ => exact A.fresh

end Answering

/-- **`get` is fresh** beside `flush()`, the flush thread and the destructor. -/
theorem get_fresh_reach (o : Options) (sizing : Sizing) {s : State n}
    (h : System.Reach (State.step o)
      (fun s e => s.Mends o e ∧ ¬ s.Overtakes e ∧ ¬ s.Misses e) (State.start n sizing) s)
    (hlen : s.log.length < 2 ^ 64) (hC : Clean s.world.splits) :
    ∀ a ∈ s.answers, a.Fresh s.log := by
  have hinv := h.inv (fun s => s.log.length < 2 ^ 64 → Clean s.world.rest.splits → Answering s)
    (fun _ _ => .start n sizing) fun s e t ih hok hs hlen hC => by
      obtain ⟨hle, l, hl⟩ := State.step_grows hs
      exact (ih (lt_of_le_of_lt hle hlen) (hl ▸ hC).of_append).step hok.1 hok.2.1 hok.2.2 hs hlen hC
  exact (hinv hlen hC).fresh

/-- The read of the second client. -/
theorem get_fresh_reach_overlapping : ∃ s : State 2, s.log.length = 3 ∧ s.answers.length = 1 ∧
    ∀ a ∈ s.answers, a.Fresh s.log := by
  have hrun : ((System.runOk (State.step ⟨1, 2 ^ 30⟩)
      (fun s e => s.Mends ⟨1, 2 ^ 30⟩ e ∧ ¬ s.Overtakes e ∧ ¬ s.Misses e)
      (State.start 2 fun _ => (64, 7)) overlapping).any fun s =>
        decide (s.log.length = 3) && decide (s.answers.length = 1) &&
          decide (Clean s.world.splits)) = true := by
    decide +kernel
  obtain ⟨s, hs, hp⟩ := (Option.any_eq_true _ _).mp hrun
  simp only [Bool.and_eq_true, decide_eq_true_eq] at hp
  obtain ⟨⟨hlog, hanswers⟩, hC⟩ := hp
  exact ⟨s, hlog, hanswers, get_fresh_reach _ _ (System.reach_runOk hs) (by omega) hC⟩

end GravTree
