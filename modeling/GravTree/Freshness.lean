import GravTree.Proof.Staged

/-!
# Reads beside the flush thread

The flush thread drains the write buffer in one critical section and merges into the root
in another. In between, what it drained is in neither, and `get` looks into both, one after
the other: a `get` whose second look falls between the two does not find what was written
before it was called. Every other `get` returns what was last written at some moment since
its call.
-/

namespace GravTree

open State

variable {n : Nat}

/-- What the clients and the flush thread do while nobody calls `flush()`, with file
operations that succeed. -/
def Event.Plain : Event n → Prop
  | .call _ .flush => False
  | .call _ _ => True
  | .client _ _ plan => plan = none
  | .flusher plan => plan = none
  | .destructor _ => False

/-- About to look into the tree for a key that the entry, written before the call, is of. -/
def Client.Seeks (e : Entry) : Client → Prop
  | .descend key since => e.key = key ∧ e.seqNo.val ≤ since
  | _ => False

/-- A `get` is about to look into the tree for what the flush thread holds. -/
def State.Behind (s : State n) : Event n → Prop
  | .client i _ _ => ∃ e ∈ s.flusher.held, (s.clients i).Seeks e
  | _ => False

instance : ∀ e : Event n, Decidable e.Plain
  | .call _ .flush => inferInstanceAs (Decidable False)
  | .call _ (.insert _ _) => inferInstanceAs (Decidable True)
  | .call _ (.remove _) => inferInstanceAs (Decidable True)
  | .call _ (.get _) => inferInstanceAs (Decidable True)
  | .client _ _ plan => inferInstanceAs (Decidable (plan = none))
  | .flusher plan => inferInstanceAs (Decidable (plan = none))
  | .destructor _ => inferInstanceAs (Decidable False)

instance (e : Entry) (c : Client) : Decidable (c.Seeks e) := by
  cases c with
  | descend key since => exact inferInstanceAs (Decidable (e.key = key ∧ e.seqNo.val ≤ since))
  | _ => exact inferInstanceAs (Decidable False)

instance (s : State n) : ∀ e : Event n, Decidable (s.Behind e)
  | .call _ _ => inferInstanceAs (Decidable False)
  | .client i _ _ => inferInstanceAs (Decidable (∃ e ∈ s.flusher.held, (s.clients i).Seeks e))
  | .flusher _ => inferInstanceAs (Decidable False)
  | .destructor _ => inferInstanceAs (Decidable False)

/-- The result is what was last written after some number of writes, all those made before
the call among them. -/
def Answer.Fresh (a : Answer) (log : List Entry) : Prop :=
  ∃ j, a.since ≤ j ∧ j ≤ log.length ∧
    a.result = .ok ((lastEntry a.key (log.take j)).bind Entry.shown)

theorem Answer.Fresh.append {a : Answer} {log : List Entry} (h : a.Fresh log) (es : List Entry) :
    a.Fresh (log ++ es) := by
  obtain ⟨j, hs, hj, hr⟩ := h
  refine ⟨j, hs, hj.trans (by simp), ?_⟩
  rw [List.take_append_of_le_length hj]
  exact hr

/-! ## The invariant -/

namespace Client

/-- Not on the way of `flush()`. -/
def isWriter : Client → Bool
  | .signal true | .notify true | .wait .drain | .block .drain | .blocked .drain | .drain
  | .persist _ => false
  | _ => true

/-- What a `get` under way knows: the writes before its call, and once it is past the write
buffer, that those of its key are not in there. -/
def Knows (c : Client) (len : Nat) (buf : List Entry) : Prop :=
  match c with
  | .lookup _ since => since ≤ len
  | .descend key since => since ≤ len ∧ ∀ e ∈ buf, e.key = key → since < e.seqNo.val
  | _ => True

variable {c : Client} {len len' : Nat} {buf buf' : List Entry}

theorem isWriter_wake (h : c.isWriter = true) : c.wake.isWriter = true := by
  cases c with
  | blocked k => cases k <;> simp_all [wake, isWriter]
  | _ => exact h

theorem Knows.wake (h : c.Knows len buf) : c.wake.Knows len buf := by
  cases c with
  | blocked k => trivial
  | _ => exact h

/-- What comes into the buffer is newer. -/
theorem Knows.mono (h : c.Knows len buf) (hl : len ≤ len')
    (hb : ∀ e ∈ buf', e ∈ buf ∨ len < e.seqNo.val) : c.Knows len' buf' := by
  cases c with
  | lookup k t => exact h.trans hl
  | descend k t =>
    refine ⟨h.1.trans hl, fun e he hk => ?_⟩
    rcases hb e he with he | hlt
    · exact h.2 e he hk
    · exact lt_of_le_of_lt h.1 hlt
  | _ => trivial

end Client

/-- Nobody is in a `flush()`, every `get` under way knows what it has to, and those that
returned were fresh. -/
structure Serving (s : State n) (es ps bs : List Entry) : Prop extends Staged s es ps [] bs where
  writers : ∀ i, (s.clients i).isWriter = true
  knows : ∀ i, (s.clients i).Knows s.log.length s.writeBuf.entries
  fresh : ∀ a ∈ s.answers, a.Fresh s.log

namespace Serving

variable {o : Options} {s t : State n} {es ps bs : List Entry}

theorem start (n : Nat) (sizing : Sizing) : Serving (State.start n sizing) [] [] [] where
  toStaged := .start n sizing
  writers _ := rfl
  knows _ := trivial
  fresh _ ha := nomatch ha

/-- A client goes on. -/
theorem goto (S : Serving s es ps bs) {i : Fin n} {c : Client} (hw : c.isWriter = true)
    (hk : c.Knows s.log.length s.writeBuf.entries) : Serving (s.goto i c) es ps bs where
  toStaged := S.congr rfl rfl rfl rfl rfl
  writers j := by
    by_cases hji : j = i
    · simpa [hji] using hw
    · simpa [hji] using S.writers j
  knows j := by
    by_cases hji : j = i
    · simpa [hji] using hk
    · simpa [hji] using S.knows j
  fresh := S.fresh

/-- The flush thread goes on with what it holds. -/
theorem flusher (S : Serving s es ps bs) {requested inProgress : Bool} {f : Flusher}
    (hf : f.held = s.flusher.held) :
    Serving { s with requested, inProgress, flusher := f } es ps bs :=
  ⟨S.congr rfl rfl rfl hf rfl, S.writers, S.knows, S.fresh⟩

theorem notifyAll (S : Serving s es ps bs) : Serving s.notifyAll es ps bs where
  toStaged := S.congr rfl rfl rfl (Flusher.held_wake _) rfl
  writers j := Client.isWriter_wake (S.writers j)
  knows j := (S.knows j).wake
  fresh := S.fresh

theorem answer (S : Serving s es ps bs) {a : Answer} (ha : a.Fresh s.log) :
    Serving (s.answer a) es ps bs where
  toStaged := S.congr rfl rfl rfl rfl rfl
  writers := S.writers
  knows := S.knows
  fresh b hb := by
    rcases List.mem_append.mp hb with hb | hb
    · exact S.fresh b hb
    · obtain rfl := List.mem_singleton.mp hb
      exact ha

theorem write (S : Serving s es ps bs) (r : Write) (hlen : s.log.length + 1 < 2 ^ 64) :
    ∃ bs', Serving (s.write r) es ps bs' := by
  refine ⟨_, S.toStaged.write r hlen, S.writers, fun i => ?_, fun a ha => ?_⟩
  · refine (S.knows i).mono (by simp) fun e he => ?_
    rcases (List.mem_orderedInsert Entry.le).mp he with rfl | he
    · exact .inr (by rw [S.next hlen]; exact Nat.lt_succ_self _)
    · exact .inl he
  · exact (S.fresh a ha).append _

/-- What is found in the write buffer is the last write of the key. -/
theorem lastEntry_buf (S : Serving s es ps bs) {key : Bytes} {e : Entry}
    (h : s.writeBuf.findKey key = some e) : lastEntry key s.log = some e := by
  obtain ⟨he, hk, hmax⟩ := lookupSorted_eq_some s.writeBuf.sorted h
  have N := S.numbered
  have hlog : e ∈ s.log := by
    rw [S.log]
    exact List.mem_append_right _ ((S.buf e).mp he)
  cases hl : lastEntry key s.log with
  | none => exact absurd hk (lastEntry_eq_none.mp hl e hlog)
  | some f =>
    obtain ⟨hf, hfk, hfmax⟩ := N.lastEntry hl
    refine congrArg some (N.eq_of_seqNo hf hlog (le_antisymm ?_ (hfmax e hlog hk)))
    have hcases := hf
    rw [S.log] at hcases N
    rcases List.mem_append.mp hcases with hf' | hf'
    · exact (N.lt hf' ((S.buf e).mp he)).le
    · exact hmax f ((S.buf f).mpr hf') hfk

/-- **The tree is new enough** for a `get` that is not behind. -/
theorem fresh_tree (S : Serving s es ps bs) {key : Bytes} {since : Nat} (hs : since ≤ s.log.length)
    (hbuf : ∀ e ∈ s.writeBuf.entries, e.key = key → since < e.seqNo.val)
    (hheld : ∀ e ∈ s.flusher.held, e.key = key → since < e.seqNo.val) :
    Answer.Fresh ⟨key, since, .ok ((lastEntry key es).bind Entry.shown)⟩ s.log := by
  have hlog : s.log = es ++ (ps ++ bs) := by rw [S.log, List.append_nil, List.append_assoc]
  have hes : es.length ≤ s.log.length := by
    rw [hlog, List.length_append]
    exact Nat.le_add_right _ _
  refine ⟨max es.length since, le_max_right _ _, max_le hes hs, ?_⟩
  -- of the writes between, none is of the key
  have htake : s.log.take (max es.length since) =
      es ++ (ps ++ bs).take (max es.length since - es.length) := by
    rw [hlog, List.take_append, List.take_of_length_le (le_max_left _ _)]
  have N : Numbered (es ++ (ps ++ bs).take (max es.length since - es.length)) := by
    have N := S.numbered
    rw [← List.take_append_drop (max es.length since) s.log] at N
    exact htake ▸ N.append_left
  have hno : ∀ e ∈ (ps ++ bs).take (max es.length since - es.length), e.key ≠ key := by
    intro e he hk
    have hlt := N.length_lt he
    have hle := N.le_length (List.mem_append_right _ he)
    rw [← htake, List.length_take] at hle
    have hnot : ¬ since < e.seqNo.val := by omega
    rcases List.mem_append.mp (List.mem_of_mem_take he) with he | he
    · exact hnot (hheld e ((S.held e).mpr he) hk)
    · exact hnot (hbuf e ((S.buf e).mpr he) hk)
  rw [htake, lastEntry_append_left hno]

/-- **One step**, after which the splits are still clean. -/
theorem step (S : Serving s es ps bs) {e : Event n} (hp : e.Plain) (hb : ¬ s.Behind e)
    (hs : s.step o e = some t) (hlen : t.log.length < 2 ^ 64) (hC : Clean t.world.rest.splits) :
    ∃ es ps bs, Serving t es ps bs := by
  cases step_moves hs with
  | @call i c h =>
    refine ⟨es, ps, bs, ?_⟩
    cases c with
    | insert k v => exact S.goto rfl trivial
    | remove k => exact S.goto rfl trivial
    | get k => exact S.goto rfl le_rfl
    | flush => exact hp.elim
  | below h _ => exact ⟨es, ps, bs, S.goto rfl trivial⟩
  | atLimit h _ => exact ⟨es, ps, bs, S.goto rfl trivial⟩
  | @pass i k _ _ h _ =>
    have hw := S.writers i
    rw [h] at hw
    cases k with
    | write r => exact ⟨es, ps, bs, S.goto rfl trivial⟩
    | drain => cases hw
  | @hold i k _ _ h _ =>
    have hw := S.writers i
    rw [h] at hw
    exact ⟨es, ps, bs, S.goto (by cases k <;> exact hw) trivial⟩
  | @block i k _ _ h =>
    have hw := S.writers i
    rw [h] at hw
    exact ⟨es, ps, bs, S.goto (by cases k <;> exact hw) trivial⟩
  | @write i r _ _ h =>
    obtain ⟨bs', S'⟩ := S.write r (by simpa using hlen)
    exact ⟨es, ps, bs', S'.goto rfl trivial⟩
  | full h _ => exact ⟨es, ps, bs, S.goto rfl trivial⟩
  | done h _ => exact ⟨es, ps, bs, S.goto rfl trivial⟩
  | @already i b _ _ h _ =>
    have hw := S.writers i
    rw [h] at hw
    cases b with
    | false => exact ⟨es, ps, bs, S.goto rfl trivial⟩
    | true => cases hw
  | @request i b _ _ h _ =>
    have hw := S.writers i
    rw [h] at hw
    cases b with
    | false => exact ⟨es, ps, bs, (S.flusher (f := s.flusher) rfl).goto rfl trivial⟩
    | true => cases hw
  | @notifyNone i b _ h _ _ =>
    have hw := S.writers i
    rw [h] at hw
    cases b with
    | false => exact ⟨es, ps, bs, S.goto rfl trivial⟩
    | true => cases hw
  | @notifyFlusher i b _ h hf =>
    have hw := S.writers i
    rw [h] at hw
    cases b with
    | false => exact ⟨es, ps, bs, (S.flusher (f := .test) (by rw [hf]; rfl)).goto rfl trivial⟩
    | true => cases hw
  | @notifyClient i b j k _ h hj =>
    have hw := S.writers i
    have hwj := S.writers j
    rw [h] at hw
    rw [hj] at hwj
    have S' : Serving (s.goto j (.wait k)) es ps bs := S.goto (by cases k <;> exact hwj) trivial
    cases b with
    | false => exact ⟨es, ps, bs, S'.goto rfl trivial⟩
    | true => cases hw
  | @found i k since e _ _ h he =>
    have hk := S.knows i
    rw [h] at hk
    have hfresh : Answer.Fresh ⟨k, since, .ok (if e.deleted then none else some e.value)⟩ s.log := by
      refine ⟨s.log.length, hk, le_rfl, ?_⟩
      rw [List.take_length, S.lastEntry_buf he]
      rfl
    exact ⟨es, ps, bs, (S.answer hfresh).goto rfl trivial⟩
  | @miss i k since _ _ h he =>
    have hk := S.knows i
    rw [h] at hk
    have hno := (lookupSorted_eq_none s.writeBuf.sorted).mp he
    exact ⟨es, ps, bs, S.goto rfl ⟨hk, fun e he hek => absurd hek (hno e he)⟩⟩
  | @descend i k since _ p h =>
    obtain rfl : p = none := hp
    have hk := S.knows i
    rw [h] at hk
    rw [S.tree.exec_get S.numbered_tree, S.tree.eval_get S.numbered_tree]
    refine ⟨es, ps, bs, (S.answer (S.fresh_tree hk.1 hk.2 fun e he hek => ?_)).goto rfl trivial⟩
    by_contra hle
    exact hb ⟨e, he, by rw [h]; exact ⟨hek, not_lt.mp hle⟩⟩
  | @drain i _ _ h =>
    have hw := S.writers i
    rw [h] at hw
    cases hw
  | @persist i pending _ p h =>
    have hw := S.writers i
    rw [h] at hw
    cases hw
  | flusherWanted h _ => exact ⟨es, ps, bs, S.flusher (by rw [h]; rfl)⟩
  | flusherHold h _ => exact ⟨es, ps, bs, S.flusher (by rw [h]; rfl)⟩
  | flusherBlock h => exact ⟨es, ps, bs, S.flusher (by rw [h]; rfl)⟩
  | flusherExit h _ => exact ⟨es, ps, bs, S.flusher (by rw [h]; rfl)⟩
  | flusherGo h _ => exact ⟨es, ps, bs, S.flusher (by rw [h]; rfl)⟩
  | flusherRaise h => exact ⟨es, ps, bs, S.flusher (by rw [h]; rfl)⟩
  | flusherDrain h =>
    exact ⟨es, bs, [], S.drain h (.inl rfl), S.writers,
      fun i => (S.knows i).mono le_rfl fun _ he => (nomatch he), S.fresh⟩
  | @flusherMerge pending p h =>
    obtain rfl : p = none := hp
    exact ⟨es ++ ps, [], bs, S.merge h hC, S.writers, S.knows, S.fresh⟩
  | flusherClearRequest h => exact ⟨es, ps, bs, S.flusher (by rw [h]; rfl)⟩
  | flusherClearProgress h => exact ⟨es, ps, bs, S.flusher (by rw [h]; rfl)⟩
  | flusherNotify h =>
    refine ⟨es, ps, bs, S.notifyAll.flusher ?_⟩
    rw [notifyAll_flusher, h]
    rfl
  | _ => exact hp.elim

end Serving

/-! ## Runs -/

/-- **`get` is fresh** in every run of fewer than 2^64 writes with clean splits in which no
`get` looks into the tree behind the flush thread. -/
theorem get_fresh (n : Nat) (o : Options) (sizing : Sizing) {s : State n}
    (h : System.Reach (State.step o) (fun s e => e.Plain ∧ ¬ s.Behind e) (State.start n sizing) s)
    (hlen : s.log.length < 2 ^ 64) (hC : Clean s.world.splits) :
    ∀ a ∈ s.answers, a.Fresh s.log := by
  have hinv := h.inv (fun s => s.log.length < 2 ^ 64 → Clean s.world.rest.splits →
      ∃ es ps bs, Serving s es ps bs)
    (fun _ _ => ⟨[], [], [], .start n sizing⟩) fun s e t ih ⟨hp, hb⟩ hs hlen hC => by
      obtain ⟨hle, l, hl⟩ := State.step_grows hs
      obtain ⟨es, ps, bs, S⟩ := ih (lt_of_le_of_lt hle hlen) ((hl ▸ hC).of_append)
      exact S.step hp hb hs hlen hC
  obtain ⟨es, ps, bs, S⟩ := hinv hlen hC
  exact S.fresh

/-- A write that asks for a flush, so many steps of the flush thread, and a `get` of the key. -/
def getBeside (steps : Nat) : List (Event 1) :=
  [.call soleClient (.insert (.byte 1) .empty)] ++ List.replicate 5 (.client soleClient none none) ++
    List.replicate steps (.flusher none) ++
    [.call soleClient (.get (.byte 1))] ++ List.replicate 2 (.client soleClient none none)

/-- The flush thread has merged. -/
theorem get_fresh_merged : ∃ s, System.runOk (State.step ⟨1, 100⟩)
      (fun s e => e.Plain ∧ ¬ s.Behind e) (State.start 1 fun _ => (64, 7)) (getBeside 5) = some s ∧
    s.answers.length = 1 ∧ ∀ a ∈ s.answers, a.Fresh s.log := by
  have hrun : ((System.runOk (State.step ⟨1, 100⟩) (fun s e => e.Plain ∧ ¬ s.Behind e)
      (State.start 1 fun _ => (64, 7)) (getBeside 5)).any fun s =>
        decide (s.answers.length = 1) && decide (s.log.length < 2 ^ 64) &&
          decide (Clean s.world.splits)) = true := by
    decide +kernel
  obtain ⟨s, hs, hp⟩ := (Option.any_eq_true _ _).mp hrun
  simp only [Bool.and_eq_true, decide_eq_true_eq] at hp
  obtain ⟨⟨hone, hlen⟩, hC⟩ := hp
  exact ⟨s, hs, hone, get_fresh 1 ⟨1, 100⟩ _ (System.reach_runOk hs) hlen hC⟩

/-- The flush thread has drained and not merged: the only write, complete before the call,
is not found. -/
theorem get_fresh_behind : ∃ s : State 1, System.Reach (State.step ⟨1, 100⟩) (fun _ e => e.Plain)
    (State.start 1 fun _ => (64, 7)) s ∧ ∃ a ∈ s.answers, ¬ a.Fresh s.log := by
  have hrun : ((System.runOk (State.step ⟨1, 100⟩) (fun _ e => e.Plain)
      (State.start 1 fun _ => (64, 7)) (getBeside 4)).any fun s =>
        decide (s.log.length = 1) && (lastEntry (.byte 1) s.log).any (!·.deleted) &&
          s.answers.any fun a => a.key = .byte 1 && a.since = 1 &&
            a.result.toOption.any (·.isNone)) = true := by
    decide +kernel
  obtain ⟨s, hs, hp⟩ := (Option.any_eq_true _ _).mp hrun
  simp only [Bool.and_eq_true, decide_eq_true_eq, List.any_eq_true] at hp
  obtain ⟨⟨hlen, hlast⟩, a, ha, ⟨hk, hsince⟩, hres⟩ := hp
  refine ⟨s, System.reach_runOk hs, a, ha, fun ⟨j, hj, hle, hr⟩ => ?_⟩
  have hj1 : s.log.take j = s.log := List.take_of_length_le (by omega)
  obtain ⟨e, he, hd⟩ := (Option.any_eq_true _ _).mp hlast
  rw [hr, hj1, hk, he] at hres
  simp only [Bool.not_eq_true'] at hd
  simp [Except.toOption, Entry.shown, hd] at hres

end GravTree
