import GravTree.Agreement
import GravTree.Opened
import GravTree.Proof.Reopen
import GravTree.Proof.Staged

/-!
# `flush()` beside the flush thread

`flush()` waits while `flush_in_progress_` is up, but the flush thread raises that flag only
some steps after it has woken. So a `flush()` can pass the wait, find the write buffer
drained already, write the root and return while the flush thread still holds, in its local
vector, what was written before the call. A `flush()` that merges while the flush thread
holds nothing leaves every write on disk.
-/

namespace GravTree

open Forest State

variable {n : Nat}

/-! ## What is on disk -/

section Serves

variable {w : World} {v : View} {root : NodeId}

theorem Serves.fetch (S : Serves w v root) {x : NodeId} {n : SSTNode} (h : v x = some n) :
    w.fetch x = some n := by
  have heval : Act.eval (getNode x) ⟨w, none⟩ = .ok n :=
    Act.Spec.eval_ok ((getNode_serves S h).mono (fun _ _ h => h.1) fun _ _ h => h)
  rw [World.fetch, heval]

/-- Paths of the view can be walked. -/
theorem Serves.descend {h : Nat} (S : Serves w v root) (H : Shape v root h) :
    ∀ {path : List Nat} {x y : NodeId} {n : SSTNode}, v x = some n →
      descend v.kids x path = some y → descend w.kids x path = some y := by
  intro path
  induction path with
  | nil => exact fun _ hd => hd
  | cons i path ih =>
    intro x y n hx hd
    have hkids : w.kids x = v.kids x := by
      rw [World.kids, S.fetch hx, View.kids_some hx]
      rfl
    obtain ⟨c, hc, hd⟩ := Option.bind_eq_some_iff.mp hd
    obtain ⟨m, hm, -, -⟩ := H.child_mem hx (View.kids_some hx ▸ List.mem_of_getElem? hc)
    refine Option.bind_eq_some_iff.mpr ⟨c, hkids ▸ hc, ih hm hd⟩

end Serves

/-- **The writes are on disk**: with all memory gone, `open` succeeds and finds what is in the
bytes of the files, below the root that the manifest names some node file has a version of every
write that is at least as new, and `get` returns the last write of every key. -/
def World.Durable (w : World) (dir : Text) (es : List Entry) : Prop :=
  ∃ db, Db.openDir w.sizing w.disk = .ok db ∧ db.OpenedFrom dir (replay dir w.effects) ∧
    (∀ e ∈ es, ∃ path x n, db.world.walk path = some x ∧ db.world.fetch x = some n ∧
      Covers n.buffer e) ∧
    ∀ key, db.get key = .ok ((lastEntry key es).bind Entry.shown)

theorem Settled.durable {u : World} {es : List Entry} (hu : Settled u) (G : Absorbed es u)
    (N : Numbered es) {dir : Text} (hplain : dir.Plain) (hnarrow : dir.Narrow) (F : u.Founded)
    (hfit : u.disk.Fits) : u.Durable dir es := by
  have S : u.tree.Sound := hu.tidy.sound
  obtain ⟨v, r, n₀, hopen, hr, hid, hl, hk, hb, hv⟩ := hu.opens u.sizing
  refine ⟨{ world := v }, hopen, F.openedFrom hopen hplain hnarrow hfit, fun e he => ?_,
    fun key => ?_⟩
  · obtain ⟨x, n, hx, hcov⟩ := G.held e he
    have H : Shape (Function.update u.view u.rest.root (some n₀.loaded)) u.rest.root
        u.tree.height := S.update_shape hr hid hl hk
    obtain ⟨m, hm, hmb⟩ : ∃ m, Function.update u.view u.rest.root (some n₀.loaded) x = some m ∧
        m.buffer = n.buffer := by
      by_cases hxr : x = u.rest.root
      · subst hxr
        rw [hr] at hx
        cases hx
        exact ⟨n₀.loaded, Function.update_self .., hb⟩
      · exact ⟨n, (Function.update_of_ne hxr _ _).trans hx, rfl⟩
    obtain ⟨path, -, hpath⟩ := exists_descend (H.mem_row hm).1
    refine ⟨path, x, m, ?_, hv.fetch hm, hmb.symm ▸ hcov⟩
    obtain ⟨r', hr', -, -⟩ := H.root_some
    have hroot : v.manifest.rootId = u.rest.root := hv.at_root
    rw [World.walk, hroot]
    exact hv.descend H hr' hpath
  · have hget : n₀.get key = r.get key := by rw [SSTNode.get, SSTNode.get, hb]
    have hans : (r.get key).or (u.tree.view.below key u.tree.height u.tree.root) =
        lastEntry key es := (View.firstVersion_route hr key _).symm.trans (G.answer N key)
    rw [Serves.get_eq S hr hid hl hk hv key, hget, hans]

/-! ## The barrier -/

/-- What the clients and the flush thread do with file operations that succeed. -/
def Event.Steady : Event n → Prop
  | .call _ _ => True
  | .client _ _ plan => plan = none
  | .flusher plan => plan = none
  | .destructor _ => False

namespace Client

/-- Before `flush()` merges and returns. -/
def isPersist : Client → Bool
  | .persist _ => true
  | _ => false

/-- The entries a `flush()` holds. -/
def held : Client → List Entry
  | .persist pending => pending
  | _ => []

theorem held_of_isPersist {c : Client} (h : c.isPersist = false) : c.held = [] := by
  cases c <;> first | rfl | cases h

@[simp] theorem isPersist_signalled (b : Bool) : (signalled b).isPersist = false := by
  cases b <;> rfl

@[simp] theorem isPersist_next (k : Resume) : k.next.isPersist = false := by
  cases k <;> rfl

@[simp] theorem isPersist_wake (c : Client) : c.wake.isPersist = c.isPersist := by
  cases c <;> rfl

@[simp] theorem held_wake (c : Client) : c.wake.held = c.held := by
  cases c <;> rfl

end Client

namespace State

/-- The step is the last one of a `flush()`. -/
def FlushReturns (s : State n) : Event n → Prop
  | .client i _ _ => (s.clients i).isPersist = true
  | _ => False

/-- A `flush()` merges and returns while the flush thread holds entries. -/
def Early (s : State n) (e : Event n) : Prop := s.FlushReturns e ∧ s.flusher.held ≠ []

end State

instance : ∀ e : Event n, Decidable e.Steady
  | .call _ _ => inferInstanceAs (Decidable True)
  | .client _ _ plan => inferInstanceAs (Decidable (plan = none))
  | .flusher plan => inferInstanceAs (Decidable (plan = none))
  | .destructor _ => inferInstanceAs (Decidable False)

instance (s : State n) : ∀ e : Event n, Decidable (s.FlushReturns e)
  | .call _ _ => inferInstanceAs (Decidable False)
  | .client i _ _ => inferInstanceAs (Decidable ((s.clients i).isPersist = true))
  | .flusher _ => inferInstanceAs (Decidable False)
  | .destructor _ => inferInstanceAs (Decidable False)

instance (s : State n) (e : Event n) : Decidable (s.Early e) :=
  decidable_of_iff (s.FlushReturns e ∧ s.flusher.held.isEmpty = false) (by simp [Early])

/-- What the only client holds comes after what the flush thread holds, and meanwhile nothing
is written. -/
structure Barrier (s : State 1) (es ps qs bs : List Entry) : Prop extends Staged s es ps qs bs where
  taken : ∀ e, e ∈ (s.clients 0).held ↔ e ∈ qs
  takenSorted : Sorted (s.clients 0).held
  alone : (s.clients 0).isPersist = true → bs = []

namespace Barrier

variable {o : Options} {s t : State 1} {es ps qs bs : List Entry}

theorem start (sizing : Sizing) : Barrier (State.start 1 sizing) [] [] [] [] where
  toStaged := .start 1 sizing
  taken _ := Iff.rfl
  takenSorted := List.Pairwise.nil
  alone _ := rfl

/-- Outside the end of a `flush()` the client holds nothing. -/
theorem nothing (B : Barrier s es ps qs bs) {i : Fin 1} (h : (s.clients i).isPersist = false) :
    qs = [] := by
  obtain rfl : i = 0 := Subsingleton.elim i 0
  refine List.eq_nil_iff_forall_not_mem.mpr fun e he => ?_
  have := (B.taken e).mpr he
  rw [Client.held_of_isPersist h] at this
  cases this

/-- The client is not at the end of a `flush()`. -/
theorem idle (S : Staged t es ps [] bs) (h : (t.clients 0).isPersist = false) :
    Barrier t es ps [] bs where
  toStaged := S
  taken e := by rw [Client.held_of_isPersist h]
  takenSorted := by
    rw [Client.held_of_isPersist h]
    exact List.Pairwise.nil
  alone h' := by
    rw [h] at h'
    cases h'

/-- The client goes on. -/
theorem goto (B : Barrier s es ps qs bs) {i : Fin 1} {c : Client}
    (hi : (s.clients i).isPersist = false) (hc : c.isPersist = false) :
    Barrier (s.goto i c) es ps [] bs := by
  obtain rfl := B.nothing hi
  refine idle (B.congr rfl rfl rfl rfl rfl) ?_
  obtain rfl : i = 0 := Subsingleton.elim i 0
  simpa using hc

/-- The flush thread goes on with what it holds. -/
theorem flusher (B : Barrier s es ps qs bs) {requested inProgress : Bool} {f : Flusher}
    (hf : f.held = s.flusher.held) :
    Barrier { s with requested, inProgress, flusher := f } es ps qs bs :=
  ⟨B.congr rfl rfl rfl hf rfl, B.taken, B.takenSorted, B.alone⟩

theorem notifyAll (B : Barrier s es ps qs bs) : Barrier s.notifyAll es ps qs bs where
  toStaged := B.congr rfl rfl rfl (Flusher.held_wake _) rfl
  taken := by simpa using B.taken
  takenSorted := by simpa using B.takenSorted
  alone := by simpa using B.alone

/-- The flush thread drains: nothing, if the client holds entries. -/
theorem drain (B : Barrier s es ps qs bs) (h : s.flusher = .drain) :
    Barrier { s with writeBuf := {}, flusher := .merge s.writeBuf.entries } es bs qs [] := by
  refine ⟨B.toStaged.drain h ?_, B.taken, B.takenSorted, fun _ => rfl⟩
  cases hc : (s.clients 0).isPersist with
  | true => exact .inr (B.alone hc)
  | false => exact .inl (B.nothing hc)

/-- A `flush()` drains. -/
theorem take (B : Barrier s es ps qs bs) {i : Fin 1} (h : s.clients i = .drain) :
    Barrier ({ s with writeBuf := {} }.goto i (.persist s.writeBuf.entries)) es ps bs [] := by
  obtain rfl := B.nothing (i := i) (by rw [h]; rfl)
  obtain rfl : i = 0 := Subsingleton.elim i 0
  exact ⟨B.toStaged.take.congr rfl rfl rfl rfl rfl, by simpa [Client.held] using B.buf,
    by simpa [Client.held] using s.writeBuf.sorted, fun _ => rfl⟩

/-- What a `flush()` holds, and in what order it was written. -/
theorem pending (B : Barrier s es ps qs bs) {i : Fin 1} {pending : List Entry}
    (h : s.clients i = .persist pending) :
    (∀ e, e ∈ pending ↔ e ∈ qs) ∧ Sorted pending ∧ bs = [] := by
  obtain rfl : i = 0 := Subsingleton.elim i 0
  have htaken := B.taken
  have hsorted := B.takenSorted
  rw [h] at htaken hsorted
  exact ⟨htaken, hsorted, B.alone (by rw [h]; rfl)⟩

/-- A `flush()` merges and returns, while the flush thread holds nothing. -/
theorem persist (B : Barrier s es ps qs bs) {i : Fin 1} {pending : List Entry}
    (h : s.clients i = .persist pending) (hheld : s.flusher.held = [])
    (hC : Clean (Act.exec (persistRoot pending) ⟨s.world, none⟩).rest.splits) :
    Barrier ({ s with world := Act.exec (persistRoot pending) ⟨s.world, none⟩ }.goto i .idle)
      (es ++ qs) [] [] [] := by
  obtain ⟨hmem, hsorted, rfl⟩ := B.pending h
  obtain rfl : ps = [] := List.eq_nil_iff_forall_not_mem.mpr fun e he => by
    have := (B.held e).mpr he
    rw [hheld] at this
    cases this
  obtain rfl : i = 0 := Subsingleton.elim i 0
  exact idle ((B.toStaged.persist hsorted hmem hC).congr rfl rfl rfl rfl rfl)
    (by simp [Client.isPersist])

/-- **One step**, after which the splits are still clean. -/
theorem step (B : Barrier s es ps qs bs) {e : Event 1} (hp : e.Steady) (hb : ¬ s.Early e)
    (hs : s.step o e = some t) (hlen : t.log.length < 2 ^ 64) (hC : Clean t.world.rest.splits) :
    ∃ es ps qs bs, Barrier t es ps qs bs := by
  cases step_moves hs with
  | @call i c h =>
    have hi : (s.clients i).isPersist = false := by rw [h]; rfl
    cases c <;> exact ⟨es, ps, [], bs, B.goto hi rfl⟩
  | below h _ => exact ⟨es, ps, [], bs, B.goto (by rw [h]; rfl) rfl⟩
  | atLimit h _ => exact ⟨es, ps, [], bs, B.goto (by rw [h]; rfl) rfl⟩
  | pass h _ => exact ⟨es, ps, [], bs, B.goto (by rw [h]; rfl) (by simp)⟩
  | hold h _ => exact ⟨es, ps, [], bs, B.goto (by rw [h]; rfl) rfl⟩
  | block h => exact ⟨es, ps, [], bs, B.goto (by rw [h]; rfl) rfl⟩
  | @write i r _ _ h =>
    have hi : (s.clients i).isPersist = false := by rw [h]; rfl
    obtain rfl := B.nothing hi
    obtain rfl : i = 0 := Subsingleton.elim i 0
    have S := B.toStaged.write r (by simpa using hlen)
    exact ⟨es, ps, [], _, (idle S hi).goto hi rfl⟩
  | full h _ => exact ⟨es, ps, [], bs, B.goto (by rw [h]; rfl) rfl⟩
  | done h _ => exact ⟨es, ps, [], bs, B.goto (by rw [h]; rfl) rfl⟩
  | already h _ => exact ⟨es, ps, [], bs, B.goto (by rw [h]; rfl) (by simp)⟩
  | request h _ =>
    exact ⟨es, ps, [], bs, (B.flusher (f := s.flusher) rfl).goto (by rw [h]; rfl) rfl⟩
  | notifyNone h _ _ => exact ⟨es, ps, [], bs, B.goto (by rw [h]; rfl) (by simp)⟩
  | notifyFlusher h hf =>
    have B' : Barrier { s with flusher := .test } es ps qs bs := B.flusher (by rw [hf]; rfl)
    exact ⟨es, ps, [], bs, B'.goto (by rw [h]; rfl) (by simp)⟩
  | @notifyClient i b j k _ h hj =>
    obtain rfl : i = j := Subsingleton.elim i j
    rw [h] at hj
    cases hj
  | @found i k since e _ _ h _ =>
    have hi : (s.clients i).isPersist = false := by rw [h]; rfl
    have B' : Barrier (s.answer ⟨k, since, .ok (if e.deleted then none else some e.value)⟩)
        es ps qs bs :=
      ⟨B.congr rfl rfl rfl rfl rfl, B.taken, B.takenSorted, B.alone⟩
    exact ⟨es, ps, [], bs, B'.goto hi rfl⟩
  | miss h _ => exact ⟨es, ps, [], bs, B.goto (by rw [h]; rfl) rfl⟩
  | @descend i k since _ p h =>
    obtain rfl : p = none := hp
    have hi : (s.clients i).isPersist = false := by rw [h]; rfl
    rw [B.tree.exec_get B.numbered_tree, B.tree.eval_get B.numbered_tree]
    have B' : Barrier (s.answer ⟨k, since, .ok ((lastEntry k es).bind Entry.shown)⟩) es ps qs bs :=
      ⟨B.congr rfl rfl rfl rfl rfl, B.taken, B.takenSorted, B.alone⟩
    exact ⟨es, ps, [], bs, B'.goto hi rfl⟩
  | drain h => exact ⟨es, ps, bs, [], B.take h⟩
  | @persist i pending _ p h =>
    obtain rfl : p = none := hp
    have hheld : s.flusher.held = [] := by
      by_contra hne
      exact hb ⟨by rw [FlushReturns, h]; rfl, hne⟩
    exact ⟨es ++ qs, [], [], [], B.persist h hheld hC⟩
  | flusherWanted h _ => exact ⟨es, ps, qs, bs, B.flusher (by rw [h]; rfl)⟩
  | flusherHold h _ => exact ⟨es, ps, qs, bs, B.flusher (by rw [h]; rfl)⟩
  | flusherBlock h => exact ⟨es, ps, qs, bs, B.flusher (by rw [h]; rfl)⟩
  | flusherExit h _ => exact ⟨es, ps, qs, bs, B.flusher (by rw [h]; rfl)⟩
  | flusherGo h _ => exact ⟨es, ps, qs, bs, B.flusher (by rw [h]; rfl)⟩
  | flusherRaise h => exact ⟨es, ps, qs, bs, B.flusher (by rw [h]; rfl)⟩
  | flusherDrain h => exact ⟨es, bs, qs, [], B.drain h⟩
  | @flusherMerge pending p h =>
    obtain rfl : p = none := hp
    exact ⟨es ++ ps, [], qs, bs, B.toStaged.merge h hC, B.taken, B.takenSorted, B.alone⟩
  | flusherClearRequest h => exact ⟨es, ps, qs, bs, B.flusher (by rw [h]; rfl)⟩
  | flusherClearProgress h => exact ⟨es, ps, qs, bs, B.flusher (by rw [h]; rfl)⟩
  | flusherNotify h =>
    refine ⟨es, ps, qs, bs, B.notifyAll.flusher ?_⟩
    rw [notifyAll_flusher, h]
    rfl
  | _ => exact hp.elim

/-- **Return of a `flush()`** that was not early. -/
theorem returned (B : Barrier s es ps qs bs) {e : Event 1} (hp : e.Steady) (hb : ¬ s.Early e)
    (hs : s.step o e = some t) (hr : s.FlushReturns e) (hC : Clean t.world.rest.splits)
    {dir : Text} (hplain : dir.Plain) (hnarrow : dir.Narrow) (F : t.world.Founded)
    (hfit : t.world.disk.Fits) : t.world.Durable dir t.log := by
  have hheld : s.flusher.held = [] := by
    by_contra hne
    exact hb ⟨hr, hne⟩
  cases step_moves hs with
  | @persist i pending _ p h =>
    obtain rfl : p = none := hp
    have B' := B.persist h hheld hC
    have hlog := B'.log
    rw [List.append_nil, List.append_nil, List.append_nil] at hlog
    have hu := (Db.flush_cases { writeBuf := ⟨pending, (B.pending h).2.1⟩, world := s.world }
      B.tree.tidy).1
    have G : Absorbed (es ++ qs) (Act.exec (persistRoot pending) ⟨s.world, none⟩) := B'.tree
    have hdur := Settled.durable (u := Act.exec (persistRoot pending) ⟨s.world, none⟩) hu G
      B'.numbered_tree hplain hnarrow F hfit
    rw [hlog]
    exact hdur
  | _ => simp_all [FlushReturns, Client.isPersist]

end Barrier

/-! ## Runs -/

/-- **`flush()` is a barrier** in every run of fewer than 2^64 writes with clean splits in which
no `flush()` returns while the flush thread holds entries, in every directory whose path has no
blank, and for all that fits the node files. -/
theorem flush_durable (o : Options) (sizing : Sizing) {dir : Text} (hplain : dir.Plain)
    (hnarrow : dir.Narrow) {s t : State 1} {e : Event 1}
    (h : System.Reach (State.step o) (fun s e => e.Steady ∧ ¬ s.Early e) (State.start 1 sizing) s)
    (hok : e.Steady ∧ ¬ s.Early e) (hs : s.step o e = some t) (hr : s.FlushReturns e)
    (hlen : t.log.length < 2 ^ 64) (hC : Clean t.world.splits) (hfit : t.world.disk.Fits) :
    t.world.Durable dir t.log := by
  have F := ((founded_start 1 sizing).reach h).step hs
  have hinv := h.inv (fun s => s.log.length < 2 ^ 64 → Clean s.world.rest.splits →
      ∃ es ps qs bs, Barrier s es ps qs bs)
    (fun _ _ => ⟨[], [], [], [], .start sizing⟩) fun s e t ih ⟨hp, hb⟩ hs hlen hC => by
      obtain ⟨hle, l, hl⟩ := State.step_grows hs
      obtain ⟨es, ps, qs, bs, B⟩ := ih (lt_of_le_of_lt hle hlen) ((hl ▸ hC).of_append)
      exact B.step hp hb hs hlen hC
  have hC : Clean t.world.rest.splits := hC
  obtain ⟨hle, l, hl⟩ := State.step_grows hs
  obtain ⟨es, ps, qs, bs, B⟩ := hinv (lt_of_le_of_lt hle hlen) ((hl ▸ hC).of_append)
  exact B.returned hok.1 hok.2 hs hr hC hplain hnarrow F hfit

/-- A write that asks for a flush, which wakes the flush thread; a `flush()` up to its drain, so
many steps of the flush thread, and the drain. -/
def flushBeside (steps : Nat) : List (Event 1) :=
  [.call soleClient (.insert (.byte 1) .empty)] ++ List.replicate 5 (.client soleClient none none) ++
    List.replicate 2 (.flusher none) ++
    [.call soleClient .flush] ++ List.replicate 2 (.client soleClient none none) ++
    List.replicate steps (.flusher none) ++ [.client soleClient none none]

/-- The flush thread has merged. -/
theorem flush_durable_merged : ∃ s t, System.runOk (State.step ⟨1, 100⟩)
      (fun s e => e.Steady ∧ ¬ s.Early e) (State.start 1 fun _ => (64, 7)) (flushBeside 3) = some s ∧
    s.step ⟨1, 100⟩ (.client soleClient none none) = some t ∧ t.log.length = 1 ∧
    t.world.Durable ['d'] t.log := by
  have hrun : ((System.runOk (State.step ⟨1, 100⟩) (fun s e => e.Steady ∧ ¬ s.Early e)
      (State.start 1 fun _ => (64, 7)) (flushBeside 3)).any fun s =>
        decide (s.FlushReturns (.client soleClient none none)) &&
          decide (¬ s.Early (.client soleClient none none)) &&
          (s.step ⟨1, 100⟩ (.client soleClient none none)).any fun t =>
            decide (t.log.length = 1) && decide (Clean t.world.splits) &&
              decide (∀ p ∈ t.world.disk.node.entries, p.2.Slim t.world.sizing)) = true := by
    decide +kernel
  obtain ⟨s, hs, hp⟩ := (Option.any_eq_true _ _).mp hrun
  rw [Bool.and_eq_true, Bool.and_eq_true] at hp
  obtain ⟨⟨hr, hb⟩, hp⟩ := hp
  obtain ⟨t, ht, hp⟩ := (Option.any_eq_true _ _).mp hp
  simp only [Bool.and_eq_true, decide_eq_true_eq] at hr hb hp
  obtain ⟨⟨hlog, hC⟩, hslim⟩ := hp
  have hreach := System.reach_runOk hs
  exact ⟨s, t, hs, ht, hlog, flush_durable (e := .client soleClient none none) ⟨1, 100⟩ _
    (by decide) (by decide) hreach ⟨rfl, hb⟩ ht hr (by omega) hC
    ((((founded_start 1 _).reach hreach).step ht).fits hslim)⟩

/-- The flush thread has drained and not merged: `flush()` returns, and the write is not on
disk. -/
theorem flush_durable_early : ∃ (s t : State 1) (e : Event 1),
    System.Reach (State.step ⟨1, 100⟩) (fun _ e => e.Steady) (State.start 1 fun _ => (64, 7)) s ∧
      e.Steady ∧ s.step ⟨1, 100⟩ e = some t ∧ s.FlushReturns e ∧ ¬ t.world.Durable ['d'] t.log := by
  have hrun : ((System.runOk (State.step ⟨1, 100⟩) (fun _ e => e.Steady)
      (State.start 1 fun _ => (64, 7)) (flushBeside 2)).any fun s =>
        decide (s.FlushReturns (.client soleClient none none)) &&
          (s.step ⟨1, 100⟩ (.client soleClient none none)).any fun t =>
            (lastEntry (.byte 1) t.log).any (!·.deleted) &&
              (Db.openDir t.world.sizing t.world.disk).toOption.any fun db =>
                (db.get (.byte 1)).toOption.any (·.isNone)) = true := by
    decide +kernel
  obtain ⟨s, hs, hp⟩ := (Option.any_eq_true _ _).mp hrun
  rw [Bool.and_eq_true] at hp
  obtain ⟨hr, hp⟩ := hp
  obtain ⟨t, ht, hp⟩ := (Option.any_eq_true _ _).mp hp
  rw [Bool.and_eq_true] at hp
  obtain ⟨hlast, hopen⟩ := hp
  refine ⟨s, t, .client soleClient none none, System.reach_runOk hs, rfl, ht,
    of_decide_eq_true hr, ?_⟩
  rintro ⟨db, hdb, -, -, hget⟩
  obtain ⟨e, he, hd⟩ := (Option.any_eq_true _ _).mp hlast
  rw [hdb, Except.toOption, Option.any_some, hget, he] at hopen
  simp only [Bool.not_eq_true'] at hd
  simp [Except.toOption, Entry.shown, hd] at hopen

end GravTree
