import GravTree.Interleavings
import GravTree.Scans

/-!
# Scans beside writers

`range_scan` reads the write buffer in one critical section and the tree in a later one. What
the other threads do in between moves entries down, into nodes that the scan has not read yet:
it can see an entry twice, but it does not miss what was there when it began, unless some
thread had it in its hands.
-/

namespace GravTree

open State

variable {n : Nat} {o : Options} {s t u : State n}

/-! ## What stays -/

/-- What was written stays written, and what the tree holds it goes on to hold. -/
structure Follows (s t : State n) : Prop where
  log : s.log ⊆ t.log
  holds : ∀ a, s.world.view.Holds a → t.world.view.Holds a

theorem Follows.refl (s : State n) : Follows s s := ⟨List.Subset.refl _, fun _ h => h⟩

theorem Follows.trans (h : Follows s t) (h' : Follows t u) : Follows s u :=
  ⟨List.Subset.trans h.log h'.log, fun a ha => h'.holds a (h.holds a ha)⟩

theorem State.step_log {e : Event n} (hs : s.step o e = some t) : s.log ⊆ t.log := by
  intro a ha
  cases step_flows hs with
  | still h _ => exact h.log ▸ ha
  | write r h _ => exact h.log ▸ List.mem_append_left _ ha
  | found _ h _ => exact h.log ▸ ha
  | descend _ h _ => exact h.log ▸ ha
  | take h _ => exact h.log ▸ ha
  | merge _ h _ => exact h.log ▸ ha
  | persist _ h _ => exact h.log ▸ ha
  | destroy _ h _ => exact h.log ▸ ha

theorem Conserved.follows (C : Conserved s) {e : Event n} (hok : s.Mends o e)
    (hs : s.step o e = some t) (hA : Attached t.world.rest.splits) : Follows s t := by
  refine ⟨State.step_log hs, fun a ha => ?_⟩
  rcases C.drained hok hs hA with h | ⟨es, D⟩
  · exact h ▸ ha
  · exact D.holds C.tidy (.inr ha)

theorem Conserved.follows_reach (C : Conserved s)
    (h : System.Reach (State.step o) (State.Mends o) s t) (hA : Attached t.world.rest.splits) :
    Conserved t ∧ Follows s t :=
  h.inv (fun t => Attached t.world.rest.splits → Conserved t ∧ Follows s t)
    (fun _ => ⟨C, .refl s⟩) (fun t e u ih hok hs hA => by
      obtain ⟨-, l, hl⟩ := State.step_grows hs
      obtain ⟨C, F⟩ := ih (hl ▸ hA).of_append
      exact ⟨C.step hok hs hA, F.trans (C.follows hok hs hA)⟩) hA

/-- The splits of a run include those of its beginnings. -/
theorem State.attached_of_reach {ok : State n → Event n → Prop}
    (h : System.Reach (State.step o) ok s t) :
    Attached t.world.rest.splits → Attached s.world.rest.splits :=
  h.inv (fun t => Attached t.world.rest.splits → Attached s.world.rest.splits) id
    fun t e u ih _ hs hA => by
      obtain ⟨-, l, hl⟩ := State.step_grows hs
      exact ih (hl ▸ hA).of_append

/-! ## The scan -/

/-- What `range_scan` is to return that reads the write buffer of `s` and the tree of `t`. -/
structure Sweeps (s t : State n) (first last : Bytes) (es : List Entry) : Prop where
  ascending : es.Pairwise (·.key < ·.key)
  sound : ∀ e ∈ es, e ∈ t.log ∧ e.deleted = false ∧ first ≤ e.key ∧ e.key ≤ last
  /-- What was written before it began, or something newer, is returned or is a tombstone. -/
  complete : ∀ e ∈ s.log, first ≤ e.key → e.key ≤ last → ¬ s.Taken e →
    ∃ e' ∈ t.log, e'.key = e.key ∧ e.seqNo ≤ e'.seqNo ∧ (e' ∈ es ∨ e'.deleted = true)

theorem rangeScanTree_exec {w : World} (hw : w.Loaded) (es : List Entry) (first last : Bytes) :
    Act.exec (rangeScanTree es first last) ⟨w, none⟩ = w := by
  have hkeys : ∀ x ∈ w.cache.keys, w.cache.lookup x ≠ none := fun x hx =>
    Option.isSome_iff_ne_none.mp (AList.lookup_isSome.mpr (AList.mem_keys.mpr hx))
  have hreads : Act.Reads (rangeScanTree es first last) w _ :=
    Act.Runs.world_bind (Act.Reads.bind (scanCache_reads hw first last hkeys) (Act.Runs.pure _ _))
  exact hreads.exec_eq

theorem Conserved.sweeps (C : Conserved s) (C' : Conserved t) (F : Follows s t)
    (first last : Bytes) : ∃ es,
    Act.eval (rangeScanTree s.writeBuf.entries first last) ⟨t.world, none⟩ = .ok es ∧
      Sweeps s t first last es := by
  obtain ⟨es, hes, hasc, hmem⟩ :=
    Db.mem_rangeScan { writeBuf := s.writeBuf, world := t.world } C'.tidy.loaded first last
  -- all that is collected was written
  have hlog : ∀ {e}, e ∈ Db.scanned { writeBuf := s.writeBuf, world := t.world } → e ∈ t.log :=
    fun he => (mem_scanned.mp he).elim (fun he => F.log (C.pending _ (.inl he))) C'.stored
  refine ⟨es, hes, hasc, fun e he => ?_, fun e he hfirst hlast htaken => ?_⟩
  · obtain ⟨hfirst, hlast, hnew⟩ := (hmem e).mp he
    obtain ⟨hscan, -, hlive⟩ := newestLive_mem hnew
    exact ⟨hlog hscan, hlive, hfirst, hlast⟩
  · -- the write buffer of `s` has it, or the tree of `t` has something as new
    obtain ⟨c, hc, hk, hle⟩ : ∃ c, c ∈ Db.scanned { writeBuf := s.writeBuf, world := t.world } ∧
        c.key = e.key ∧ e.seqNo ≤ c.seqNo := by
      rcases C.kept e he with (hbuf | htk) | hholds
      · exact ⟨e, mem_scanned.mpr (.inl hbuf), rfl, le_rfl⟩
      · exact absurd htk htaken
      · obtain ⟨c, hst, hk, hle⟩ := View.holds_iff.mp (F.holds e hholds)
        exact ⟨c, mem_scanned.mpr (.inr hst), hk, hle⟩
    cases hd : c.deleted with
    | true => exact ⟨c, hlog hc, hk, hle, .inr hd⟩
    | false =>
      obtain ⟨e', hnew, hle'⟩ := newestLive_of_mem hc hk hd
      obtain ⟨hc', hk', -⟩ := newestLive_mem hnew
      refine ⟨e', hlog hc', hk', hle.trans hle', .inl ((hmem e').mpr ⟨?_, ?_, ?_⟩)⟩
      · exact hk' ▸ hfirst
      · exact hk' ▸ hlast
      · rw [hk']
        exact hnew

/-- **A scan beside writers** misses nothing that was written before it began and that no thread
had in its hands then, whatever happens between its two critical sections. It returns only what
was written, in the order of the keys, and changes nothing. -/
theorem sweeps_reach (sizing : Sizing)
    (hs : System.Reach (State.step o) (State.Mends o) (State.start n sizing) s)
    (ht : System.Reach (State.step o) (State.Mends o) s t) (hA : Attached t.world.splits)
    (first last : Bytes) :
    Act.exec (rangeScanTree s.writeBuf.entries first last) ⟨t.world, none⟩ = t.world ∧ ∃ es,
      Act.eval (rangeScanTree s.writeBuf.entries first last) ⟨t.world, none⟩ = .ok es ∧
        Sweeps s t first last es := by
  have C : Conserved s := .reach sizing hs (State.attached_of_reach ht hA)
  obtain ⟨C', F⟩ := C.follows_reach ht hA
  exact ⟨rangeScanTree_exec C'.tidy.loaded _ _ _, C.sweeps C' F first last⟩

/-- A scan begins when the first of two writes is in the write buffer, and goes on when both have
been drained and a split was cut short. -/
theorem sweeps_reach_brokenSplit : ∃ s t : State 2, s.log.length = 1 ∧ t.log.length = 2 ∧
    t.writeBuf.entries = [] ∧ t.world.splits.length = 1 ∧ ∀ first last,
      Act.exec (rangeScanTree s.writeBuf.entries first last) ⟨t.world, none⟩ = t.world ∧ ∃ es,
        Act.eval (rangeScanTree s.writeBuf.entries first last) ⟨t.world, none⟩ = .ok es ∧
          Sweeps s t first last es := by
  have hrun : ((System.runOk (State.step ⟨2 ^ 22, 2 ^ 30⟩) (State.Mends ⟨2 ^ 22, 2 ^ 30⟩)
      (State.start 2 fun _ => (64, 7)) (brokenSplit.take 4)).any fun s =>
        decide (s.log.length = 1) &&
          (System.runOk (State.step ⟨2 ^ 22, 2 ^ 30⟩) (State.Mends ⟨2 ^ 22, 2 ^ 30⟩) s
            (brokenSplit.drop 4)).any fun t => decide (t.log.length = 2) &&
              t.writeBuf.entries.isEmpty && decide (t.world.splits.length = 1) &&
                decide (Attached t.world.splits)) = true := by
    decide +kernel
  obtain ⟨s, hs, hp⟩ := (Option.any_eq_true _ _).mp hrun
  obtain ⟨hlog, hp⟩ := (Bool.and_eq_true _ _).mp hp
  obtain ⟨t, ht, hp⟩ := (Option.any_eq_true _ _).mp hp
  simp only [Bool.and_eq_true, decide_eq_true_eq, List.isEmpty_iff] at hp
  obtain ⟨⟨⟨hlog', hbuf⟩, hsplits⟩, hA⟩ := hp
  exact ⟨s, t, of_decide_eq_true hlog, hlog', hbuf, hsplits, fun first last =>
    sweeps_reach _ (System.reach_runOk hs) (System.reach_runOk ht) hA first last⟩

end GravTree
