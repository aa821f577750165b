import GravTree.Interleavings

/-!
# Newer above older

A lookup stops at the first node that has the key, so the versions of a key must get older on
the way down. The flush thread moves whatever is in the root further down. If meanwhile a
`flush()` holds an older version that it drained before, that version will land in the root,
above the newer one. This is the only way in which the order can be lost.
-/

namespace GravTree

open Forest State

variable {n : Nat}

/-- The entries in the buffer of the root. -/
def World.rootBuffer (w : World) : List Entry :=
  (w.cache.lookup w.manifest.rootId).elim [] (·.buffer)

/-- The flush thread is about to merge, and may move something down past an older version of its
key that another thread holds. -/
def State.Overtakes (s : State n) : Event n → Prop
  | .flusher _ => ∃ pending, s.flusher = .merge pending ∧ ∃ a, s.Aside a ∧
      ∃ b ∈ s.world.rootBuffer ++ pending, a.key = b.key ∧ a.seqNo ≤ b.seqNo
  | _ => False

/-- What the threads other than the flush thread hold. -/
def State.aside (s : State n) : List Entry :=
  (List.finRange n).flatMap (fun i => (s.clients i).held) ++ s.destructor.held

theorem State.mem_aside {s : State n} {a : Entry} : a ∈ s.aside ↔ s.Aside a := by
  simp [State.aside, State.Aside]

instance (s : State n) : ∀ e : Event n, Decidable (s.Overtakes e)
  | .call _ _ => inferInstanceAs (Decidable False)
  | .client _ _ _ => inferInstanceAs (Decidable False)
  | .flusher _ =>
    match h : s.flusher with
    | .merge pending =>
      decidable_of_iff (∃ a ∈ s.aside, ∃ b ∈ s.world.rootBuffer ++ pending,
          a.key = b.key ∧ a.seqNo ≤ b.seqNo) <| by
        simp only [State.Overtakes, h, State.mem_aside, Flusher.merge.injEq, exists_eq_left']
    | .test | .block | .blocked | .awake | .raise | .drain | .clearRequest | .clearProgress
    | .notify | .exited => .isFalse fun h' => by simp [State.Overtakes, h] at h'
  | .destructor _ => inferInstanceAs (Decidable False)

/-! ## The invariant -/

/-- The tree is searchable and layered, and what is not yet in it is newer than what lies below
the root. -/
structure Recent (s : State n) : Prop extends Conserved s where
  numbered : Numbered s.log
  seq : s.seq = Fin.ofNat _ (s.log.length + 1)
  ordered : s.world.tree.Ordered
  layered : s.world.tree.Layered
  buffered : ∀ a ∈ s.writeBuf.entries, ∀ b, s.Taken b ∨ s.world.view.Stored b → b.seqNo < a.seqNo
  above : ∀ a, s.Taken a → ∀ x m, x ≠ s.world.rest.root → s.world.view x = some m →
    ∀ b ∈ m.buffer, a.key = b.key → b.seqNo < a.seqNo

namespace Recent

variable {o : Options} {s t : State n}

theorem start (n : Nat) (sizing : Sizing) : Recent (State.start n sizing) where
  toConserved := .start n sizing
  numbered := ⟨Nat.two_pow_pos 64, fun h => nomatch h⟩
  seq := rfl
  ordered := (absorbed_start sizing).ordered
  layered := (absorbed_start sizing).layered
  buffered _ h := nomatch h
  above a h := by
    rcases h with h | ⟨_, h⟩ | h <;> cases h

/-- Nothing else matters, answers not even. -/
theorem congr (R : Recent s) (C : Conserved t) {answers : List Answer}
    (h : Shares { s with answers } t) (ht : ∀ a, t.Taken a ↔ s.Taken a) : Recent t where
  toConserved := C
  numbered := h.log ▸ R.numbered
  seq := by
    rw [h.seq, h.log]
    exact R.seq
  ordered := h.world ▸ R.ordered
  layered := h.world ▸ R.layered
  buffered a ha b hb := by
    rw [h.writeBuf] at ha
    rw [ht, h.world] at hb
    exact R.buffered a ha b hb
  above a ha := by
    rw [h.world]
    exact R.above a ((ht a).mp ha)

theorem write (R : Recent s) (r : Write) (hlen : s.log.length + 1 < 2 ^ 64) :
    Recent (s.write r) := by
  obtain ⟨a, hseq, hlog, hbuf⟩ : ∃ a : Entry, a.seqNo = s.seq ∧ (s.write r).log = s.log ++ [a] ∧
      ∀ e, e ∈ (s.write r).writeBuf.entries ↔ e = a ∨ e ∈ s.writeBuf.entries :=
    ⟨_, rfl, rfl, fun _ => List.mem_orderedInsert Entry.le⟩
  refine ⟨R.toConserved.write r, ?_, ?_, R.ordered, R.layered, fun e he b hb => ?_, R.above⟩
  · exact hlog ▸ R.numbered.concat hlen (by rw [hseq, R.seq])
  · rw [write_seq, R.seq, hlog, List.length_append, List.length_singleton]
    apply Fin.ext
    simp [Fin.val_add]
  · rcases (hbuf e).mp he with rfl | he
    · -- the numbers so far are those up to the length of the log
      have hb : b ∈ s.log := hb.elim (fun hb => R.pending b (.inr hb)) R.stored
      have := R.numbered.le_length hb
      rw [Fin.lt_def, hseq, R.seq, Fin.val_ofNat, Nat.mod_eq_of_lt hlen]
      omega
    · exact R.buffered e he b hb

/-- Someone drains the write buffer. -/
theorem take (R : Recent s) (h : Shares { s with writeBuf := {} } t)
    (ht : ∀ a, t.Taken a ↔ a ∈ s.writeBuf.entries ∨ s.Taken a) : Recent t where
  toConserved := R.toConserved.take h ht
  numbered := h.log ▸ R.numbered
  seq := by
    rw [h.seq, h.log]
    exact R.seq
  ordered := h.world ▸ R.ordered
  layered := h.world ▸ R.layered
  buffered a ha := by
    rw [h.writeBuf] at ha
    cases ha
  above a ha x m hx hm b hb hk := by
    rw [h.world] at hx hm
    rcases (ht a).mp ha with ha | ha
    · exact R.buffered a ha b (.inr ⟨x, m, hm, hb⟩)
    · exact R.above a ha x m hx hm b hb hk

/-- The tree holds nothing but what it held and what was merged. -/
theorem stored_merged (R : Recent s) {es : List Entry} {u : World} (D : Drained s.world es u)
    {e : Entry} (h : u.view.Stored e) : s.world.view.Stored e ∨ e ∈ es := by
  obtain ⟨cs, hs, -⟩ := D.steps
  obtain ⟨m, hm⟩ := R.tidy.merged_tree es
  exact hm.stored.mp (hs.stored (hm.sound R.tidy.sound) h)

/-- Someone merges what it holds into the tree, and nothing is moved past an older version that
somebody holds. -/
theorem merge (R : Recent s) {es : List Entry} {u : World} (D : Drained s.world es u)
    (h : Shares { s with world := u } t) (ht : ∀ a, s.Taken a ↔ a ∈ es ∨ t.Taken a)
    (C : Conserved t) (hC : Clean t.world.rest.splits)
    (habove : ∀ a, t.Taken a → ∀ x m, x ≠ u.rest.root → u.view x = some m → ∀ b ∈ m.buffer,
      a.key = b.key → b.seqNo < a.seqNo) : Recent t := by
  obtain ⟨cs, hs, l, hl⟩ := D.steps
  obtain ⟨m, hm⟩ := R.tidy.merged_tree es
  have hF : ∀ c ∈ cs, c.Fair := fun c hc => by
    refine (hC c ?_).1
    rw [h.world, hl]
    exact List.mem_append_right _ (List.mem_append_left _ hc)
  have S := hm.sound R.tidy.sound
  have O := hm.ordered R.tidy.sound R.ordered
  have V : (s.world.merged es).tree.Layered :=
    hm.layered_above R.tidy.sound R.layered fun a ha y k hy hk b hb hkey =>
      R.above a ((ht a).mpr (.inl ha)) y k hy hk b hb hkey
  refine ⟨C, h.log ▸ R.numbered, ?_, ?_, ?_, fun a ha b hb => ?_, ?_⟩
  · rw [h.seq, h.log]
    exact R.seq
  · exact h.world ▸ hs.ordered S O hF
  · exact h.world ▸ hs.layered S O V hF
  · rw [h.writeBuf] at ha
    rw [h.world] at hb
    refine R.buffered a ha b ?_
    rcases hb with hb | hb
    · exact .inl ((ht b).mpr (.inr hb))
    · exact (R.stored_merged D hb).elim .inr fun hb => .inl ((ht b).mpr (.inl hb))
  · rw [h.world]
    exact habove

/-- **One step**, after which the splits are still clean. -/
theorem step (R : Recent s) {e : Event n} (hok : s.Mends o e) (hover : ¬ s.Overtakes e)
    (hs : s.step o e = some t) (hlen : t.log.length < 2 ^ 64) (hC : Clean t.world.rest.splits) :
    Recent t := by
  have C := R.toConserved.step hok hs hC.attached
  cases step_flows hs with
  | still h ht => exact R.congr C h ht
  | write r h ht =>
    refine (R.write r ?_).congr C h ht
    rw [h.log, write_log, List.length_append] at hlen
    exact hlen
  | found ha h ht => exact R.congr C h ht
  | @descend i k since woken plan _ hc h ht =>
    obtain rfl : plan = none := hok
    rw [R.tidy.exec_get] at h
    exact R.congr C h ht
  | take h ht => exact R.take h ht
  | @merge pending plan _ hf h ht =>
    have hA := hC.attached
    have hu : plan ≠ none → t.world.Listed := hok.listed hs
    rw [h.world] at hA hu
    have hheld : ∀ a, s.Taken a ↔ a ∈ pending ∨ t.Taken a := fun a => by
      rw [ht, Taken, hf]
      exact Iff.rfl
    have D := R.tidy.cycle_drained pending plan hA hu
    refine R.merge D h hheld C hC fun a ha x m hx hm b hb hk => ?_
    -- what lies below the root now was there before, or was in the root, or is being merged
    have hside : s.Aside a := (ht a).mp ha
    have hnot : b ∈ s.world.rootBuffer ++ pending → b.seqNo < a.seqNo := fun hb =>
      not_le.mp fun hle => hover ⟨pending, hf, a, hside, b, hb, hk, hle⟩
    rcases R.stored_merged D ⟨x, m, hm, hb⟩ with ⟨y, k, hy, hbk⟩ | hb
    · by_cases hroot : y = s.world.rest.root
      · subst hroot
        have hy : s.world.cache.lookup s.world.manifest.rootId = some k := hy
        refine hnot (List.mem_append_left _ ?_)
        rw [World.rootBuffer, hy]
        exact hbk
      · exact R.above a (.inr hside) y k hroot hy b hbk hk
    · exact hnot (List.mem_append_right _ hb)
  | @persist i pending woken plan _ hc h hheld =>
    obtain rfl : plan = none := hok
    obtain ⟨hroot, hview⟩ := R.tidy.persist_view pending
    refine R.merge (R.tidy.persist_drained pending).1 h hheld C hC fun a ha x m hx hm => ?_
    rw [hroot] at hx
    exact R.above a ((hheld a).mpr (.inr ha)) x m hx ((hview x hx).symm.trans hm)
  | @destroy pending plan _ hd h hheld =>
    obtain rfl : plan = none := hok
    rw [R.tidy.exec_destroyTree] at h
    obtain ⟨hroot, hview⟩ := R.tidy.persist_view pending
    refine R.merge (R.tidy.persist_drained pending).1 h hheld C hC fun a ha x m hx hm => ?_
    rw [hroot] at hx
    exact R.above a ((hheld a).mpr (.inr ha)) x m hx ((hview x hx).symm.trans hm)

/-- **Every state** of an interleaving of fewer than 2^64 writes, with clean splits, in which
nothing is overtaken. -/
theorem reach (sizing : Sizing)
    (h : System.Reach (State.step o) (fun s e => s.Mends o e ∧ ¬ s.Overtakes e)
      (State.start n sizing) s) :
    s.log.length < 2 ^ 64 → Clean s.world.rest.splits → Recent s :=
  h.inv (fun s => s.log.length < 2 ^ 64 → Clean s.world.rest.splits → Recent s)
    (fun _ _ => .start n sizing) fun s e t ih hok hs hlen hC => by
      obtain ⟨hle, l, hl⟩ := State.step_grows hs
      exact (ih (lt_of_le_of_lt hle hlen) (hl ▸ hC).of_append).step hok.1 hok.2 hs hlen hC

end Recent

/-! ## The order of the versions -/

/-- Versions of a key get older on the way down. -/
def World.NewestFirst (w : World) : Prop :=
  ∀ {path x m c e e'}, w.walk path = some x → w.fetch x = some m → e ∈ m.buffer →
    c ∈ m.childIds → w.Below c e' → e.key = e'.key → e'.seqNo < e.seqNo

theorem Tidy.newestFirst {w : World} {lag : Option NodeId} (T : Tidy w lag)
    (V : w.tree.Layered) : w.NewestFirst := by
  intro path x m c e e' hpath hx he hc hbelow hk
  obtain ⟨sub, y, k, hy, hk', he'⟩ := hbelow
  have S := T.sound.shape
  rw [T.fetch] at hx hk'
  rw [T.kids] at hy
  obtain ⟨m', hm', -, hlevel⟩ := S.node (T.walk_row hpath)
  obtain rfl : m = m' := Option.some.inj (hx.symm.trans hm')
  -- the other node is in a lower row
  have hcr : c ∈ w.view.row w.rest.root (path.length + 1) :=
    mem_level_succ.mpr ⟨x, T.walk_row hpath, by rwa [View.kids_some hx]⟩
  obtain ⟨p, hlen, hp⟩ := exists_descend hcr
  have hrow : descend w.view.kids w.rest.root (p ++ sub) = some y := by
    rw [descend_append, hp, Option.bind_some, hy]
  obtain ⟨k', hk'', -, hlevel'⟩ := S.node (descend_mem_level hrow)
  obtain rfl : k = k' := Option.some.inj (hk'.symm.trans hk'')
  rw [List.length_append] at hlevel'
  exact V hx hk' (by omega) e he e' he' hk

variable (o : Options) (sizing : Sizing) {s : State n}

/-- **The tree stays searchable**, with newer versions above older ones. -/
theorem searchable_reach
    (h : System.Reach (State.step o) (fun s e => s.Mends o e ∧ ¬ s.Overtakes e)
      (State.start n sizing) s)
    (hlen : s.log.length < 2 ^ 64) (hC : Clean s.world.splits) :
    SearchOrdered s.world ∧ s.world.NewestFirst := by
  have R : Recent s := .reach sizing h hlen hC
  exact ⟨R.tidy.searchOrdered R.ordered, R.tidy.newestFirst R.layered⟩

/-- Two clients write 2 MB each. The flush thread wakes, but a `flush()` of the first client
drains before it and writes the root after it. Then a write of the second client asks for another
cycle, which splits the root, and the second client reads. -/
def overlapping : List (Event 2) :=
  List.flatten [
    .call one (.insert (.byte 10) (.zeros (2 ^ 21))) :: List.replicate 5 (.client one none none),
    .call two (.insert (.byte 20) (.zeros (2 ^ 21))) :: List.replicate 4 (.client two none none),
    .flusher none :: .call one .flush :: List.replicate 3 (.client one none none),
    List.replicate 4 (.flusher none),
    .client one none none :: List.replicate 3 (.flusher none),
    .call two (.insert (.byte 15) .empty) :: List.replicate 5 (.client two none none),
    List.replicate 5 (.flusher none),
    .call two (.get (.byte 10)) :: List.replicate 2 (.client two none none)]

theorem searchable_reach_overlapping : ∃ s : State 2, s.log.length = 3 ∧ s.world.height = 2 ∧
    SearchOrdered s.world ∧ s.world.NewestFirst := by
  have hrun : ((System.runOk (State.step ⟨1, 2 ^ 30⟩)
      (fun s e => s.Mends ⟨1, 2 ^ 30⟩ e ∧ ¬ s.Overtakes e) (State.start 2 fun _ => (64, 7))
      overlapping).any fun s => decide (s.log.length = 3) && decide (s.world.height = 2) &&
        decide (Clean s.world.splits)) = true := by
    decide +kernel
  obtain ⟨s, hs, hp⟩ := (Option.any_eq_true _ _).mp hrun
  simp only [Bool.and_eq_true, decide_eq_true_eq] at hp
  obtain ⟨⟨hlog, hheight⟩, hC⟩ := hp
  exact ⟨s, hlog, hheight, searchable_reach _ _ (System.reach_runOk hs) (by omega) hC⟩

end GravTree
