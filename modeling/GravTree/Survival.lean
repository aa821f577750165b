import GravTree.Crashes
import GravTree.Durability
import GravTree.Recency

/-!
# What a `flush()` leaves behind

When a `flush()` returns, every write is in the node files, but for those that are in the write
buffer or in the hands of other threads. From then on nothing takes them away: not what any thread
does, and not the end of the process, wherever it comes, unless it leaves a node file whose
children the manifest does not know.
-/

namespace GravTree

open State

variable {n : Nat}

/-! ## The files of a world -/

section Image

variable {w u : World} {es : List Entry} {a : Entry}

/-- Unlisted files do not count. -/
theorem Calm.image_eq (C : Calm w u) : u.image u = w.image w := by
  funext x
  rw [World.image, World.image, C.view]
  cases hx : w.view x with
  | none => rfl
  | some k => rw [C.file x (by simp [show (w.cell x).node = some k from hx])]

/-- What the files have is in memory as well. -/
theorem Tidy.image_holds (T : Tidy w (some w.rest.root)) (h : (w.image w).Holds a) :
    w.view.Holds a := by
  obtain ⟨x, k', hx', b, hb, hk, hle⟩ := h
  obtain ⟨k, k₀, hx, hf, rfl⟩ := image_some hx'
  refine ⟨x, k, hx, b, ?_, hk, hle⟩
  obtain ⟨k₁, hf₁, h⟩ := T.filed.file (n := k) hx
  rw [hf] at hf₁
  cases hf₁
  rcases h with rfl | ⟨-, L⟩
  · exact hb
  · exact L.buffer hb

/-- A drain takes nothing out of the files. -/
theorem Drains.image_holds (D : Drains w es u) (T : Tidy w (some w.rest.root))
    (h : (w.image w).Holds a) : (u.image u).Holds a := by
  rcases D.files with rfl | hu
  · rw [image_merged]
    exact h
  · exact hu.image_holds ((D.lead.drained hu.tidy).holds T (.inr (T.image_holds h)))

theorem Drains.tidy (D : Drains w es u) (T : Tidy w (some w.rest.root)) :
    Tidy u (some u.rest.root) :=
  D.files.elim (fun h => T.drained (.inl h)) (·.tidy)

end Image

/-! ## Cut short -/

section Backed

variable {w : World} (T : Tidy w (some w.rest.root)) (es : List Entry)
  (plan : Option (Nat × Stop))

include T

/-- Wherever a cycle ends, the files go back to a drain. -/
theorem Tidy.cycle_backed
    (hA : Attached (Act.exec (catchAll (flushPending es)) ⟨w, plan⟩).rest.splits) :
    ∃ v, Drains w es v ∧ Backed v (Act.exec (catchAll (flushPending es)) ⟨w, plan⟩) ∧
      ∃ l, (Act.exec (catchAll (flushPending es)) ⟨w, plan⟩).rest.splits = l ++ v.rest.splits := by
  obtain ⟨⟨v, hl, h, hs, hcut⟩, -⟩ := T.cycle_halts es plan hA
  exact ⟨v, ⟨hl, h.imp_right .inl⟩, hcut.elim Calm.backed Mid.toBacked, hs⟩

theorem Tidy.persist_backed :
    ∃ v, Drains w es v ∧ Backed v (Act.exec (persistRoot es) ⟨w, plan⟩) ∧
      ∃ l, (Act.exec (persistRoot es) ⟨w, plan⟩).rest.splits = l ++ v.rest.splits := by
  rcases (persistRoot_spec T es).exec plan with ⟨-, hu, hl⟩ | ⟨e, -, hdisk | ⟨hu, hl⟩⟩
  · exact ⟨_, ⟨hl, .inr hu⟩, (Calm.refl _).backed, [], rfl⟩
  · -- not even the root's file is written
    have htrivial : ∀ e ∈ es, (fun _ => True) e := fun _ _ => trivial
    obtain ⟨l, hl⟩ := ((traces_persistRoot htrivial).exec (.self w) plan).log
    refine ⟨w.merged es, ⟨.refl _, .inl rfl⟩, .of_disk ?_, l, ?_⟩
    · rw [hdisk]
      exact (disk_modifyNode ..).symm
    · rw [hl, rest_merged]
  · exact ⟨_, ⟨hl, .inr (.inl hu)⟩, (Calm.refl _).backed, [], rfl⟩

end Backed

/-! ## Steps -/

section Steps

variable {o : Options} {s t : State n} {a : Entry}

/-- A drain leaves a tree that can be searched, and takes nothing out of the files. -/
theorem Recent.drains (R : Recent s) {es fs : List Entry} {v : World}
    (D : Drains s.world es v) (hes : ∀ a ∈ es, s.Taken a) (hC : Clean v.rest.splits)
    (hfs : ∀ a ∈ fs, (s.world.image s.world).Holds a) : Intact s.log fs v := by
  obtain ⟨m, hm⟩ := R.tidy.merged_tree es
  obtain ⟨cs, hs, hF⟩ := D.lead.fair hC
  have S := hm.sound R.tidy.sound
  have O := hm.ordered R.tidy.sound R.ordered
  have V : (s.world.merged es).tree.Layered :=
    hm.layered_above R.tidy.sound R.layered fun a ha y k hy hk b hb hkey =>
      R.above a (hes a ha) y k hy hk b hb hkey
  refine ⟨D.tidy R.tidy, hs.ordered S O hF, hs.layered S O V hF, fun h => ?_, fun a ha =>
    D.image_holds R.tidy (hfs a ha)⟩
  exact (hm.stored.mp (hs.stored S h)).elim R.stored fun he => R.pending _ (.inr (hes _ he))

/-- **A step**, whatever throws in it and wherever the process ends, leaves files that go back to
a tree that can be searched. -/
theorem Recent.intact (R : Recent s) {e : Event n} (hs : s.step o e = some t)
    (hC : Clean t.world.rest.splits) {fs : List Entry}
    (hfs : ∀ a ∈ fs, (s.world.image s.world).Holds a) :
    ∃ v, Intact t.log fs v ∧ Backed v t.world := by
  have hstay : t.world = s.world → s.log ⊆ t.log → ∃ v, Intact t.log fs v ∧ Backed v t.world := by
    intro hw hlog
    refine ⟨s.world, ⟨R.tidy, R.ordered, R.layered, fun h => hlog (R.stored h), hfs⟩, ?_⟩
    rw [hw]
    exact (Calm.refl _).backed
  have hcut : ∀ es : List Entry, (∃ v, Drains s.world es v ∧ Backed v t.world ∧
      ∃ l, t.world.rest.splits = l ++ v.rest.splits) → (∀ a ∈ es, s.Taken a) → t.log = s.log →
      ∃ v, Intact t.log fs v ∧ Backed v t.world := by
    intro es h hes hlog
    obtain ⟨v, D, B, l, hl⟩ := h
    exact ⟨v, hlog ▸ R.drains D hes (hl ▸ hC).of_append hfs, B⟩
  cases step_flows hs with
  | still h _ | found _ h _ | take h _ => exact hstay h.world (h.log ▸ List.Subset.refl _)
  | write r h _ => exact hstay h.world (h.log ▸ List.subset_append_left _ _)
  | descend _ h _ =>
    rw [R.tidy.exec_get] at h
    exact hstay h.world (h.log ▸ List.Subset.refl _)
  | @merge pending plan _ hf h _ =>
    refine hcut pending ?_ (fun a ha => .inl (by rw [hf]; exact ha)) h.log
    have hA := hC.attached
    rw [h.world] at hA ⊢
    exact R.tidy.cycle_backed pending plan hA
  | @persist i pending woken plan _ _ h hheld =>
    refine hcut pending ?_ (fun a ha => (hheld a).mpr (.inl ha)) h.log
    rw [h.world]
    exact R.tidy.persist_backed pending plan
  | @destroy pending plan _ _ h hheld =>
    refine hcut pending ?_ (fun a ha => (hheld a).mpr (.inl ha)) h.log
    rw [h.world, R.tidy.exec_destroyTree]
    exact R.tidy.persist_backed pending plan

/-- **A step** whose file errors are mended takes nothing out of the files. -/
theorem Conserved.image_holds (C : Conserved s) {e : Event n} (hok : s.Mends o e)
    (hs : s.step o e = some t) (hA : Attached t.world.rest.splits)
    (h : (s.world.image s.world).Holds a) : (t.world.image t.world).Holds a := by
  cases step_flows hs with
  | still hw _ | found _ hw _ | take hw _ | write r hw _ => exact hw.world ▸ h
  | descend _ hw _ =>
    rw [C.tidy.exec_get] at hw
    exact hw.world ▸ h
  | @merge pending plan _ _ hw _ =>
    have hu : plan ≠ none → t.world.Listed := hok.listed hs
    rw [hw.world] at hA hu ⊢
    obtain ⟨v, hl, hv, -, hcalm⟩ := C.tidy.cycle_calm pending plan hA hu
    rw [hcalm.image_eq]
    exact Drains.image_holds ⟨hl, hv.imp_right .inl⟩ C.tidy h
  | @persist i pending woken plan _ _ hw _ =>
    obtain rfl : plan = none := hok
    obtain ⟨D, hu⟩ := C.tidy.persist_drained pending
    rw [hw.world]
    exact hu.image_holds (D.holds C.tidy (.inr (C.tidy.image_holds h)))
  | @destroy pending plan _ _ hw _ =>
    obtain rfl : plan = none := hok
    obtain ⟨D, hu⟩ := C.tidy.persist_drained pending
    rw [hw.world, C.tidy.exec_destroyTree]
    exact hu.image_holds (D.holds C.tidy (.inr (C.tidy.image_holds h)))

/-- **A `flush()` returns**: what nobody holds is in the files. -/
theorem Conserved.flushed (C : Conserved s) {e : Event n} (hok : s.Mends o e)
    (hs : s.step o e = some t) (hr : s.FlushReturns e) (C' : Conserved t) (ha : a ∈ t.log)
    (hbuf : a ∉ t.writeBuf.entries) (hheld : ¬ t.Taken a) : (t.world.image t.world).Holds a := by
  have hsettled : Settled t.world := by
    cases step_moves hs with
    | @persist i pending woken plan h =>
      obtain rfl : plan = none := hok
      exact (C.tidy.persist_drained pending).2
    | _ => simp_all [FlushReturns, Client.isPersist]
  exact hsettled.image_holds ((C'.kept a ha).resolve_left fun h => h.elim hbuf hheld)

end Steps

/-! ## Runs -/

/-- What the files hold is found when they are opened. -/
theorem Intact.opens {es fs : List Entry} {v u : World} (I : Intact es fs v) (B : Backed v u)
    (hE : ¬ Exposed u.rest.effects) (sizing : Sizing) :
    ∃ db, Db.openDir sizing u.disk = .ok db ∧
      (∀ key, ∃ r : Option Entry, db.get key = .ok (r.bind Entry.shown) ∧
        ∀ b, r = some b → b ∈ es ∧ b.key = key) ∧
      ∀ a ∈ fs, ∃ b ∈ es, b.key = a.key ∧ a.seqNo ≤ b.seqNo ∧ db.get a.key = .ok b.shown := by
  obtain ⟨db, hopen, hget⟩ := B.opens I.tidy hE I.ordered I.layered sizing
  have hstored : ∀ {b}, (v.image u).Stored b → b ∈ es := fun h =>
    I.stored (B.image_stored I.tidy hE h)
  refine ⟨db, hopen, fun key => ?_, fun a ha => ?_⟩
  · obtain ⟨r, hr, hkey⟩ := hget key
    refine ⟨r, hkey, fun b hb => ?_⟩
    subst hb
    exact ⟨hstored hr.1, hr.2.1⟩
  · obtain ⟨r, hr, hkey⟩ := hget a.key
    obtain ⟨x, k, hx, c, hc, hck, hle⟩ := B.image_holds I.tidy hE (I.filed a ha)
    cases r with
    | none => exact absurd hck (hr c ⟨x, k, hx, hc⟩)
    | some b =>
      obtain ⟨hst, hbk, hmax⟩ := hr
      exact ⟨b, hstored hst, hbk, hle.trans (hmax c ⟨x, k, hx, hc⟩ hck), hkey⟩

/-- **What a `flush()` has written survives** any steps of any threads and the end of the process
in any step, unless that leaves a parent whose children the manifest does not know: the directory
opens, and `get` returns that write or a newer one. -/
theorem flushed_survives (o : Options) (sizing sizing' : Sizing) {dir : Text}
    (hplain : dir.Plain) (hnarrow : dir.Narrow) {s₀ s₁ s t : State n} {e₁ e : Event n}
    (h₀ : System.Reach (State.step o) (fun s e => s.Mends o e ∧ ¬ s.Overtakes e)
      (State.start n sizing) s₀)
    (hok : s₀.Mends o e₁ ∧ ¬ s₀.Overtakes e₁) (hs₁ : s₀.step o e₁ = some s₁)
    (hr : s₀.FlushReturns e₁)
    (h : System.Reach (State.step o) (fun s e => s.Mends o e ∧ ¬ s.Overtakes e) s₁ s)
    (ht : s.step o e = some t) (hE : ¬ Exposed t.world.effects) (hlen : t.log.length < 2 ^ 64)
    (hC : Clean t.world.splits) (hfit : t.world.disk.Fits) :
    ∃ db, Db.openDir sizing' t.world.disk = .ok db ∧
      db.OpenedFrom dir (replay dir t.world.effects) ∧
      (∀ key, ∃ r : Option Entry, db.get key = .ok (r.bind Entry.shown) ∧
        ∀ b, r = some b → b ∈ t.log ∧ b.key = key) ∧
      ∀ a ∈ s₁.log, a ∉ s₁.writeBuf.entries → ¬ s₁.Taken a →
        ∃ b ∈ t.log, b.key = a.key ∧ a.seqNo ≤ b.seqNo ∧ db.get a.key = .ok b.shown := by
  obtain ⟨fs, hfs⟩ : ∃ fs : List Entry, ∀ a, a ∈ fs ↔
      a ∈ s₁.log ∧ a ∉ s₁.writeBuf.entries ∧ ¬ s₁.Taken a := by
    classical
    exact ⟨s₁.log.filter fun a => a ∉ s₁.writeBuf.entries ∧ ¬ s₁.Taken a, by simp⟩
  have F := ((((founded_start n sizing).reach h₀).step hs₁).reach h).step ht
  -- from the return of the `flush()` on, its writes are in the files
  have hinv := h.inv (fun s => s.log.length < 2 ^ 64 → Clean s.world.rest.splits →
      Recent s ∧ ∀ a ∈ fs, (s.world.image s.world).Holds a)
    (fun hlen hC => by
      obtain ⟨hle, l, hl⟩ := State.step_grows hs₁
      have R₀ := Recent.reach sizing h₀ (lt_of_le_of_lt hle hlen) (hl ▸ hC).of_append
      have R₁ := R₀.step hok.1 hok.2 hs₁ hlen hC
      refine ⟨R₁, fun a ha => ?_⟩
      obtain ⟨ha, hbuf, hheld⟩ := (hfs a).mp ha
      exact R₀.toConserved.flushed hok.1 hs₁ hr R₁.toConserved ha hbuf hheld)
    fun s e t ih hok hs hlen hC => by
      obtain ⟨hle, l, hl⟩ := State.step_grows hs
      obtain ⟨R, hR⟩ := ih (lt_of_le_of_lt hle hlen) (hl ▸ hC).of_append
      exact ⟨R.step hok.1 hok.2 hs hlen hC, fun a ha =>
        R.toConserved.image_holds hok.1 hs hC.attached (hR a ha)⟩
  have hC : Clean t.world.rest.splits := hC
  obtain ⟨hle, l, hl⟩ := State.step_grows ht
  obtain ⟨R, hR⟩ := hinv (lt_of_le_of_lt hle hlen) (hl ▸ hC).of_append
  obtain ⟨v, I, B⟩ := R.intact ht hC hR
  obtain ⟨db, hopen, hget, hkept⟩ := I.opens B hE sizing'
  exact ⟨db, hopen, F.openedFrom hopen hplain hnarrow hfit, hget,
    fun a ha hbuf hheld => hkept a ((hfs a).mpr ⟨ha, hbuf, hheld⟩)⟩

/-- Two clients write 2 MB each, a cycle merges both writes, and a `flush()` of the first client is
about to return. -/
def flushing : List (Event 2) :=
  List.flatten [
    .call one (.insert (.byte 10) (.zeros (2 ^ 21))) :: List.replicate 5 (.client one none none),
    .call two (.insert (.byte 20) (.zeros (2 ^ 21))) :: List.replicate 4 (.client two none none),
    .flusher none :: .call one .flush :: List.replicate 3 (.client one none none),
    List.replicate 4 (.flusher none)]

/-- Another write, and another cycle, which is about to split the root. -/
def splittingNext : List (Event 2) :=
  List.flatten [
    List.replicate 3 (.flusher none),
    .call two (.insert (.byte 15) .empty) :: List.replicate 5 (.client two none none),
    List.replicate 4 (.flusher none)]

/-- The process ends when the new leaves and the new root have files, and the manifest does not
list them yet: all that was flushed is there. -/
theorem flushed_survives_splitting : ∃ (s t : State 2) (db : Db), s.log.length = 2 ∧
    t.world.effects.length = 7 ∧ Db.openDir (fun _ => (64, 7)) t.world.disk = .ok db ∧
    db.OpenedFrom ['d'] (replay ['d'] t.world.effects) ∧
    ∀ a ∈ s.log, ∃ b ∈ t.log, b.key = a.key ∧ a.seqNo ≤ b.seqNo ∧ db.get a.key = .ok b.shown := by
  have hrun : ((System.runOk (State.step ⟨1, 2 ^ 30⟩)
      (fun s e => s.Mends ⟨1, 2 ^ 30⟩ e ∧ ¬ s.Overtakes e) (State.start 2 fun _ => (64, 7))
      flushing).any fun s₀ => decide (s₀.FlushReturns (.client one none none)) &&
        (s₀.step ⟨1, 2 ^ 30⟩ (.client one none none)).any fun s₁ =>
          decide (s₁.log.length = 2) && s₁.writeBuf.entries.isEmpty &&
          s₁.flusher.held.isEmpty && s₁.aside.isEmpty &&
          (System.runOk (State.step ⟨1, 2 ^ 30⟩)
            (fun s e => s.Mends ⟨1, 2 ^ 30⟩ e ∧ ¬ s.Overtakes e) s₁ splittingNext).any fun s =>
            (s.step ⟨1, 2 ^ 30⟩ (.flusher (some (3, .crash)))).any fun t =>
              decide (t.world.effects.length = 7) && decide (¬ Exposed t.world.effects) &&
              decide (t.log.length < 2 ^ 64) && decide (Clean t.world.splits) &&
              decide (∀ p ∈ t.world.disk.node.entries, p.2.Slim t.world.sizing)) = true := by
    decide +kernel
  obtain ⟨s₀, hs₀, hp⟩ := (Option.any_eq_true _ _).mp hrun
  rw [Bool.and_eq_true, decide_eq_true_eq] at hp
  obtain ⟨hr, hp⟩ := hp
  obtain ⟨s₁, hs₁, hp⟩ := (Option.any_eq_true _ _).mp hp
  simp only [Bool.and_eq_true, decide_eq_true_eq, List.isEmpty_iff] at hp
  obtain ⟨⟨⟨⟨hlog, hbuf⟩, hheld⟩, haside⟩, hp⟩ := hp
  obtain ⟨s, hs, hp⟩ := (Option.any_eq_true _ _).mp hp
  obtain ⟨t, ht, hp⟩ := (Option.any_eq_true _ _).mp hp
  simp only [Bool.and_eq_true, decide_eq_true_eq] at hp
  obtain ⟨⟨⟨⟨heffects, hE⟩, hlen⟩, hC⟩, hslim⟩ := hp
  have hreach := System.reach_runOk hs
  have F := ((((founded_start 2 _).reach (System.reach_runOk hs₀)).step hs₁).reach hreach).step ht
  have hplain : Text.Plain ['d'] := by decide
  have hok : s₀.Mends ⟨1, 2 ^ 30⟩ (.client one none none) ∧
      ¬ s₀.Overtakes (.client one none none) := ⟨rfl, fun h => h⟩
  obtain ⟨db, hopen, hbytes, -, hkept⟩ := flushed_survives _ _ (fun _ => (64, 7))
    hplain (by decide) (System.reach_runOk hs₀) hok hs₁ hr hreach ht hE hlen hC (F.fits hslim)
  refine ⟨s₁, t, db, hlog, heffects, hopen, hbytes, fun a ha => hkept a ha ?_ ?_⟩
  · rw [hbuf]
    exact List.not_mem_nil
  · rintro (h | h)
    · rw [hheld] at h
      cases h
    · rw [← State.mem_aside, haside] at h
      cases h

end GravTree
