import GravTree.Absorbed
import GravTree.Opened
import GravTree.Proof.Crash
import Mathlib.Data.List.DropRight

/-!
# Crashes

New children are written to files of their own, and the manifest is renamed into place when
everything else is there. But the parent of a new child is written under the name it has,
over the file that the old manifest still lists. A crash between that rename and the
manifest's leaves a parent whose children `open` does not know, and reads below it throw.

A crash anywhere else loses nothing that `flush()` had written.
-/

namespace GravTree

/-! ## What may be lost -/

def Op.isFlush : Op → Bool
  | .flush => true
  | _ => false

/-- The run up to its last `flush()`. -/
def uptoFlush (ops : List Op) : List Op := ops.rdropWhile fun op => !op.isFlush

theorem uptoFlush_initial (ops : List Op) : uptoFlush ops <+: ops := List.rdropWhile_prefix _ _

theorem uptoFlush_of_flush (ops : List Op) : uptoFlush (ops ++ [.flush]) = ops ++ [.flush] :=
  List.rdropWhile_concat_neg _ _ _ (by simp [Op.isFlush])

theorem uptoFlush_of_not_flush (ops : List Op) {op : Op} (h : op.isFlush = false) :
    uptoFlush (ops ++ [op]) = uptoFlush ops := List.rdropWhile_concat_pos _ _ _ (by simp [h])

/-- The world in which the process ends, if it ends inside a step, at the `k`-th of the file
operations to come. -/
def Db.crash (db : Db) (op : Op) (k : Nat) : World :=
  match op with
  | .insert _ _ | .remove _ => db.world
  | .flush => (db.flushWith (some (k, .crash))).world
  | .cycle => (db.cycleWith (some (k, .crash))).world

/-- `open` succeeds on the directory and finds what is in the bytes of its files, and `get`
returns what the run had last written at some time since its last `flush()`. -/
def World.Recoverable (w : World) (dir : Text) (ops : List Op) : Prop :=
  ∃ db, Db.openDir w.sizing w.disk = .ok db ∧ db.OpenedFrom dir (replay dir w.effects) ∧
    ∀ key, ∃ pre, uptoFlush ops <+: pre ∧ pre <+: ops ∧ db.get key = .ok (lastWrite key pre)

/-! ## Prefixes of what was written -/

theorem written_mono {ops ops' : List Op} (h : ops <+: ops') : written ops <+: written ops' := by
  obtain ⟨rest, rfl⟩ := h
  induction rest using List.reverseRecOn with
  | nil => simp
  | append_singleton rest op ih =>
    rw [← List.append_assoc, written_append]
    exact ih.trans (List.prefix_append ..)

/-- A prefix of what was written was written by a prefix of the run. -/
theorem exists_written_eq {ops ops' : List Op} {es : List Entry} (h : ops <+: ops')
    (hlow : written ops <+: es) (hup : es <+: written ops') :
    ∃ pre, ops <+: pre ∧ pre <+: ops' ∧ written pre = es := by
  obtain ⟨rest, rfl⟩ := h
  induction rest using List.reverseRecOn with
  | nil =>
    rw [List.append_nil] at hup ⊢
    exact ⟨ops, List.prefix_rfl, List.prefix_rfl, hlow.eq_of_length_le hup.length_le⟩
  | append_singleton rest op ih =>
    rw [← List.append_assoc] at hup ⊢
    rw [written_append] at hup
    have hbefore : es <+: written (ops ++ rest) → ∃ pre, ops <+: pre ∧
        pre <+: ops ++ rest ++ [op] ∧ written pre = es := fun h => by
      obtain ⟨pre, hpre, hle, heq⟩ := ih h
      exact ⟨pre, hpre, hle.trans (List.prefix_append ..), heq⟩
    cases hop : op.entry ((written (ops ++ rest)).length + 1) with
    | none =>
      rw [hop, Option.toList_none, List.append_nil] at hup
      exact hbefore hup
    | some a =>
      rw [hop, Option.toList_some, List.prefix_concat_iff] at hup
      rcases hup with rfl | hup
      · refine ⟨ops ++ rest ++ [op], ?_, List.prefix_rfl, ?_⟩
        · rw [List.append_assoc]
          exact List.prefix_append ..
        · rw [written_append, hop, Option.toList_some]
      · exact hbefore hup

namespace Numbered

variable {es fs : List Entry} {key : Bytes} {e : Entry}

theorem of_initial (N : Numbered es) (h : fs <+: es) : Numbered fs := by
  obtain ⟨_, rfl⟩ := h
  exact N.append_left

theorem lastEntry_eq (N : Numbered es) (he : e ∈ es) (hk : e.key = key)
    (hmax : ∀ a ∈ es, a.key = key → a.seqNo ≤ e.seqNo) : GravTree.lastEntry key es = some e := by
  cases hl : GravTree.lastEntry key es with
  | none => exact absurd hk (lastEntry_eq_none.mp hl e he)
  | some a =>
    obtain ⟨ha, hak, hle⟩ := N.lastEntry hl
    exact congrArg some (N.eq_of_seqNo ha he (le_antisymm (hmax a ha hak) (hle e he hk)))

/-- The newest version in nodes that hold the first writes is the last one of some time since
then. -/
theorem newest (N : Numbered es) (hfs : fs <+: es) {v : View} (hstored : ∀ {e}, v.Stored e → e ∈ es)
    (hheld : ∀ e ∈ fs, v.Holds e) {a : Option Entry} (h : v.Newest key a) :
    ∃ es', fs <+: es' ∧ es' <+: es ∧ GravTree.lastEntry key es' = a := by
  cases a with
  | none =>
    refine ⟨fs, List.prefix_rfl, hfs, lastEntry_eq_none.mpr fun e he hk => ?_⟩
    obtain ⟨x, n, hx, e', he', hk', -⟩ := hheld e he
    exact h e' ⟨x, n, hx, he'⟩ (hk'.trans hk)
  | some e =>
    obtain ⟨hst, hk, hmax⟩ := h
    obtain ⟨i, hi⟩ := List.mem_iff_getElem?.mp (hstored hst)
    by_cases hlt : i < fs.length
    · -- it was among the first
      refine ⟨fs, List.prefix_rfl, hfs, (N.of_initial hfs).lastEntry_eq ?_ hk fun b hb hbk => ?_⟩
      · have := List.prefix_iff_getElem?.mp hfs i hlt
        rw [hi] at this
        exact Option.some.inj this ▸ List.getElem_mem hlt
      · obtain ⟨x, n, hx, b', hb', hbk', hle⟩ := hheld b hb
        exact hle.trans (hmax b' ⟨x, n, hx, hb'⟩ (hbk'.trans hbk))
    · -- it was the last one when it was written
      have hpre : es.take (i + 1) <+: es := List.take_prefix ..
      have hlen : (es.take (i + 1)).length = i + 1 :=
        List.length_take_of_le (List.getElem?_eq_some_iff.mp hi).1
      have N' := N.of_initial hpre
      refine ⟨es.take (i + 1), List.prefix_of_prefix_length_le hfs hpre (by omega), hpre,
        N'.lastEntry_eq ?_ hk fun b hb _ => ?_⟩
      · exact List.mem_of_getElem? (i := i) (by rw [List.getElem?_take_of_succ, hi])
      · have := N'.le_length hb
        exact Fin.le_def.mpr (by rw [N.seqNo hi]; omega)

end Numbered

/-! ## What the files have -/

/-- A tidy world with no other entries than `es`. The writes `fs` are in its files. -/
structure Intact (es fs : List Entry) (w : World) : Prop where
  tidy : Tidy w (some w.rest.root)
  ordered : w.tree.Ordered
  layered : w.tree.Layered
  stored : ∀ {e}, w.view.Stored e → e ∈ es
  filed : ∀ e ∈ fs, (w.image w).Holds e

/-- **Where the old files are there** everything in them can be read. -/
theorem Intact.recoverable {ops : List Op} {w u : World}
    (I : Intact (written ops) (written (uptoFlush ops)) w) (hlen : (written ops).length < 2 ^ 64)
    (B : Backed w u) (hE : ¬ Exposed u.rest.effects) {dir : Text}
    (hplain : dir.Plain) (hnarrow : dir.Narrow) (F : u.Founded) (hfit : u.disk.Fits) :
    u.Recoverable dir ops := by
  obtain ⟨db, hopen, hget⟩ := B.opens I.tidy hE I.ordered I.layered u.sizing
  refine ⟨db, hopen, F.openedFrom hopen hplain hnarrow hfit, fun key => ?_⟩
  obtain ⟨a, ha, hkey⟩ := hget key
  obtain ⟨es, hlow, hup, rfl⟩ := (numbered_written hlen).newest
    (written_mono (uptoFlush_initial ops)) (fun h => I.stored (B.image_stored I.tidy hE h))
    (fun e he => B.image_holds I.tidy hE (I.filed e he)) ha
  obtain ⟨pre, hpre, hle, rfl⟩ := exists_written_eq (uptoFlush_initial ops) hlow hup
  exact ⟨pre, hpre, hle, by rw [hkey, lastWrite_eq]⟩

/-- `w` is what a drain of `es` leaves, or what a crash inside it goes back to. -/
structure Drains (w₀ : World) (es : List Entry) (w : World) : Prop where
  lead : LeadsTo (w₀.merged es) w.tree w.rest.splits
  files : w = w₀.merged es ∨ Settled w

theorem Drains.intact {db : Db} {es fs fs' : List Entry} {m : Nat} {w : World}
    (D : Drains db.world db.writeBuf.entries w) (I : Intact es fs db.world) (H : Held es db)
    (R : Ranked es m db) (hC : Clean w.rest.splits) (hsub : fs' ⊆ es)
    (hfs : Settled w ∨ fs' = fs) : Intact es fs' w := by
  obtain ⟨n, hn⟩ := I.tidy.merged_tree db.writeBuf.entries
  obtain ⟨cs, hs, hF⟩ := D.lead.fair hC
  have S := hn.sound I.tidy.sound
  have O := hn.ordered I.tidy.sound I.ordered
  have V : (db.world.merged db.writeBuf.entries).tree.Layered :=
    hn.layered I.tidy.sound I.layered fun e he e' he' _ => R.newer he he'
  -- every write is in the tree
  have hheld : ∀ e ∈ es, w.view.Holds e := fun e he => by
    obtain ⟨e', hst, hk, hle⟩ := hn.holds (H.held e he)
    obtain ⟨x, k, hx, e'', he'', hk', hle'⟩ := hs.holds S hst
    exact ⟨x, k, hx, e'', he'', hk'.trans hk, hle.trans hle'⟩
  have hsettled : Settled w → ∀ e ∈ fs', (w.image w).Holds e := fun hw e he =>
    hw.image_holds (hheld e (hsub he))
  refine ⟨?_, hs.ordered S O hF, hs.layered S O V hF, fun h => ?_, ?_⟩
  · rcases D.files with rfl | hw
    · exact I.tidy.drained (.inl rfl)
    · exact hw.tidy
  · exact (hn.stored.mp (hs.stored S h)).elim I.stored fun he => (R.buf _ he).1
  · rcases hfs with hw | rfl
    · exact hsettled hw
    · rcases D.files with rfl | hw
      · rw [image_merged]
        exact I.filed
      · exact hsettled hw

/-- **A drain** that is not interrupted. -/
theorem Db.step_drains (db : Db) {op : Op} (hop : op = .flush ∨ op = .cycle)
    (T : Tidy db.world (some db.world.rest.root)) (hA : Attached (db.step op).world.rest.splits) :
    Drains db.world db.writeBuf.entries (db.step op).world := by
  rcases hop with rfl | rfl
  · exact ⟨(db.flush_cases T).2, .inr (db.flush_cases T).1⟩
  · obtain ⟨hw, hl⟩ := (db.cycle_cases T).resolve_right (not_not_intro hA)
    exact ⟨hl, hw.imp_right .inl⟩

/-- A crash takes back no call of `split_leaf`. -/
theorem Db.crash_splits (db : Db) (op : Op) (k : Nat) :
    ∃ l, (db.crash op k).rest.splits = l ++ db.world.rest.splits := by
  cases op with
  | insert _ _ => exact ⟨[], rfl⟩
  | remove _ => exact ⟨[], rfl⟩
  | flush => exact ((traces_persistRoot fun _ _ => trivial).exec (.self db.world) _).log
  | cycle => exact ((traces_flushPending (fun _ h => h.elim) fun _ _ => trivial).swallow _ (.self db.world) _).log

/-- **A crash inside a drain** goes back to a world in which the drain has begun. -/
theorem Db.crash_drains (db : Db) {op : Op} (hop : op = .flush ∨ op = .cycle) (k : Nat)
    (T : Tidy db.world (some db.world.rest.root)) (hA : Attached (db.crash op k).rest.splits) :
    ∃ w, Drains db.world db.writeBuf.entries w ∧ Backed w (db.crash op k) ∧
      ∃ l, (db.crash op k).rest.splits = l ++ w.rest.splits := by
  obtain ⟨u, hu⟩ : ∃ u, u = db.crash op k := ⟨_, rfl⟩
  have hself : ∀ {v : World}, Backed v v := (Calm.refl _).backed
  rcases hop with rfl | rfl
  · have hspec := (persistRoot_spec T db.writeBuf.entries).exec (some (k, .crash))
    rw [show Act.exec _ _ = u from hu.symm] at hspec
    rw [← hu]
    rcases hspec with ⟨-, hw, hl⟩ | ⟨e, -, hdisk | ⟨hw, hl⟩⟩
    · exact ⟨u, ⟨hl, .inr hw⟩, hself, [], rfl⟩
    · -- not even the root's file is written
      obtain ⟨l, hl⟩ := db.crash_splits .flush k
      refine ⟨db.world.merged db.writeBuf.entries, ⟨.refl _, .inl rfl⟩, .of_disk ?_, l, ?_⟩
      · rw [hdisk]
        exact (disk_modifyNode ..).symm
      · rw [hu, hl, rest_merged]
    · exact ⟨u, ⟨hl, .inr (.inl hw)⟩, hself, [], rfl⟩
  · have hspec := (flushPending_spec T db.writeBuf.entries).exec (some (k, .crash))
    have hexec : Act.exec (flushPending db.writeBuf.entries) ⟨db.world, some (k, .crash)⟩ = u :=
      (Act.exec_swallow ..).symm.trans hu.symm
    rw [hexec] at hspec
    rw [← hu] at hA ⊢
    rcases hspec with ⟨-, hw, hl⟩ | ⟨e, ⟨-, w, hl, hw, hs, hcalm⟩ | ⟨-, cs, hcs, c, hc, hstale⟩⟩
    · exact ⟨u, ⟨hl, hw.imp_right .inl⟩, hself, [], rfl⟩
    · exact ⟨w, ⟨hl, hw.imp_right .inl⟩, hcalm.elim Calm.backed Mid.toBacked, hs⟩
    · exact absurd hstale (hA c (hcs ▸ List.mem_append_left _ hc))

/-- A crash leaves a directory that opens. -/
theorem World.Founded.crash {db : Db} (F : db.world.Founded) (op : Op) (k : Nat) :
    (db.crash op k).Founded := by
  cases op with
  | insert _ _ => exact F
  | remove _ => exact F
  | flush => exact F.persistRoot _ _
  | cycle =>
    show (Act.exec (catchAll (GravTree.flushPending db.writeBuf.entries))
      ⟨db.world, some (k, .crash)⟩).Founded
    rw [catchAll, Act.exec_swallow]
    exact F.flushPending _ _

/-! ## Runs -/

/-- **Every clean run** of fewer than 2^64 writes keeps in the files what `flush()` wrote. -/
theorem intact_run (sizing : Sizing) (ops : List Op) : (written ops).length < 2 ^ 64 →
    Clean ((Db.start sizing).run ops).world.rest.splits →
      Intact (written ops) (written (uptoFlush ops)) ((Db.start sizing).run ops).world := by
  induction ops using List.reverseRecOn with
  | nil =>
    intro _ _
    have G := absorbed_start sizing
    refine ⟨G.tidy, G.ordered, G.layered, fun ⟨x, n, hx, he⟩ => ?_, fun _ he => nomatch he⟩
    exact (G.stored.node (x := x) hx).entries _ he
  | append_singleton ops op ih =>
    intro hlen hC
    have hprev : (written ops).length < 2 ^ 64 :=
      lt_of_le_of_lt (written_mono (List.prefix_append ..)).length_le hlen
    rw [Db.run_append] at hC ⊢
    obtain ⟨db, hdb⟩ : ∃ db, db = (Db.start sizing).run ops := ⟨_, rfl⟩
    rw [← hdb] at ih hC ⊢
    have hC : Clean (db.step op).world.rest.splits := hC
    obtain ⟨l, hl⟩ := db.step_splits op
    have hclean : Clean db.world.rest.splits := (hl ▸ hC).of_append
    have I := ih hprev hclean
    obtain ⟨m, R⟩ := ranked_run sizing ops hprev
    have H := held_run sizing ops hprev (hdb ▸ hclean)
    rw [← hdb] at R H
    show Intact _ _ (db.step op).world
    cases hop : op.entry ((written ops).length + 1) with
    | some a =>
      obtain ⟨hstep, -⟩ := Db.step_of_entry hop R.seq
      have hno : op.isFlush = false := by cases op <;> first | rfl | cases hop
      rw [hstep, uptoFlush_of_not_flush ops hno, written_append]
      exact ⟨I.tidy, I.ordered, I.layered, fun h => List.mem_append_left _ (I.stored h), I.filed⟩
    | none =>
      have hes : written (ops ++ [op]) = written ops := by
        rw [written_append, hop, Option.toList_none, List.append_nil]
      rw [hes]
      cases op with
      | insert _ _ => cases hop
      | remove _ => cases hop
      | flush =>
        have D := db.step_drains (.inl rfl) I.tidy hC.attached
        rw [uptoFlush_of_flush, hes]
        exact D.intact I H R hC (List.Subset.refl _) (.inl (db.flush_cases I.tidy).1)
      | cycle =>
        have D := db.step_drains (.inr rfl) I.tidy hC.attached
        rw [uptoFlush_of_not_flush ops rfl]
        exact D.intact I H R hC (written_mono (uptoFlush_initial ops)).subset (.inr rfl)

/-- **A crash is recoverable** in every clean run of fewer than 2^64 writes, unless it falls
between the rename of a parent with new children and the next rename of the manifest: wherever
the directory is, if its path has no blank, and whatever was written, if it fits the node files. -/
theorem crash_recoverable (sizing : Sizing) {dir : Text} (hplain : dir.Plain)
    (hnarrow : dir.Narrow) (ops : List Op) (op : Op) (k : Nat)
    (hlen : (written ops).length < 2 ^ 64)
    (hC : Clean (((Db.start sizing).run ops).crash op k).splits)
    (hE : ¬ Exposed (((Db.start sizing).run ops).crash op k).effects)
    (hfit : (((Db.start sizing).run ops).crash op k).disk.Fits) :
    (((Db.start sizing).run ops).crash op k).Recoverable dir ops := by
  have F := (founded_run sizing ops).crash op k
  obtain ⟨db, hdb⟩ : ∃ db, db = (Db.start sizing).run ops := ⟨_, rfl⟩
  rw [← hdb] at hC hE hfit F ⊢
  have hC : Clean (db.crash op k).rest.splits := hC
  obtain ⟨l, hl⟩ := db.crash_splits op k
  have hclean : Clean db.world.rest.splits := (hl ▸ hC).of_append
  have I := intact_run sizing ops hlen (hdb ▸ hclean)
  obtain ⟨m, R⟩ := ranked_run sizing ops hlen
  have H := held_run sizing ops hlen (hdb ▸ hclean)
  rw [← hdb] at I R H
  have hdrain : op = .flush ∨ op = .cycle → (db.crash op k).Recoverable dir ops := by
    intro hop
    obtain ⟨w, D, B, l', hl'⟩ := db.crash_drains hop k I.tidy hC.attached
    have I' := D.intact I H R (hl' ▸ hC).of_append
      (written_mono (uptoFlush_initial ops)).subset (.inr rfl)
    exact I'.recoverable hlen B hE hplain hnarrow F hfit
  cases op with
  | insert _ _ => exact I.recoverable hlen (Calm.refl _).backed hE hplain hnarrow F hfit
  | remove _ => exact I.recoverable hlen (Calm.refl _).backed hE hplain hnarrow F hfit
  | flush => exact hdrain (.inl rfl)
  | cycle => exact hdrain (.inr rfl)

/-- Two leaves below a root, and two more writes that make its buffer overflow in the next
cycle. The first of the two is in the root's file. -/
def overflowing : List Op := round [10, 20] ++
  [.insert (.byte 11) (.zeros (2 ^ 21)), .flush, .insert (.byte 21) (.zeros (2 ^ 21))]

/-- The cycle has written the new leaves, and not yet the root. -/
theorem crash_recoverable_leaves : (((Db.start fun _ => (64, 7)).run overflowing).crash
    .cycle 2).Recoverable ['d'] overflowing := by
  have hslim : ∀ p ∈ (((Db.start fun _ => (64, 7)).run overflowing).crash
      .cycle 2).disk.node.entries, p.2.Slim (((Db.start fun _ => (64, 7)).run overflowing).crash
        .cycle 2).sizing := by
    decide +kernel
  exact crash_recoverable _ (by decide) (by decide) _ _ _ (by decide +kernel) (by decide +kernel)
    (by decide +kernel) (((founded_run _ _).crash _ _).fits hslim)

/-- The root's file names the new leaves already, and the manifest does not: `get` throws. -/
theorem crash_recoverable_root : ¬ ∀ (sizing : Sizing) (ops : List Op) (op : Op) (k : Nat),
    (((Db.start sizing).run ops).crash op k).Recoverable ['d'] ops := by
  intro h
  have hget : (Db.openDir (((Db.start fun _ => (64, 7)).run overflowing).crash .cycle 3).sizing
      (((Db.start fun _ => (64, 7)).run overflowing).crash .cycle 3).disk).toOption.any
        fun db => (db.get (.byte 10)).toOption.isNone := by
    decide +kernel
  obtain ⟨db, hdb, -, hall⟩ := h (fun _ => (64, 7)) overflowing .cycle 3
  obtain ⟨pre, -, -, hkey⟩ := hall (.byte 10)
  rw [hdb] at hget
  simp [Except.toOption, hkey] at hget

end GravTree
