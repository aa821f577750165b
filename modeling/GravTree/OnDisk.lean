import Mathlib.Algebra.Order.BigOperators.Group.List
import GravTree.Filters
import GravTree.Openable

/-!
# The directory in bytes

Every model of the directory so far held decoded nodes. Here the changes of the directory are
played on files of bytes, by the functions that publish files. Whatever throws and wherever the
process stops, what is in the files then is decoded to the nodes the model has: `open` and
`get_node` find in the bytes what they find in the model.
-/

namespace GravTree

open Reader State

/-! ## Sizes -/

/-- What was written fits the fields of the formats. -/
structure Encodable (sizing : Sizing) (log : List Entry) : Prop where
  count : log.length < 2 ^ 32
  strings : ∀ e ∈ log, e.key.size < 2 ^ 32 ∧ e.value.size < 2 ^ 32
  total : (log.map Entry.sizeBytes).sum < 2 ^ 62
  filter : ∀ k, 1 ≤ k → k ≤ max log.length 1 →
    (sizing k).1 / 8 + 12 < 2 ^ 32 ∧ (sizing k).2 < 2 ^ 32

section Sizes

variable {sizing : Sizing} {log : List Entry} {n : SSTNode} {b : Nat}

theorem Encodable.marked (E : Encodable sizing log) {k : Bytes} (h : Marked (· ∈ log) k) :
    k.size < 2 ^ 32 := by
  rcases h with rfl | ⟨e, he, rfl⟩
  · decide
  · exact (E.strings e he).1

/-- A buffer in order has no entry twice. -/
theorem SSTNode.Pressed.subperm (hp : n.Pressed sizing) (h : ∀ e ∈ n.buffer, e ∈ log) :
    n.buffer.Subperm log :=
  List.subperm_of_subset (hp.unique.imp fun {a b} hab hne => by
    rw [hne] at hab
    exact lt_irrefl _ hab) h

theorem sum_sizeBytes_le {es : List Entry} (h : es.Subperm log) :
    (es.map Entry.sizeBytes).sum ≤ (log.map Entry.sizeBytes).sum := by
  obtain ⟨es', hperm, hsub⟩ := h
  rw [← (hperm.map _).sum_eq]
  exact List.Sublist.sum_le_sum (hsub.map _) fun _ _ => Nat.zero_le _

/-- The filter that `build_bloom` makes. -/
theorem SSTNode.Pressed.shape (hp : n.Pressed sizing) : ∃ f, n.bloom = some f ∧
    f.serialize.length = (sizing (max n.buffer.length 1)).1 / 8 + 12 ∧
      f.numHashFuncs = (sizing (max n.buffer.length 1)).2 := by
  rw [hp.bloom]
  exact n.shape_buildBloom sizing

/-- **A node that is written fits its file.** -/
theorem SSTNode.Stamped.fits (h : n.Stamped b (· ∈ log)) (hp : n.Pressed sizing)
    (E : Encodable sizing log) (hb : b ≤ 2 ^ 32) (hkids : ∀ c ∈ n.childIds, c < b)
    (hfan : n.childIds.length ≤ maxFanout) : n.Fits := by
  have hsub := hp.subperm h.entries
  have hlen := hsub.length_le
  have hcount := E.count
  have hmin := E.marked h.range.minKey
  have hmax := E.marked h.range.maxKey
  obtain ⟨f, hf, hserial, hhash⟩ := hp.shape
  obtain ⟨hfbytes, hfhash⟩ := E.filter (max n.buffer.length 1) (le_max_right _ _)
    (max_le_max hlen le_rfl)
  have hlt : b < 2 ^ 64 := lt_of_le_of_lt hb (by norm_num)
  refine SSTNode.fits_of ⟨h.id.trans hlt, lt_of_lt_of_le h.level hb,
    fun c hc => (hkids c hc).trans hlt, hfan⟩ hmin hmax (lt_of_le_of_lt hlen hcount)
    (fun e he => E.strings e (h.entries e he)) (fun g hg => ?_)
    (lt_of_le_of_lt (sum_sizeBytes_le hsub) E.total)
  rw [hf] at hg
  cases hg
  rw [hserial, hhash]
  exact ⟨hfbytes, hfhash⟩

end Sizes

/-! ## Every run -/

section Run

variable {n : Nat} {o : Options} {sizing : Sizing} {s t : State n}

/-- All that is in the files was written by a client. Nothing here asks for success: a thread that
is thrown out of an operation leaves it so, and so does one that is thrown out before the next. -/
structure Drawn (sizing : Sizing) (s : State n) : Prop where
  sizing : s.world.rest.sizing = sizing
  pending : ∀ a, a ∈ s.writeBuf.entries ∨ s.Taken a → a ∈ s.log
  stamped : s.world.Stamped (· ∈ s.log)
  source : Sourced (· = maxFanout) (· ∈ s.log) [] s.world

namespace Drawn

theorem start (n : Nat) (sizing : Sizing) : Drawn sizing (State.start n sizing) where
  sizing := rfl
  pending a h := by
    rcases h with h | h | ⟨_, h⟩ | h <;> cases h
  stamped := stamped_start sizing
  source := sourced_start sizing

/-- **Every step**, whatever throws. -/
theorem step (D : Drawn sizing s) {e : Event n} (hs : s.step o e = some t) : Drawn sizing t := by
  have F := step_flows hs
  have hpend := F.pending D.pending
  have hcatch : ∀ (x : M Unit) (plan : Option (Nat × Stop)),
      Act.exec (catchAll x) ⟨s.world, plan⟩ = Act.exec x ⟨s.world, plan⟩ :=
    fun x plan => Act.exec_swallow _ _ _
  -- the tree code runs on what is in the log
  have htree : ∀ {α : Type} {x : M α} {A : α → World → Prop} {B : α → Prop}
      (plan : Option (Nat × Stop)), Stamps (· ∈ s.log) x s.world A →
      Traces (· = maxFanout) (· ∈ s.log) [] x B → t.world = Act.exec x ⟨s.world, plan⟩ →
      t.log = s.log → Drawn sizing t := by
    intro α x A B plan hstamps htraces hw hlog
    have hend := hstamps.exec (fun _ h => h) plan
    refine ⟨?_, hpend, ?_, ?_⟩
    · rw [hw]
      exact hend.sizing.trans D.sizing
    · rw [hw, hlog]
      exact hend.stamped
    · rw [hw, hlog]
      exact htraces.exec D.source plan
  cases F with
  | still h _ | found _ h _ | take h _ =>
    exact ⟨h.world ▸ D.sizing, hpend, h.world ▸ h.log ▸ D.stamped, h.world ▸ h.log ▸ D.source⟩
  | write r h _ =>
    have hmem : ∀ e ∈ s.log, e ∈ (s.write r).log := fun _ he => List.mem_append_left _ he
    exact ⟨h.world ▸ D.sizing, hpend, h.world ▸ h.log ▸ D.stamped.weaken hmem,
      h.world ▸ h.log ▸ D.source.mono hmem⟩
  | @descend i k since woken plan _ _ h _ =>
    exact htree plan (stamps_getFromTree D.stamped k) (traces_getFromTree k) h.world h.log
  | @merge pending plan _ hf h _ =>
    have hes : ∀ e ∈ pending, e ∈ s.log := fun e he =>
      D.pending e (.inr (.inl (by rw [hf]; exact he)))
    exact htree plan (stamps_flushPending D.stamped hes) (traces_flushPending (fun _ h => h.ge) hes)
      (h.world.trans (hcatch _ _)) h.log
  | @persist i pending woken plan _ _ h ht =>
    have hes : ∀ e ∈ pending, e ∈ s.log := fun e he => D.pending e (.inr ((ht e).mpr (.inl he)))
    exact htree plan (stamps_persistRoot D.stamped hes) (traces_persistRoot hes) h.world h.log
  | @destroy pending plan _ _ h ht =>
    have hes : ∀ e ∈ pending, e ∈ s.log := fun e he => D.pending e (.inr ((ht e).mpr (.inl he)))
    exact htree plan (stamps_destroyTree D.stamped hes) (traces_destroyTree hes)
      (h.world.trans (hcatch _ _)) h.log

theorem reach
    (h : System.Reach (State.step o) (fun _ _ => True) (State.start n sizing) s) : Drawn sizing s :=
  h.inv (Drawn sizing) (start n sizing) fun _ _ _ ih _ hs => ih.step hs

end Drawn

/-- **What is opened is what is in the bytes**, at any moment of any run: `open` on the files
finds the manifest it finds in the model, and `get_node` on the files finds the nodes. -/
theorem bytes_reach (o : Options) (sizing sizing' : Sizing) {dir : Text} (hplain : dir.Plain)
    (hnarrow : dir.Narrow)
    (h : System.Reach (State.step o) (fun _ _ => True) (State.start n sizing) s)
    (E : Encodable sizing s.log) (hids : s.world.manifest.nextId ≤ 2 ^ 32) :
    ∃ db l, Db.openDir sizing' s.world.disk = .ok db ∧
      (replay dir s.world.effects).load dir = some l ∧ l.Agrees dir db.world.manifest ∧
      ∀ x path, db.world.manifest.nodePath x = some path → ∃ f,
        (replay dir s.world.effects).loadNode l x = some (.ok f) ∧
          Act.eval (getNode x) ⟨db.world, none⟩ = .ok f.toSSTNode := by
  have D := Drawn.reach h
  have F := (founded_start n sizing).reach h
  have N := F.footing.named
  have hsizing := D.sizing
  have hfit : s.world.disk.Fits := by
    intro x k hk
    obtain ⟨hstamp, hp⟩ := D.stamped.file hk
    rw [hsizing] at hp
    exact hstamp.fits hp E hids (fun c hc => ((N.file hk).kids c hc).1)
      ((D.source.file hk).fanout _ rfl)
  obtain ⟨db, hdb, -⟩ := N.opens sizing'
  obtain ⟨l, hl, A, hnodes⟩ := F.openedFrom hdb hplain hnarrow hfit
  exact ⟨db, l, hdb, hl, A, hnodes⟩

/-- The directory after a split that broke off: three files of nodes, and the manifest of before. -/
theorem bytes_reach_uprooting : ∃ (s : State 2) (db : Db) (l : LoadedManifest),
    s.world.effects.length = 4 ∧
    Db.openDir (fun _ => (64, 7)) s.world.disk = .ok db ∧
    (replay ['d'] s.world.effects).load ['d'] = some l ∧ l.Agrees ['d'] db.world.manifest ∧
    ∀ x path, db.world.manifest.nodePath x = some path → ∃ f,
      (replay ['d'] s.world.effects).loadNode l x = some (.ok f) ∧
        Act.eval (getNode x) ⟨db.world, none⟩ = .ok f.toSSTNode := by
  have hrun : ((System.runOk (State.step ⟨2 ^ 22, 2 ^ 30⟩) (fun _ _ => True)
      (State.start 2 fun _ => (64, 7)) uprooting).any fun s =>
        decide (s.world.effects.length = 4) && decide (s.log.length < 2 ^ 32) &&
          s.log.all (fun e => decide (e.key.size < 2 ^ 32 ∧ e.value.size < 2 ^ 32)) &&
          decide ((s.log.map Entry.sizeBytes).sum < 2 ^ 62) &&
          decide (s.world.manifest.nextId ≤ 2 ^ 32)) = true := by
    decide +kernel
  obtain ⟨s, hs, hp⟩ := (Option.any_eq_true _ _).mp hrun
  simp only [Bool.and_eq_true, decide_eq_true_eq, List.all_eq_true] at hp
  obtain ⟨⟨⟨⟨heffects, hcount⟩, hstrings⟩, htotal⟩, hids⟩ := hp
  have hplain : Text.Plain ['d'] := by decide
  obtain ⟨db, l, hdb⟩ := bytes_reach _ _ (fun _ => (64, 7)) hplain (by decide)
    (System.reach_runOk hs) ⟨hcount, hstrings, htotal, fun _ _ _ => by decide⟩ hids
  exact ⟨s, db, l, heffects, hdb⟩

end Run

end GravTree
