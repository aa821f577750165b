import GravTree.Interleavings
import GravTree.Opened

/-!
# The directory always opens

File operations may throw anywhere, in the flush thread, in `flush()`, in a lookup or in the
destructor, and the process may end before any of them. Much can be lost then. But `open` never
refuses the directory: the manifest that is on disk names a root whose file is there, and every
node it lists can be loaded.
-/

namespace GravTree

open State

variable {n : Nat}

/-- `open` succeeds on the directory, and then `get_node` on everything the manifest lists. -/
def Disk.Opens (disk : Disk) (sizing : Sizing) : Prop :=
  ∃ db, Db.openDir sizing disk = .ok db ∧ ∀ x path, db.world.manifest.nodePath x = some path →
    ∃ m, Act.eval (getNode x) ⟨db.world, none⟩ = .ok m ∧ m.id = x

/-! ## Opening -/

section Open

variable {disk : Disk} {m : Manifest} (sizing : Sizing)

theorem Named.opens {b : NodeId} {w : World} (N : Named b w) : w.disk.Opens sizing := by
  obtain ⟨m, hm, M⟩ := N.stored
  have hid : ∀ {x k}, w.disk.node.lookup x = some k → k.id = x := fun hk => (N.file hk).id
  obtain ⟨r, hr, hv⟩ := M.root
  obtain ⟨-, k, hk⟩ := M.file hr hv
  refine ⟨_, openDir_resolves sizing hm M hk (hid hk), fun x path hx => ?_⟩
  obtain ⟨-, k', -, hk', heval⟩ := getNode_opened sizing M hid hk hx
  exact ⟨_, heval, hk'⟩

end Open

/-! ## Every run -/

/-- **The directory opens** at any moment of any run. What is found in it is in the bytes of the
files, if the path has no blank and what was written fits the node files. -/
theorem opens_reach (o : Options) (sizing sizing' : Sizing) {s : State n}
    (h : System.Reach (State.step o) (fun _ _ => True) (State.start n sizing) s) :
    s.world.disk.Opens sizing' ∧ ∀ db, Db.openDir sizing' s.world.disk = .ok db →
      ∀ dir : Text, dir.Plain → dir.Narrow → s.world.disk.Fits →
        db.OpenedFrom dir (replay dir s.world.effects) := by
  have F := (founded_start n sizing).reach h
  refine ⟨F.footing.named.opens sizing', fun db hdb dir hplain hnarrow hfit => ?_⟩
  exact F.openedFrom hdb hplain hnarrow hfit

/-- The flush thread splits the root, and the file of the new root throws. Then a client reads in
vain, and another write is drained and lost in a `flush()` that throws too. -/
def uprooting : List (Event 2) :=
  List.flatten [
    .call one (.insert (.byte 10) (.zeros (2 ^ 21))) :: List.replicate 3 (.client one none none),
    .call two (.insert (.byte 20) (.zeros (2 ^ 21))) :: List.replicate 5 (.client two none none),
    List.replicate 4 (.flusher none), [.flusher (some (2, .fault))],
    .call one (.get (.byte 10)) :: List.replicate 2 (.client one none none),
    List.replicate 3 (.flusher none),
    .call two (.remove (.byte 20)) :: List.replicate 3 (.client two none none),
    .call two .flush :: List.replicate 4 (.client two none none)]

/-- The tree in memory has no root any more, and the directory opens. -/
theorem opens_reach_uprooting : ∃ (s : State 2) (db : Db), s.log.length = 3 ∧
    s.writeBuf.entries = [] ∧ s.world.manifest.nodePath s.world.manifest.rootId = none ∧
    Db.openDir (fun _ => (64, 7)) s.world.disk = .ok db ∧
    db.OpenedFrom ['d'] (replay ['d'] s.world.effects) := by
  have hrun : ((System.runOk (State.step ⟨2 ^ 22, 2 ^ 30⟩) (fun _ _ => True)
      (State.start 2 fun _ => (64, 7)) uprooting).any fun s =>
        decide (s.log.length = 3) && s.writeBuf.entries.isEmpty &&
          (s.world.manifest.nodePath s.world.manifest.rootId).isNone &&
          decide (∀ p ∈ s.world.disk.node.entries, p.2.Slim s.world.sizing)) = true := by
    decide +kernel
  obtain ⟨s, hs, hp⟩ := (Option.any_eq_true _ _).mp hrun
  simp only [Bool.and_eq_true, decide_eq_true_eq, List.isEmpty_iff, Option.isNone_iff_eq_none] at hp
  obtain ⟨⟨⟨hlog, hbuf⟩, hroot⟩, hslim⟩ := hp
  have hreach := System.reach_runOk hs
  obtain ⟨⟨db, hdb, -⟩, hbytes⟩ := opens_reach _ _ (fun _ => (64, 7)) hreach
  exact ⟨s, db, hlog, hbuf, hroot, hdb, hbytes db hdb _ (by decide) (by decide)
    (((founded_start 2 _).reach hreach).fits hslim)⟩

end GravTree
