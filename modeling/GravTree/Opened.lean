import GravTree.NodeRoundTrip
import GravTree.Proof.Moves
import GravTree.Proof.Open
import GravTree.Proof.Rooted
import GravTree.Proof.Serve
import GravTree.Proof.Stamped

/-!
# Opening a directory of bytes

`open` loads the manifest and the root's file, and `get_node` loads what else the manifest lists.
The directory of the model holds decoded nodes. Here `load` and `read_file` run on the bytes that
the same changes leave in files, and they find the same, as long as the path of the directory has
no blank and what is in the node files fits their length fields.

All that this needs holds at any moment of any session, whatever throws and wherever the process
stops.
-/

namespace GravTree

open Reader

/-! ## Reading the bytes -/

/-- Every character is one byte. -/
def Text.Narrow (s : Text) : Prop := ∀ c ∈ s, c.toNat < 256

instance (s : Text) : Decidable s.Narrow := List.decidableBAll _ s

/-- The text of the bytes. -/
def Text.ofBytes (bs : List UInt8) : Text := bs.map fun b => Char.ofNat b.toNat

/-- `node_path`, on what `load` has read. -/
def LoadedManifest.nodePath (m : LoadedManifest) (id : NodeId) : Option Text :=
  match m.nodes.lookup id with
  | some r => if r.valid then some r.filePath else none
  | none => none

namespace Files

/-- `Manifest::load`. -/
def load (fs : Files) (dir : Text) : Option LoadedManifest :=
  (fs (manifestPath dir)).map fun bs => loadText (.ofBytes bs)

/-- `load_header` and `load_entries`, as `get_node` calls them. -/
def loadNode (fs : Files) (m : LoadedManifest) (id : NodeId) :
    Option (Except NodeFileError IndexedNode) :=
  (m.nodePath id).bind fun path => (fs path).map fun raw =>
    (readNodeFile ⟨id⟩ raw false).bind (·.loadEntries raw)

end Files

/-- `load` has read this manifest. -/
structure LoadedManifest.Agrees (dir : Text) (l : LoadedManifest) (m : Manifest) : Prop where
  root : l.rootId = m.rootId
  next : l.nextId = m.nextId
  node : ∀ x, l.nodes.lookup x = (m.nodes.lookup x).map (·.loaded dir)

namespace Text

variable {s t : Text}

theorem Narrow.append (hs : s.Narrow) (ht : t.Narrow) : (s ++ t).Narrow := by
  intro c hc
  rcases List.mem_append.mp hc with hc | hc
  · exact hs c hc
  · exact ht c hc

theorem Narrow.cons {c : Char} (hc : c.toNat < 256) (hs : s.Narrow) : Narrow (c :: s) :=
  List.forall_mem_cons.mpr ⟨hc, hs⟩

theorem narrow_ofNat (n : Nat) : (ofNat n).Narrow := by
  intro c hc
  have hdigit := isDigit_of_mem hc
  simp only [Char.isDigit, Bool.and_eq_true, decide_eq_true_eq] at hdigit
  have hle : c.val.toNat ≤ 57 := UInt32.le_iff_toNat_le.mp hdigit.2
  exact lt_of_le_of_lt hle (by decide)

theorem ofBytes_bytes (h : s.Narrow) : ofBytes s.bytes = s := by
  rw [ofBytes, bytes, List.map_map]
  refine (List.map_congr_left fun c hc => ?_).trans (List.map_id s)
  have hc := h c hc
  show Char.ofNat (UInt8.ofNat c.toNat).toNat = c
  rw [UInt8.toNat_ofNat', Nat.mod_eq_of_lt hc, Char.ofNat_toNat]

end Text

theorem FilePath.narrow_text {dir : Text} (h : dir.Narrow) (p : FilePath) : (p.text dir).Narrow :=
  ((h.append (by decide)).append (Text.narrow_ofNat _)).append (by decide)

theorem Manifest.narrow_text {dir : Text} (h : dir.Narrow) (m : Manifest) :
    (m.text dir).Narrow := by
  have hline : ∀ l ∈ m.lines dir, l.Narrow := by
    refine List.forall_mem_cons.mpr ⟨by decide, List.forall_mem_cons.mpr ⟨?_,
      List.forall_mem_cons.mpr ⟨?_, fun l hl => ?_⟩⟩⟩
    · exact .append (by decide) (.cons (by decide) (Text.narrow_ofNat _))
    · exact .append (by decide) (.cons (by decide) (Text.narrow_ofNat _))
    · obtain ⟨r, -, rfl⟩ := List.mem_map.mp hl
      exact .append (by decide) (.cons (by decide) (.append (Text.narrow_ofNat _) (.cons (by decide)
        (.append (Text.narrow_ofNat _) (.cons (by decide) (.append (Text.narrow_ofNat _)
          (.cons (by decide) (FilePath.narrow_text h _))))))))
  intro c hc
  obtain ⟨l, hl, hc⟩ := List.mem_flatMap.mp hc
  exact Text.Narrow.append (hline l hl) (by decide) c hc

theorem LoadedManifest.Agrees.nodePath {dir : Text} {l : LoadedManifest} {m : Manifest}
    (A : l.Agrees dir m) (x : NodeId) : l.nodePath x = (m.nodePath x).map (·.text dir) := by
  rw [LoadedManifest.nodePath, Manifest.nodePath, A.node]
  cases m.nodes.lookup x with
  | none => rfl
  | some r =>
    by_cases hv : r.valid = true <;> simp [NodeMeta.loaded, hv]

/-- The manifest in the file is the manifest. -/
theorem Encodes.load {dir : Text} {d : Disk} {fs : Files} {m : Manifest} (E : Encodes dir d fs)
    (hm : d.manifest = some m) (K : m.Keyed) (hplain : dir.Plain) (hnarrow : dir.Narrow) :
    ∃ l, fs.load dir = some l ∧ l.Agrees dir m.load := by
  obtain ⟨hroot, hnode, hnext⟩ := Manifest.loadText_load hplain K
  refine ⟨loadText (m.text dir), ?_, hroot, hnext, hnode⟩
  rw [Files.load, E.manifest, hm, Option.map_some, Option.map_some,
    Text.ofBytes_bytes (m.narrow_text hnarrow)]

/-- A node in a file is the node. -/
theorem Encodes.loadNode {dir : Text} {d : Disk} {fs : Files} {m : Manifest} {l : LoadedManifest}
    (E : Encodes dir d fs) (A : l.Agrees dir m) {x : NodeId} (hx : m.nodePath x = some ⟨x⟩)
    {k : SSTNode} (hk : d.node.lookup x = some k) (h : k.Fits) :
    ∃ f, fs.loadNode l x = some (.ok f) ∧
      f.toSSTNode = { k with filePath := ⟨x⟩, entriesLoaded := true } := by
  obtain ⟨f, -, R, g, hg, -, -, hf⟩ := fileBytes_readsBack k h ⟨x⟩
  refine ⟨f, ?_, R.node⟩
  rw [Files.loadNode, A.nodePath, hx, Option.map_some, Option.bind_some, E.node, hk,
    Option.map_some, Option.map_some, hg]
  exact congrArg some hf

/-! ## Opening -/

/-- What is in the node files fits the length fields of the format. -/
def Disk.Fits (d : Disk) : Prop := ∀ {x n}, d.node.lookup x = some n → n.Fits

/-- Bounds on a written node that can be computed, and from which `Fits` follows. -/
def SSTNode.Slim (sizing : Sizing) (n : SSTNode) : Prop :=
  (n.id < 2 ^ 64 ∧ n.level < 2 ^ 32 ∧ (∀ c ∈ n.childIds, c < 2 ^ 64) ∧
    n.childIds.length ≤ maxFanout) ∧
  n.keyRange.minKey.size < 2 ^ 32 ∧ n.keyRange.maxKey.size < 2 ^ 32 ∧ n.buffer.length < 2 ^ 32 ∧
  (∀ e ∈ n.buffer, e.key.size < 2 ^ 32 ∧ e.value.size < 2 ^ 32) ∧
  (sizing (max n.buffer.length 1)).1 / 8 + 12 < 2 ^ 32 ∧
  (sizing (max n.buffer.length 1)).2 < 2 ^ 32 ∧ (n.buffer.map Entry.sizeBytes).sum < 2 ^ 62

instance (sizing : Sizing) (n : SSTNode) : Decidable (n.Slim sizing) :=
  inferInstanceAs (Decidable (_ ∧ _))

/-- The tree is what these files hold: `load` finds its manifest there, and `get_node` the nodes
that are listed. -/
def Db.OpenedFrom (db : Db) (dir : Text) (fs : Files) : Prop :=
  ∃ l, fs.load dir = some l ∧ l.Agrees dir db.world.manifest ∧
    ∀ x path, db.world.manifest.nodePath x = some path → ∃ f,
      fs.loadNode l x = some (.ok f) ∧ Act.eval (getNode x) ⟨db.world, none⟩ = .ok f.toSSTNode

section Open

variable {disk : Disk} {m : Manifest} (sizing : Sizing)

/-- The root is read from its file. -/
theorem openDir_resolves (hm : disk.manifest = some m) (M : m.Resolves disk.node) {k : SSTNode}
    (hk : disk.node.lookup m.rootId = some k) (hid : k.id = m.rootId) :
    Db.openDir sizing disk = .ok {
      world := (World.mk ⟨∅, m.load, disk⟩ sizing [] []).setNode m.rootId
        { k with filePath := ⟨m.rootId⟩, entriesLoaded := true } } := by
  obtain ⟨w, hw⟩ : ∃ w : World, w = { sizing, disk, manifest := m.load } := ⟨_, rfl⟩
  have hroot : w.manifest.rootId = m.rootId := by
    rw [hw]
    rfl
  have hpath : w.manifest.nodePath m.rootId = some ⟨m.rootId⟩ := by
    obtain ⟨r, hr, hv⟩ := M.root
    rw [hw]
    exact Manifest.nodePath_some.mpr ⟨r, hr, hv, (M.file hr hv).1⟩
  have hdisk : w.disk.node.lookup m.rootId = some k := by
    rw [hw]
    exact hk
  have hload : Act.Runs openTree { sizing, disk } () (w.setNode m.rootId
      { k with filePath := ⟨m.rootId⟩, entriesLoaded := true }) fun _ => True := by
    refine Act.Runs.update_bind ?_
    rw [show ({ sizing, disk } : World).disk.manifest = some m from hm, ← hw]
    refine Act.Runs.world_bind ?_
    rw [hroot, if_pos (show m.rootId ≠ invalidNodeId from M.pos.ne')]
    refine Act.Runs.world_bind ?_
    rw [hpath]
    refine Act.Runs.bind (@readFile_runs w ⟨m.rootId⟩ k hdisk false)
      (Act.Runs.bind (loadEntries_runs hdisk) ?_)
    show Act.Runs (GravTree.setNode k.id _) w () _ _
    rw [hid]
    exact Act.Runs.update _ _
  rw [Db.openDir, hload.ok_eq, hw]

/-- Every node that is listed is loaded then. -/
theorem getNode_opened (M : m.Resolves disk.node) (hid : ∀ {x k}, disk.node.lookup x = some k →
    k.id = x) {r : SSTNode} (hr : disk.node.lookup m.rootId = some r) {x : NodeId} {path : FilePath}
    (hx : m.load.nodePath x = some path) : path = ⟨x⟩ ∧ ∃ k, disk.node.lookup x = some k ∧
      k.id = x ∧ Act.eval (getNode x) ⟨(World.mk ⟨∅, m.load, disk⟩ sizing [] []).setNode m.rootId
        { r with filePath := ⟨m.rootId⟩, entriesLoaded := true }, none⟩ =
          .ok { k with filePath := ⟨x⟩, entriesLoaded := true } := by
  obtain ⟨q, hq, hqv, hqp⟩ := Manifest.nodePath_some.mp hx
  obtain ⟨hpath, k, hk⟩ := M.file (x := x) hq hqv
  obtain rfl : path = ⟨x⟩ := hqp ▸ hpath
  refine ⟨rfl, k, hk, hid hk, ?_⟩
  by_cases hroot : x = m.rootId
  · subst hroot
    obtain rfl : r = k := Option.some.inj (hr.symm.trans hk)
    refine (getNode_reads ?_).eval_eq
    rw [World.cell_setNode, if_pos rfl]
  · refine (getNode_loads ?_ hx hk).eval_eq
    rw [World.cache_setNode, if_neg hroot]
    rfl

end Open

theorem Footing.named {w : World} (F : Footing w) : Named w.rest.next w :=
  F.elim (·.named) (·.named)

/-- What every session keeps, whatever throws. -/
structure World.Founded (w : World) : Prop where
  footing : Footing w
  stamped : w.Stamped fun _ => True

namespace World.Founded

variable {w : World} (F : w.Founded)

include F

/-- **What is opened is what is in the bytes.** -/
theorem openedFrom {sizing : Sizing} {db : Db} {dir : Text} (h : Db.openDir sizing w.disk = .ok db)
    (hplain : dir.Plain) (hnarrow : dir.Narrow) (hfit : w.disk.Fits) :
    db.OpenedFrom dir (replay dir w.effects) := by
  have N := F.footing.named
  obtain ⟨m, hm, M⟩ := N.stored
  have hid : ∀ {x k}, w.disk.node.lookup x = some k → k.id = x := fun hk => (N.file hk).id
  obtain ⟨r, hr, hv⟩ := M.root
  obtain ⟨-, k, hk⟩ := M.file hr hv
  have henc := F.stamped.played dir
  obtain ⟨l, hl, A⟩ := henc.load hm (F.stamped.stored hm).1 hplain hnarrow
  obtain rfl := Except.ok.inj ((openDir_resolves sizing hm M hk (hid hk)).symm.trans h)
  refine ⟨l, hl, A, fun x path hx => ?_⟩
  obtain ⟨hpath, k', hk', -, heval⟩ := getNode_opened sizing M hid hk hx
  obtain ⟨f, hf, hnode⟩ := henc.loadNode A (hpath ▸ hx) hk' (hfit hk')
  exact ⟨f, hf, hnode ▸ heval⟩

/-- The bounds suffice, since a written filter has the size the library gave it. -/
theorem fits (h : ∀ p ∈ w.disk.node.entries, p.2.Slim w.sizing) : w.disk.Fits := by
  intro x n hn
  obtain ⟨ht, hmin, hmax, hcount, hentries, hbytes, hhash, htotal⟩ :=
    h ⟨x, n⟩ (AList.mem_lookup_iff.mp hn)
  obtain ⟨f, hf, hserial, hnum⟩ := n.shape_buildBloom w.sizing
  have hbloom : n.bloom = some f := (F.stamped.file (x := x) hn).2.bloom.trans hf
  refine SSTNode.fits_of ⟨ht.1, ht.2.1, ht.2.2.1, ht.2.2.2⟩ hmin hmax hcount hentries
    (fun g hg => ?_) htotal
  obtain rfl : f = g := Option.some.inj (hbloom.symm.trans hg)
  rw [hserial, hnum]
  exact ⟨hbytes, hhash⟩

/-! ## Sessions -/

theorem getFromTree (key : Bytes) (plan : Option (Nat × Stop)) :
    (Act.exec (getFromTree key) ⟨w, plan⟩).Founded := by
  refine ⟨F.footing.exec (fun H => ?_) (·.getFromTree_fails key) plan,
    ((stamps_getFromTree F.stamped key).exec (fun _ h => h) plan).stamped⟩
  exact (H.proceeds (writes_getFromTree H.named key)).mono (fun _ h => h) (fun _ h => h)
    fun _ _ _ _ => trivial

theorem flushPending (es : List Entry) (plan : Option (Nat × Stop)) :
    (Act.exec (flushPending es) ⟨w, plan⟩).Founded :=
  ⟨F.footing.exec (proceeds_flushPending · es) (·.flushPending_fails es) plan,
    ((stamps_flushPending F.stamped fun _ _ => trivial).exec (fun _ h => h) plan).stamped⟩

theorem persistRoot (es : List Entry) (plan : Option (Nat × Stop)) :
    (Act.exec (persistRoot es) ⟨w, plan⟩).Founded :=
  ⟨F.footing.exec (proceeds_persistRoot · es) (·.persistRoot_fails es) plan,
    ((stamps_persistRoot F.stamped fun _ _ => trivial).exec (fun _ h => h) plan).stamped⟩

theorem destroyTree (es : List Entry) (plan : Option (Nat × Stop)) :
    (Act.exec (destroyTree es) ⟨w, plan⟩).Founded :=
  ⟨F.footing.exec (proceeds_destroyTree · es) (·.destroyTree_fails es) plan,
    ((stamps_destroyTree F.stamped fun _ _ => trivial).exec (fun _ h => h) plan).stamped⟩

end World.Founded

theorem footing_start (sizing : Sizing) : Footing (Db.start sizing).world := by
  rw [start_world]
  have hone : (World.opened sizing).cell 1 = ⟨some (created sizing 1 0 [] []),
      some { id := 1, level := 0, filePath := ⟨1⟩ }, some (SSTNode.build sizing 1 0 [] [])⟩ := by
    rw [cell_opened, if_pos rfl]
  have hother : ∀ {x}, x ≠ 1 → (World.opened sizing).cell x = ⟨none, none, none⟩ := fun hx => by
    rw [cell_opened, if_neg hx]
  have hnames : ∀ {k : SSTNode}, k.id = 1 → k.filePath = ⟨1⟩ → k.childIds = [] →
      k.Names 2 1 1 := fun h h' hk => ⟨h, h', fun c hc => by rw [hk] at hc; cases hc⟩
  have hrecord : ∀ {x r}, ((World.opened sizing).cell x).record = some r →
      r.filePath = ⟨x⟩ ∧ ∃ k, ((World.opened sizing).cell x).file = some k := fun {x r} hr => by
    by_cases hx : x = 1
    · subst hx
      rw [hone] at hr ⊢
      cases hr
      exact ⟨rfl, _, rfl⟩
    · rw [hother hx] at hr
      cases hr
  refine .inl ⟨⟨Nat.one_pos, Nat.one_lt_two, le_rfl, fun {x k} hk => ?_, fun {x k} hk => ?_,
    fun hr => ⟨(hrecord hr).1, fun _ => (hrecord hr).2⟩, _, rfl, Nat.one_pos, ⟨_, rfl, rfl⟩,
    fun hr _ => hrecord hr⟩, ⟨_, rfl, rfl⟩⟩
  · by_cases hx : x = 1
    · subst hx
      rw [hone] at hk
      cases hk
      exact hnames rfl rfl rfl
    · rw [hother hx] at hk
      cases hk
  · by_cases hx : x = 1
    · subst hx
      rw [hone] at hk
      cases hk
      exact hnames rfl rfl rfl
    · rw [hother hx] at hk
      cases hk

theorem stamped_start {P : Entry → Prop} (sizing : Sizing) :
    (Db.start sizing).world.Stamped P := by
  have hempty := stamped_empty (P := P) sizing
  have hopen : Stamps P openTree { sizing } fun _ _ => True :=
    .update_bind hempty.stamping (stamps_ensureRoot hempty)
  exact (hopen.exec (fun _ h => h) none).stamped

/-- **Every run** of a session. -/
theorem founded_run (sizing : Sizing) (ops : List Op) :
    ((Db.start sizing).run ops).world.Founded := by
  induction ops using List.reverseRecOn with
  | nil => exact ⟨footing_start sizing, stamped_start sizing⟩
  | append_singleton ops op ih =>
    rw [Db.run_append]
    cases op with
    | insert k v => exact ih
    | remove k => exact ih
    | flush => exact ih.persistRoot _ none
    | cycle =>
      have h := ih.flushPending ((Db.start sizing).run ops).writeBuf.entries none
      rwa [← Act.exec_swallow] at h

/-- **Every step** of the threads, whatever throws. -/
theorem World.Founded.step {n : Nat} {o : Options} {s t : State n} {e : Event n}
    (F : s.world.Founded) (hs : s.step o e = some t) : t.world.Founded := by
  have hcatch : ∀ (x : M Unit) (plan : Option (Nat × Stop)),
      Act.exec (catchAll x) ⟨s.world, plan⟩ = Act.exec x ⟨s.world, plan⟩ :=
    fun x plan => Act.exec_swallow _ _ _
  cases State.step_moves hs with
  | @call i c => cases c <;> exact F
  | @descend i k _ _ plan => exact F.getFromTree k plan
  | @persist i pending _ plan => exact F.persistRoot pending plan
  | @flusherMerge pending plan =>
    show (Act.exec (catchAll (GravTree.flushPending pending)) ⟨s.world, plan⟩).Founded
    rw [hcatch]
    exact F.flushPending pending plan
  | @stopPersist pending plan =>
    show (Act.exec (catchAll (GravTree.destroyTree pending)) ⟨s.world, plan⟩).Founded
    rw [hcatch]
    exact F.destroyTree pending plan
  | _ => exact F

/-- **Every run** of the threads. -/
theorem World.Founded.reach {n : Nat} {o : Options} {s t : State n}
    {ok : State n → Event n → Prop} (F : s.world.Founded)
    (h : System.Reach (State.step o) ok s t) : t.world.Founded :=
  h.inv (fun s => s.world.Founded) F fun _ _ _ ih _ hs => ih.step hs

theorem founded_start (n : Nat) (sizing : Sizing) : (State.start n sizing).world.Founded :=
  ⟨footing_start sizing, stamped_start sizing⟩

end GravTree
