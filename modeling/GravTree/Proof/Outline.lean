import GravTree.Lib.Graded
import GravTree.Proof.Written

/-!
# The outline of a world

For the question where the recursions go, only levels and children count. An outline
says of every known identifier which level and children `get_node` finds there, if it
finds anything; buffers, ranges, and what is cached and what is only on disk are left
out. Each operation keeps the outline, or changes it at one identifier.

No operation here ends in `Error.diverges`, so that whoever calls it need only look
after the recursions.
-/

namespace GravTree

open Graded

def SSTNode.knot (n : SSTNode) : Knot NodeId := ⟨n.level, n.childIds⟩

/-- What is known of a world. -/
structure Outline where
  graph : Graph NodeId
  root : NodeId
  next : NodeId
  /-- The identifiers that `graph` speaks of. -/
  known : NodeId → Prop
  /-- The identifiers that were invalidated. -/
  stale : NodeId → Prop
  /-- Some of the identifiers that are cached. -/
  held : NodeId → Prop
  /-- Some of the identifiers whose nodes have an empty buffer. -/
  dry : NodeId → Prop

/-- The node is what the graph has under `x`. -/
structure SSTNode.Under (n : SSTNode) (G : Graph NodeId) (x : NodeId) : Prop where
  id : n.id = x
  fanout : n.childIds.length ≤ maxFanout
  knot : G x = some n.knot

/-- What `get_node` finds, but for the flag that says whether it was loaded. -/
def Cell.Looks (c : Cell) (n : SSTNode) : Prop :=
  c.node = some n ∨ c.node = none ∧ c.Valid ∧ c.file = some n

/-- What the world holds for `x` is what the outline says, if anything. -/
structure Cell.Fits (c : Cell) (K : Outline) (x : NodeId) : Prop where
  place : ∀ {r}, c.record = some r → r.filePath = ⟨x⟩
  node : ∀ {n}, K.known x → c.node = some n → n.Under K.graph x
  file : ∀ {n}, K.known x → c.node = none → c.Valid → c.file = some n → n.Under K.graph x
  stale : K.stale x → ¬ c.Valid
  fresh : K.next ≤ x → ∀ n, ¬ c.Looks n
  dry : K.dry x → ∀ n, c.Looks n → n.buffer = []

/-- `get_node` finds what the outline says, if anything. -/
structure Shows (K : Outline) (w : World) : Prop where
  root : w.rest.root = K.root
  next : w.rest.next = K.next
  held : ∀ {x}, K.held x → (w.cell x).node ≠ none
  cell : ∀ x, (w.cell x).Fits K x

/-- The node is what the outline says of `x`. -/
structure SSTNode.Found (n : SSTNode) (K : Outline) (x : NodeId) : Prop where
  under : K.known x → n.Under K.graph x
  dry : K.dry x → n.buffer = []

/-- A graded outline, whatever is within reach. If `o` holds, no node has two parents. -/
structure Outline.Loose (o : Prop) (K : Outline) : Prop where
  graded : IsGraded K.graph K.root
  once : o → Once K.graph
  known : ∀ x, K.known x → x < K.next
  knows : ∀ {x n}, K.graph x = some n → K.known x ∧ ∀ c ∈ n.kids, K.known c
  held : K.held K.root
  dry : ∀ x, K.dry x → K.known x

/-- The exceptions of the code leave a graded outline, where this matters. -/
def Finishes (o : Prop) (e : Exc) (u : World) : Prop :=
  e ≠ .thrown .diverges ∧ (o → ∀ err, e = .thrown err → ∃ K : Outline, K.Loose o ∧ Shows K u)

/-- From a world with outline `K` to one with outline `K'`. -/
abbrev Leaves {α : Type} (o : Prop) (K : Outline) (x : M α) (K' : Outline) (A : α → Prop) : Prop :=
  ∀ w, Shows K w → Act.Spec x w (fun a u => Shows K' u ∧ A a) (Finishes o)

variable {o : Prop} {K K₁ K' : Outline} {w : World} {α β : Type}

theorem finishes_stopped (k : Stop) (u : World) : Finishes o (.stopped k) u :=
  ⟨fun he => (nomatch he), fun _ _ he => nomatch he⟩

theorem Shows.finishes (S : Shows K w) (L : o → K.Loose o) {e : Error} (h : e ≠ .diverges) :
    Finishes o (.thrown e) w :=
  ⟨fun he => h (Exn.thrown.inj he), fun ho _ _ => ⟨K, L ho, S⟩⟩

namespace Leaves

theorem pure {a : α} {A : α → Prop} (h : A a) : Leaves o K (Pure.pure a) K A :=
  fun _ S => Act.Spec.pure ⟨S, h⟩

theorem world : Leaves o K Act.world K (Shows K) := fun _ S => Act.Spec.world ⟨S, S⟩

theorem update {g : World → World} (h : ∀ w, Shows K w → Shows K' (g w)) :
    Leaves o K (Act.update g) K' fun _ => True := fun w S => Act.Spec.update ⟨h w S, trivial⟩

theorem op (counts : Stop → Bool) : Leaves o K (Act.op counts) K fun _ => True :=
  fun w S => Act.Spec.op ⟨S, trivial⟩ fun k _ => finishes_stopped k w

theorem bind {x : M α} {f : α → M β} {A : α → Prop} {B : β → Prop} (hx : Leaves o K x K₁ A)
    (hf : ∀ a, A a → Leaves o K₁ (f a) K' B) : Leaves o K (x >>= f) K' B :=
  fun w S => Act.Spec.bind (hx w S) fun a u h => hf a h.2 u h.1

end Leaves

/-! ## Changes of the outline -/

namespace Outline

/-- Under `x` there is the cached node `s`, with an empty buffer if `d` holds. -/
def put (K : Outline) (x : NodeId) (s : Knot NodeId) (d : Prop) : Outline :=
  { K with
    graph := Function.update K.graph x (some s)
    known := fun y => K.known y ∨ y = x
    held := fun y => K.held y ∨ y = x
    dry := fun y => y = x ∧ d ∨ y ≠ x ∧ K.dry y }

/-- Nothing is found under `x`. -/
def drop (K : Outline) (x : NodeId) : Outline :=
  { K with
    graph := Function.update K.graph x none
    known := fun y => K.known y ∨ y = x
    held := fun y => K.held y ∧ y ≠ x }

def retire (K : Outline) (x : NodeId) : Outline := { K with stale := fun y => K.stale y ∨ y = x }

def take (K : Outline) : Outline := { K with next := K.next + 1 }

end Outline

namespace Cell.Fits

variable {c : Cell} {x : NodeId} {n : SSTNode}

theorem cached (F : c.Fits K x) (h : n.Found K x) (hx : x < K.next) :
    Cell.Fits { c with node := some n } K x where
  place := F.place
  node hk hm := Option.some.inj hm ▸ h.under hk
  file _ hn := nomatch hn
  stale := F.stale
  fresh hle := absurd hx (Nat.not_lt_of_ge hle)
  dry hd _ hm := by
    rcases hm with hm | ⟨hm, -⟩
    · exact Option.some.inj hm ▸ h.dry hd
    · cases hm

theorem written (F : c.Fits K x) (h : n.Found K x) (hx : x < K.next) :
    Cell.Fits { c with file := some n } K x where
  place := F.place
  node := F.node
  file hk _ _ hm := Option.some.inj hm ▸ h.under hk
  stale := F.stale
  fresh hle := absurd hx (Nat.not_lt_of_ge hle)
  dry hd m hm := by
    rcases hm with hm | ⟨-, -, hm⟩
    · exact F.dry hd m (.inl hm)
    · exact Option.some.inj hm ▸ h.dry hd

theorem listed (F : c.Fits K x) (h : ∀ {n}, c.file = some n → c.node = none → n.Found K x)
    (hs : ¬ K.stale x) (hx : x < K.next) (id level : Nat) :
    Cell.Fits { c with record := some { id, level, filePath := ⟨x⟩ } } K x where
  place hr := Option.some.inj hr ▸ rfl
  node := F.node
  file hk hn _ hm := (h hm hn).under hk
  stale h := absurd h hs
  fresh hle := absurd hx (Nat.not_lt_of_ge hle)
  dry hd m hm := by
    rcases hm with hm | ⟨hn, -, hm⟩
    · exact F.dry hd m (.inl hm)
    · exact (h hm hn).dry hd

theorem not_valid (c : Cell) :
    ¬ Cell.Valid { c with record := c.record.map ({ · with valid := false }) } := by
  rintro ⟨r, hr, hv⟩
  obtain ⟨r', -, rfl⟩ := Option.map_eq_some_iff.mp hr
  exact nomatch hv

theorem invalidated (F : c.Fits K x) :
    Cell.Fits { c with record := c.record.map ({ · with valid := false }) } K x where
  place hr := by
    obtain ⟨r', hr', rfl⟩ := Option.map_eq_some_iff.mp hr
    exact F.place (r := r') hr'
  node := F.node
  file _ _ hv := absurd hv (not_valid c)
  stale _ := not_valid c
  fresh hle m hm := F.fresh hle m (hm.imp_right fun h => absurd h.2.1 (not_valid c))
  dry hd m hm := F.dry hd m (hm.imp_right fun h => absurd h.2.1 (not_valid c))

/-- Elsewhere the outline may change. -/
theorem congr (F : c.Fits K x) (hnext : K.next ≤ K'.next)
    (hgraph : K'.known x → K.known x ∧ K'.graph x = K.graph x) (hstale : K'.stale x → K.stale x)
    (hdry : K'.dry x → K.dry x) : c.Fits K' x := by
  have hfit : ∀ {m : SSTNode}, K'.known x → m.Under K.graph x → m.Under K'.graph x := fun hk Fm =>
    ⟨Fm.id, Fm.fanout, (hgraph hk).2.trans Fm.knot⟩
  exact ⟨F.place, fun hk hm => hfit hk (F.node (hgraph hk).1 hm),
    fun hk hn hv hm => hfit hk (F.file (hgraph hk).1 hn hv hm), fun h => F.stale (hstale h),
    fun hle => F.fresh (hnext.trans hle), fun h => F.dry (hdry h)⟩

end Cell.Fits

namespace Shows

variable {x : NodeId} {n : SSTNode}

/-- What is cached has an identifier that was handed out. -/
theorem lt_next (S : Shows K w) (h : (w.cell x).node = some n) : x < K.next :=
  Nat.lt_of_not_le fun hle => (S.cell x).fresh hle n (.inl h)

theorem found (S : Shows K w) (h : (w.cell x).node = some n) : n.Found K x :=
  ⟨fun hk => (S.cell x).node hk h, fun hd => (S.cell x).dry hd n (.inl h)⟩

theorem setNode (S : Shows K w) (h : n.Found K x) (hx : x < K.next) : Shows K (w.setNode x n) := by
  refine ⟨S.root, S.next, fun hh => ?_, fun y => ?_⟩
  · rw [World.cell_setNode]
    split
    · exact Option.some_ne_none n
    · exact S.held hh
  · rw [World.cell_setNode]
    split
    · rename_i hy
      exact hy ▸ (S.cell x).cached h hx
    · exact S.cell y

/-- A write through a reference that leaves level and children alone. -/
theorem modifyNode (S : Shows K w) (x : NodeId) {f : SSTNode → SSTNode}
    (hf : ∀ n, (f n).id = n.id ∧ (f n).level = n.level ∧ (f n).childIds = n.childIds)
    (hbuf : K.dry x → ∀ n, n.buffer = [] → (f n).buffer = []) : Shows K (w.modifyNode x f) := by
  cases hx : w.cache.lookup x with
  | none =>
    have hw : w.modifyNode x f = w := by rw [World.modifyNode, hx]
    rw [hw]
    exact S
  | some n =>
    have hw : w.modifyNode x f = w.setNode x (f n) := by rw [World.modifyNode, hx]
    rw [hw]
    have hn : (w.cell x).node = some n := hx
    obtain ⟨hid, hl, hc⟩ := hf n
    refine S.setNode ⟨fun hk => ?_, fun hd => hbuf hd n ((S.found hn).dry hd)⟩ (S.lt_next hn)
    have F := (S.found hn).under hk
    exact ⟨hid.trans F.id, hc ▸ F.fanout, by rw [F.knot, SSTNode.knot, SSTNode.knot, hl, hc]⟩

theorem renamed (S : Shows K w) (h : n.Found K n.id) (hx : n.id < K.next) :
    Shows K (w.renamed n) := by
  refine ⟨S.root, S.next, fun hh => ?_, fun y => ?_⟩
  · rw [World.cell_renamed]
    split <;> exact S.held hh
  · rw [World.cell_renamed]
    split
    · rename_i hy
      exact hy ▸ (S.cell n.id).written h hx
    · exact S.cell y

/-- A node is listed that is unknown, or cached, or whose file was just written. -/
theorem registerNode (S : Shows K w)
    (h : ∀ {m}, (w.cell x).file = some m → (w.cell x).node = none → m.Found K x)
    (hs : ¬ K.stale x) (hx : x < K.next) (level : Nat) : Shows K (w.registerNode x level ⟨x⟩) := by
  refine ⟨S.root, S.next, fun hh => ?_, fun y => ?_⟩
  · rw [World.cell_registerNode]
    split <;> exact S.held hh
  · rw [World.cell_registerNode]
    split
    · rename_i hy
      exact hy ▸ (S.cell x).listed h hs hx x level
    · exact S.cell y

theorem invalidateNode (S : Shows K w) (x : NodeId) : Shows (K.retire x) (w.invalidateNode x) := by
  refine ⟨?_, ?_, fun hh => ?_, fun y => ?_⟩
  · rw [World.rest_invalidateNode]
    exact S.root
  · rw [World.rest_invalidateNode]
    exact S.next
  · rw [World.cell_invalidateNode]
    split <;> exact S.held hh
  · have F : ((w.invalidateNode x).cell y).Fits K y := by
      rw [World.cell_invalidateNode]
      split
      · exact (S.cell y).invalidated
      · exact S.cell y
    refine ⟨F.place, F.node, F.file, fun hs => hs.elim F.stale fun hy => ?_, F.fresh, F.dry⟩
    rw [World.cell_invalidateNode, if_pos hy]
    exact Cell.Fits.not_valid _

theorem collected (S : Shows K w) {r : NodeMeta} (hr : (w.cell x).record = some r) :
    Shows K (w.collected x r) := by
  have hp := (S.cell x).place hr
  refine ⟨S.root, S.next, fun hh => ?_, fun y => ?_⟩
  · rw [World.cell_collected _ _ _ _ hp]
    split <;> exact S.held hh
  · rw [World.cell_collected _ _ _ _ hp]
    split
    · have hlook : ∀ {m}, Cell.Looks { w.cell y with record := none, file := none } m →
          (w.cell y).Looks m := fun h => .inl (h.elim id fun h => nomatch h.2.2)
      exact ⟨fun h => (nomatch h), (S.cell y).node, fun _ _ _ h => (nomatch h),
        fun _ ⟨_, h, _⟩ => (nomatch h), fun hle m hm => (S.cell y).fresh hle m (hlook hm),
        fun hd m hm => (S.cell y).dry hd m (hlook hm)⟩
    · exact S.cell y

/-- **A node comes into the cache**, or changes there. -/
theorem put (S : Shows K w) {d : Prop} (hid : n.id = x) (hfan : n.childIds.length ≤ maxFanout)
    (hx : x < K.next) (hd : d → n.buffer = []) : Shows (K.put x n.knot d) (w.setNode x n) := by
  refine ⟨S.root, S.next, fun {y} hh => ?_, fun y => ?_⟩
  · rw [World.cell_setNode]
    split
    · exact Option.some_ne_none n
    · rename_i hy
      exact S.held (hh.resolve_right hy)
  · have hput : y ≠ x → (w.cell y).Fits (K.put x n.knot d) y := fun hy =>
      (S.cell y).congr le_rfl
        (fun hk => ⟨hk.resolve_right hy, Function.update_of_ne hy ..⟩) id
        fun h => (h.resolve_left fun h => hy h.1).2
    rw [World.cell_setNode]
    split
    · rename_i hy
      subst hy
      refine ⟨(S.cell y).place,
        fun _ hm => Option.some.inj hm ▸ ⟨hid, hfan, Function.update_self ..⟩,
        fun _ hn => (nomatch hn), (S.cell y).stale, fun hle => absurd hx (Nat.not_lt_of_ge hle),
        fun h m hm => ?_⟩
      have hm : some n = some m := hm.elim id fun h => nomatch h.1
      exact Option.some.inj hm ▸ hd (h.elim And.right fun h => absurd rfl h.1)
    · rename_i hy
      exact hput hy

/-- **An invalidated node is dropped.** -/
theorem drop (S : Shows K w) (hs : K.stale x) : Shows (K.drop x) (w.eraseNode x) := by
  refine ⟨S.root, S.next, fun {y} hh => ?_, fun y => ?_⟩
  · rw [World.cell_eraseNode, if_neg hh.2]
    exact S.held hh.1
  · rw [World.cell_eraseNode]
    split
    · rename_i hy
      subst hy
      have hlook : ∀ m, ¬ Cell.Looks { w.cell y with node := none } m := fun m h =>
        h.elim (fun h => nomatch h) fun h => (S.cell y).stale hs h.2.1
      exact ⟨(S.cell y).place, fun _ hn => (nomatch hn), fun _ _ hv => absurd hv ((S.cell y).stale hs),
        (S.cell y).stale, fun _ => hlook, fun _ m hm => absurd hm (hlook m)⟩
    · rename_i hy
      exact (S.cell y).congr le_rfl (fun hk => ⟨hk.resolve_right hy, Function.update_of_ne hy ..⟩)
        id id

theorem setRoot (S : Shows K w) (x : NodeId) :
    Shows { K with root := x } (w.setRoot x) :=
  ⟨rfl, S.next, S.held, fun y => (S.cell y).congr le_rfl (fun hk => ⟨hk, rfl⟩) id id⟩

theorem takeId (S : Shows K w) : Shows K.take w.takeId :=
  ⟨S.root, congrArg (· + 1) S.next, S.held, fun y =>
    (S.cell y).congr (Nat.le_succ _) (fun hk => ⟨hk, rfl⟩) id id⟩

/-- To know less. -/
theorem weaken (S : Shows K w) (hroot : K'.root = K.root) (hnext : K'.next = K.next)
    (hheld : ∀ x, K'.held x → (w.cell x).node ≠ none)
    (hgraph : ∀ x, K'.known x → K.known x ∧ K'.graph x = K.graph x)
    (hstale : ∀ x, K'.stale x → K.stale x) (hdry : ∀ x, K'.dry x → K.dry x) : Shows K' w :=
  ⟨hroot ▸ S.root, hnext ▸ S.next, fun h => hheld _ h, fun x =>
    (S.cell x).congr hnext.ge (hgraph x) (hstale x) (hdry x)⟩

end Shows

/-! ## The store -/

section Store

variable {x : NodeId} {n : SSTNode}

/-- A file operation, and what follows. -/
theorem finishes_op {counts : Stop → Bool} {f : Unit → M α} {Q : α → World → Prop}
    (h : Act.Spec (f ()) w Q (Finishes o)) : Act.Spec (Act.op counts >>= f) w Q (Finishes o) := by
  refine Act.Spec.bind (R := fun _ u => u = w) (Act.Spec.op rfl fun k _ => finishes_stopped k w) ?_
  rintro _ u rfl
  exact h

theorem leaves_nextNodeId : Leaves o K nextNodeId K.take fun a => a = K.next :=
  fun _ S => Act.Spec.world_bind (Act.Spec.update_bind (Act.Spec.pure ⟨S.takeId, S.next⟩))

theorem leaves_save : Leaves o K save K fun _ => True :=
  .bind (.op _) fun _ _ => .update fun _ S => ⟨S.root, S.next, S.held, S.cell⟩

theorem leaves_gcLoop : ∀ ids, Leaves o K (gcLoop ids) K fun _ => True
  | [] => .pure trivial
  | id :: ids => by
    intro w S
    unfold gcLoop
    refine Act.Spec.world_bind ?_
    split
    · rename_i r hr
      split
      · exact finishes_op (Act.Spec.update_bind (leaves_gcLoop ids _ (S.collected hr)))
      · exact leaves_gcLoop ids w S
    · exact leaves_gcLoop ids w S

theorem leaves_commit : Leaves o K (save >>= fun _ => gc) K fun _ => True :=
  .bind leaves_save fun _ _ => .bind .world fun _ _ => leaves_gcLoop _

theorem writeFile_spec (n : SSTNode) (w : World) :
    Act.Spec n.writeFile w (fun path u => path = ⟨n.id⟩ ∧ u = w.renamed n) (Finishes o) :=
  finishes_op (Act.Spec.update_bind (Act.Spec.pure ⟨rfl, rfl⟩))

theorem leaves_writeFile (h : n.Found K n.id) (hx : n.id < K.next) :
    Leaves o K n.writeFile K fun path => path = ⟨n.id⟩ :=
  fun w S => (writeFile_spec n w).mono (fun _ _ hu => ⟨hu.2 ▸ S.renamed h hx, hu.1⟩) fun _ _ he => he

/-- `read_file` returns what is on file, perhaps without its entries. -/
theorem readFile_spec (L : o → K.Loose o) (S : Shows K w) (path : FilePath) (b : Bool) :
    Act.Spec (readFile path b) w (fun n u => u = w ∧ n.filePath = path ∧
      ∃ n₀, (w.cell path.nodeId).file = some n₀ ∧ n.id = n₀.id ∧ n.knot = n₀.knot ∧
        (n₀.buffer = [] → n.buffer = [])) (Finishes o) := by
  refine finishes_op (Act.Spec.world_bind ?_)
  split
  · exact Act.Spec.fail (S.finishes L fun he => nomatch he)
  · rename_i n₀ hn₀
    refine Act.Spec.pure ⟨rfl, rfl, n₀, hn₀, rfl, rfl, fun h => ?_⟩
    cases b
    · rfl
    · exact h

theorem loadEntries_spec (L : o → K.Loose o) (S : Shows K w) (n : SSTNode) : Act.Spec n.loadEntries w
    (fun m u => u = w ∧ m.id = n.id ∧ m.knot = n.knot ∧ m.entriesLoaded = true ∧
      (n.buffer = [] → (∀ n₀, (w.cell n.filePath.nodeId).file = some n₀ → n₀.buffer = []) →
        m.buffer = [])) (Finishes o) := by
  unfold SSTNode.loadEntries
  split
  · rename_i h
    exact Act.Spec.pure ⟨rfl, rfl, rfl, h, fun h _ => h⟩
  · refine Act.Spec.bind (readFile_spec L S _ true) fun full u hu => ?_
    obtain ⟨rfl, -, n₀, hn₀, -, -, hbuf⟩ := hu
    exact Act.Spec.pure ⟨rfl, rfl, rfl, rfl, fun _ h => hbuf (h n₀ hn₀)⟩

theorem SSTNode.Under.congr {G : Graph NodeId} {m : SSTNode} (F : n.Under G x) (hid : m.id = n.id)
    (hk : m.knot = n.knot) : m.Under G x :=
  ⟨hid.trans F.id, (congrArg (·.kids.length) hk).trans_le F.fanout, hk ▸ F.knot⟩

theorem SSTNode.Found.congr {m : SSTNode} (F : n.Found K x) (hid : m.id = n.id)
    (hk : m.knot = n.knot) (hb : n.buffer = [] → m.buffer = []) : m.Found K x :=
  ⟨fun h => (F.under h).congr hid hk, fun h => hb (F.dry h)⟩

/-- **`get_node`** finds what the outline says, and leaves it in the cache. -/
theorem getNode_caches (L : o → K.Loose o) (x : NodeId) (S : Shows K w) : Act.Spec (getNode x) w
    (fun n u => Shows K u ∧ n.Found K x ∧ (u.cell x).node = some n) (Finishes o) := by
  refine Act.Spec.world_bind ?_
  split
  · rename_i n hn
    exact Act.Spec.pure ⟨S, S.found hn, hn⟩
  · rename_i hnone
    refine Act.Spec.world_bind ?_
    split
    · exact Act.Spec.fail (S.finishes L fun he => nomatch he)
    · rename_i path hpath
      have hrec : ∃ r, (w.cell x).record = some r ∧ r.valid = true ∧ r.filePath = path := by
        unfold Manifest.nodePath at hpath
        split at hpath
        · rename_i r hr
          split at hpath
          · rename_i hv
            exact ⟨r, hr, hv, Option.some.inj hpath⟩
          · exact nomatch hpath
        · exact nomatch hpath
      obtain ⟨r, hr, hv, rfl⟩ := hrec
      have hplace := (S.cell x).place hr
      refine Act.Spec.bind (readFile_spec L S _ false) fun n u hu => ?_
      obtain ⟨rfl, hfile, n₀, hn₀, hid, hk, hbuf⟩ := hu
      refine Act.Spec.bind (loadEntries_spec L S n) fun m v hm => Act.Spec.update_bind ?_
      obtain ⟨rfl, hid', hk', -, hbuf'⟩ := hm
      rw [hfile] at hbuf'
      rw [hplace] at hn₀ hbuf'
      have hlook : (v.cell x).Looks n₀ := .inr ⟨hnone, ⟨r, hr, hv⟩, hn₀⟩
      have F : m.Found K x := by
        refine ⟨fun h => ?_, fun h => ?_⟩
        · exact ((S.cell x).file h hnone ⟨r, hr, hv⟩ hn₀).congr (hid'.trans hid) (hk'.trans hk)
        · have hn₀' := (S.cell x).dry h n₀ hlook
          refine hbuf' (hbuf hn₀') fun n₁ hn₁ => ?_
          exact Option.some.inj (hn₀.symm.trans hn₁) ▸ hn₀'
      have hx : x < K.next := Nat.lt_of_not_le fun hle => (S.cell x).fresh hle n₀ hlook
      exact Act.Spec.pure ⟨S.setNode F hx, F, by simp⟩

theorem leaves_getNode (L : o → K.Loose o) (x : NodeId) :
    Leaves o K (getNode x) K fun n => n.Found K x :=
  fun _ S => (getNode_caches L x S).mono (fun _ _ h => ⟨h.1, h.2.1⟩) fun _ _ h => h

/-- A cached node is there. -/
theorem leaves_getNode_held (hx : K.held x) : Leaves o K (getNode x) K fun n => n.Found K x := by
  intro w S
  obtain ⟨n, hn⟩ := Option.ne_none_iff_exists'.mp (S.held hx)
  refine Act.Spec.mono (getNode_reads hn) ?_ fun _ _ h => h.2.elim
  rintro _ u ⟨rfl, rfl⟩
  exact ⟨S, S.found hn⟩

theorem leaves_spanKeyRange (L : o → K.Loose o) (n : SSTNode) :
    Leaves o K (spanKeyRange n) K fun _ => True :=
  .bind (leaves_getNode L _) fun _ _ => .bind (leaves_getNode L _) fun _ _ => .pure trivial

/-- A node under a name that is not known. -/
theorem leaves_create {id level : Nat} {es : List Entry} {cs : List NodeId} (h : ¬ K.known id)
    (hd : ¬ K.dry id) (hx : id < K.next) (hcs : cs.length ≤ maxFanout) :
    Leaves o K (SSTNode.create id level es cs) K fun n => n.id = id ∧ n.knot = ⟨level, cs⟩ ∧
      n.filePath = ⟨id⟩ ∧ (es = [] → n.buffer = []) := by
  refine .bind .world fun w _ => .bind (leaves_writeFile ⟨fun hk => absurd hk h,
    fun hk => absurd hk hd⟩ hx) fun path hp => .pure ⟨rfl, ?_, hp, fun he => ?_⟩
  · exact congrArg (Knot.mk level) (created_childIds w.sizing id level es cs hcs)
  · show (SSTNode.build w.sizing id level es cs).buffer = []
    rw [he]
    rfl

theorem leaves_flushToDisk (h : n.Found K n.id) (hx : n.id < K.next) : Leaves o K n.flushToDisk K
    fun m => m.id = n.id ∧ m.knot = n.knot ∧ m.filePath = ⟨n.id⟩ ∧ (n.buffer = [] → m.buffer = []) := by
  have hbuf : ∀ sizing, n.buffer = [] → (n.prepare sizing).buffer = [] := fun sizing hb => by
    show sortBuffer n.buffer = []
    rw [hb]
    rfl
  exact .bind .world fun w _ => .bind (leaves_writeFile (h.congr rfl rfl (hbuf w.sizing)) hx)
    fun _ hp => .pure ⟨rfl, rfl, hp, hbuf w.sizing⟩

theorem leaves_registerNode {x level : Nat} {path : FilePath} (hp : path = ⟨x⟩)
    (hx : ¬ K.known x) (hd : ¬ K.dry x) (hs : ¬ K.stale x) (hlt : x < K.next) :
    Leaves o K (registerNode x level path) K fun _ => True :=
  .update fun _ S => hp ▸ S.registerNode
    (fun _ _ => ⟨fun hk => absurd hk hx, fun hk => absurd hk hd⟩) hs hlt level

/-- A node is written again and listed. -/
theorem leaves_refresh (h : n.Found K n.id) (hs : ¬ K.stale n.id) (hx : n.id < K.next) :
    Leaves o K (n.flushToDisk >>= fun c => registerNode c.id c.level c.filePath >>= fun _ => pure c) K
      fun m => m.id = n.id ∧ m.knot = n.knot ∧ (n.buffer = [] → m.buffer = []) := by
  intro w S
  have hbuf : n.buffer = [] → (n.prepare w.sizing).buffer = [] := fun hb => by
    show sortBuffer n.buffer = []
    rw [hb]
    rfl
  have F : (n.prepare w.sizing).Found K n.id := h.congr rfl rfl hbuf
  refine Act.Spec.bind (R := fun m u => m = flushed w.sizing n ∧
    u = w.renamed (n.prepare w.sizing)) ?_ ?_
  · refine Act.Spec.world_bind (Act.Spec.bind (writeFile_spec _ w) ?_)
    rintro _ u ⟨rfl, rfl⟩
    exact Act.Spec.pure ⟨rfl, rfl⟩
  · rintro _ u ⟨rfl, rfl⟩
    refine Act.Spec.update_bind (Act.Spec.pure ⟨?_, rfl, rfl, hbuf⟩)
    refine (S.renamed F hx).registerNode (fun {m} hm _ => ?_) hs hx _
    have hcell : ((w.renamed (n.prepare w.sizing)).cell n.id).file = some (n.prepare w.sizing) := by
      simp
    exact Option.some.inj (hcell.symm.trans hm) ▸ F

/-- A cached node is written again. -/
theorem flushNode_caches (L : o → K.Loose o) (hk : K.known x) (hx : x < K.next) (S : Shows K w) :
    Act.Spec (flushNode x) w (fun _ u => Shows K u ∧ ∃ n, (u.cell x).node = some n ∧ n.id = x ∧
      n.filePath = ⟨x⟩) (Finishes o) := by
  unfold flushNode
  refine Act.Spec.world_bind (Act.Spec.update_bind ?_)
  have S₀ : Shows K (w.modifyNode x (·.prepare w.sizing)) :=
    S.modifyNode x (fun _ => ⟨rfl, rfl, rfl⟩) fun _ n hb => by
      show sortBuffer n.buffer = []
      rw [hb]
      rfl
  refine Act.Spec.bind (getNode_caches L x S₀) fun n u hu => ?_
  obtain ⟨Su, hn, hcached⟩ := hu
  have hid := (hn.under hk).id
  have hw : (u.renamed n).modifyNode x (fun m => { m with filePath := ⟨n.id⟩, entriesLoaded := true })
      = (u.renamed n).setNode x { n with filePath := ⟨n.id⟩, entriesLoaded := true } := by
    have hx : (u.renamed n).cache.lookup x = some n := hcached
    rw [World.modifyNode, hx]
  obtain rfl : n.id = x := hid
  refine Act.Spec.bind (writeFile_spec n u) ?_
  rintro _ v ⟨rfl, rfl⟩
  refine Act.Spec.update ?_
  rw [hw]
  refine ⟨(Su.renamed hn hx).setNode (hn.congr rfl rfl id) hx,
    { n with filePath := ⟨n.id⟩, entriesLoaded := true }, ?_, rfl, rfl⟩
  rw [World.cell_setNode, if_pos rfl]

/-- A cached node is listed. -/
theorem Shows.listed (S : Shows K w) (hx : x < K.next) (hs : ¬ K.stale x)
    (hn : (w.cell x).node = some n) (level : Nat) : Shows K (w.registerNode x level ⟨x⟩) :=
  S.registerNode (fun _ hnone => nomatch hn.symm.trans hnone) hs hx level

/-- A cached node is written again and listed. -/
theorem leaves_rewrite (L : o → K.Loose o) (hk : K.known x) (hx : x < K.next) (hs : ¬ K.stale x) :
    Leaves o K (flushNode x >>= fun _ => registerCached x) K fun _ => True := by
  intro w S
  refine Act.Spec.bind (flushNode_caches L hk hx S) fun _ u hu => ?_
  obtain ⟨Su, n, hn, hid, hpath⟩ := hu
  refine (getNode_reads hn).spec_bind (Act.Spec.update ⟨?_, trivial⟩)
  rw [hid, hpath]
  exact Su.listed hx hs hn n.level

end Store

end GravTree
