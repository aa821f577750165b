import GravTree.Proof.Recover
import GravTree.Proof.Reopen

/-!
# What a crash leaves

Inside a restructuring the manifest on disk is the old one, and so are the files of the
nodes that it lists, until a file is written over by one with other children. `open` then
finds the tree as it was when the restructuring began, but for what only memory had: the
root's buffer since its file was written.
-/

namespace GravTree

open Forest Fence

/-- The tree of `w` as the node files of `u` have it. -/
def World.image (w u : World) : View := fun x =>
  (w.view x).bind fun _ => (u.cell x).file.map SSTNode.loaded

section Image

variable {w u : World} {x : NodeId} {n n' : SSTNode}

theorem image_eq (hx : w.view x = some n) (hf : (u.cell x).file = some n') :
    w.image u x = some n'.loaded := by
  rw [World.image, hx, hf]
  rfl

theorem image_none (hx : w.view x = none) : w.image u x = none := by
  rw [World.image, hx]
  rfl

theorem image_some (h : w.image u x = some n') :
    ∃ n n₀, w.view x = some n ∧ (u.cell x).file = some n₀ ∧ n₀.loaded = n' := by
  obtain ⟨n, hx, h⟩ := Option.bind_eq_some_iff.mp h
  obtain ⟨n₀, hf, h⟩ := Option.map_eq_some_iff.mp h
  exact ⟨n, n₀, hx, hf, h⟩

/-- In a settled world everything is in the files. -/
theorem Settled.image_holds (hw : Settled w) {e : Entry} (h : w.view.Holds e) :
    (w.image w).Holds e := by
  obtain ⟨x, n, hx, hc⟩ := h
  obtain ⟨n₀, hf, hb⟩ := hw.file hx
  refine ⟨x, n₀.loaded, image_eq hx hf, ?_⟩
  show Covers n₀.buffer e
  rwa [hb]

/-- Merging entries into the root changes no file. -/
theorem image_merged (w : World) (es : List Entry) :
    (w.merged es).image (w.merged es) = w.image w := by
  funext x
  have hf : ((w.merged es).cell x).file = (w.cell x).file := (files_merged w es x).2
  rw [World.image, World.image, hf, World.view, World.merged, World.cell_modifyNode, World.view]
  split
  · cases (w.cell x).node <;> rfl
  · rfl

end Image

/-! ## While the old files are there -/

theorem Backed.of_disk {w u : World} (h : u.disk = w.disk) : Backed w u where
  stored := congrArg (·.manifest) h
  files := .inr fun x _ _ => .inl (congrArg (·.node.lookup x) h)

namespace Backed

variable {w u : World} (B : Backed w u) (T : Tidy w (some w.rest.root))
  (hE : ¬ Exposed u.rest.effects)

include B T hE

/-- What the file of a node has of it. -/
theorem file {x : NodeId} {n : SSTNode} (hx : w.view x = some n) :
    ∃ n', (u.cell x).file = some n' ∧ n'.id = n.id ∧ n'.level = n.level ∧
      n'.childIds = n.childIds ∧ Sorted n'.buffer ∧ n'.buffer ⊆ n.buffer ∧
      (x ≠ w.rest.root → n'.buffer = n.buffer ∧ (n'.keyRange.minKey = n.keyRange.minKey ∨
        n.level ≠ 0 ∧ Fenced w.view n' n.keyRange.minKey)) := by
  have hs : Sorted n.buffer := T.sound.sorted hx
  obtain ⟨n₀, hf, h⟩ := T.filed.file (n := n) hx
  rcases B.files.resolve_left hE x n hx with hsame | ⟨-, n', hn', R⟩
  · refine ⟨n₀, hsame.trans hf, ?_⟩
    rcases h with rfl | ⟨hroot, L⟩
    · exact ⟨rfl, rfl, rfl, hs, List.Subset.refl _, fun _ => ⟨rfl, .inl rfl⟩⟩
    · exact ⟨L.id, L.level, L.kids, L.sorted, L.buffer,
        fun hne => absurd (Option.some.inj hroot).symm hne⟩
  · exact ⟨n', hn', R.id, R.level, R.kids, R.buffer ▸ hs, R.buffer ▸ List.Subset.refl _,
      fun _ => ⟨R.buffer, .inr ⟨R.inner, R.fence⟩⟩⟩

theorem recovers : Recovers w.tree ⟨w.image u, w.rest.root, w.rest.next⟩ where
  root := rfl
  next := rfl
  only := image_none
  node hx := by
    obtain ⟨n', hf, hid, hl, hk, hs, hsub, -⟩ := B.file T hE hx
    exact ⟨n'.loaded, image_eq hx hf, hid, hl, hk, hs, hsub⟩
  kept := by
    intro x n n' hx hx' hne
    obtain ⟨n₁, hf, -, -, -, -, -, h⟩ := B.file T hE hx
    have hx' : w.image u x = some n' := hx'
    rw [image_eq hx hf] at hx'
    cases hx'
    obtain ⟨hb, hmin⟩ := h hne
    exact ⟨hb, hmin.imp id fun ⟨hl, F⟩ => ⟨hl, F.cases, F.head⟩⟩

/-- The directory has the nodes of the image. -/
theorem has : u.disk.Has (w.image u) w.rest.root where
  manifest := by
    obtain ⟨m, hm, hroot, -, hvalid, hplace⟩ := T.saved
    refine ⟨m, B.stored.trans hm, hroot, fun x hx => ?_⟩
    obtain ⟨r, hr, hv⟩ := (hvalid x).mpr fun h => hx (image_none h)
    exact ⟨r, hr, hv, (hplace x r hr).1⟩
  file := by
    intro x n' hx
    obtain ⟨n, n₀, hn, hf, hload⟩ := image_some hx
    obtain ⟨n₁, hf₁, hid, -⟩ := B.file T hE hn
    rw [hf] at hf₁
    cases hf₁
    exact ⟨n₀, hf, hid.trans (T.sound.shape.mem_row hn).2.2, hload⟩

/-- **`open`** succeeds, and `get` finds the newest version in the files. -/
theorem opens (O : w.tree.Ordered) (V : w.tree.Layered) (sizing : Sizing) :
    ∃ db, Db.openDir sizing u.disk = .ok db ∧ ∀ key, ∃ a, (w.image u).Newest key a ∧
      db.get key = .ok (a.bind Entry.shown) := by
  have R := B.recovers T hE
  have S : w.tree.Sound := T.sound
  have H : Shape (w.image u) w.rest.root w.tree.height := R.shape S
  obtain ⟨r, hr, -⟩ := H.root_some
  obtain ⟨v, hopen, hv⟩ := openDir_serves sizing (B.has T hE) S.rootPos hr
  exact ⟨_, hopen, fun key => ⟨_, R.newest S O V key, getFromTree_serves (R.sound S).shape hv key⟩⟩

/-- What the files had is still there. -/
theorem image_holds {e : Entry} (h : (w.image w).Holds e) : (w.image u).Holds e := by
  obtain ⟨x, n', hx', hc⟩ := h
  obtain ⟨n, n₀, hx, hf, rfl⟩ := image_some hx'
  rcases B.files.resolve_left hE x n hx with hsame | ⟨hne, n', hn', R⟩
  · exact ⟨x, n₀.loaded, image_eq hx (hsame.trans hf), hc⟩
  · -- not the root, so its file was up to date
    obtain ⟨n₁, hf₁, h | ⟨h, -⟩⟩ := T.filed.file (n := n) hx
    · rw [hf] at hf₁
      cases hf₁
      refine ⟨x, n'.loaded, image_eq hx hn', ?_⟩
      show Covers n'.buffer e
      rw [R.buffer, ← h]
      exact hc
    · exact absurd (Option.some.inj h).symm hne

/-- The files have nothing that the tree does not have. -/
theorem image_stored {e : Entry} (h : (w.image u).Stored e) : w.view.Stored e :=
  (B.recovers T hE).stored h

end Backed

end GravTree
