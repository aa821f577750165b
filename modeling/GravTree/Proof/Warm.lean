import GravTree.Proof.Thaw
import GravTree.Proof.Serve

/-!
# The tree as `get_node` shows it

Loading every listed node makes a world whose cache is all that `get_node` can find. What is
known of restructurings where everything is loaded carries over to the world as it is: the
code returns the same, and afterwards `get_node` finds the same.
-/

namespace GravTree

/-- The world once `get_node` was asked for every listed node. -/
def World.warm (w : World) : World := w.manifest.nodes.keys.foldl World.loading w

section Warm

variable {w : World}

theorem foldl_loading : ∀ (ids : List NodeId) (w : World),
    (ids.foldl World.loading w).manifest = w.manifest ∧
      (ids.foldl World.loading w).disk = w.disk ∧ (ids.foldl World.loading w).rest = w.rest ∧
      ∀ x, (ids.foldl World.loading w).cache.lookup x =
        if x ∈ ids then w.seen x else w.cache.lookup x
  | [], w => ⟨rfl, rfl, rfl, fun _ => (if_neg List.not_mem_nil).symm⟩
  | id :: ids, w => by
    obtain ⟨hm, hd, hr, hc⟩ := foldl_loading ids (w.loading id)
    refine ⟨hm.trans (manifest_loading w id), hd.trans (disk_loading w id),
      hr.trans (rest_loading id), fun x => ?_⟩
    rw [List.foldl_cons, hc, seen_loading, cache_loading]
    by_cases hids : x ∈ ids
    · rw [if_pos hids, if_pos (List.mem_cons_of_mem id hids)]
    · rw [if_neg hids]
      by_cases hx : x = id
      · rw [if_pos hx, if_pos (hx ▸ List.mem_cons_self), hx]
      · rw [if_neg hx, if_neg fun h => (List.mem_cons.mp h).elim hx hids]

@[simp] theorem manifest_warm (w : World) : w.warm.manifest = w.manifest := (foldl_loading _ w).1

@[simp] theorem disk_warm (w : World) : w.warm.disk = w.disk := (foldl_loading _ w).2.1

@[simp] theorem rest_warm (w : World) : w.warm.rest = w.rest := (foldl_loading _ w).2.2.1

theorem cache_warm (w : World) (x : NodeId) : w.warm.cache.lookup x = w.seen x := by
  rw [World.warm, (foldl_loading _ w).2.2.2]
  split
  · rfl
  · rename_i hx
    -- a node that is not listed is not on file
    have hnone : w.manifest.nodes.lookup x = none := AList.lookup_eq_none.mpr hx
    have hfile : w.onFile x = none := by
      rw [Store.onFile, Manifest.nodePath, hnone]
      rfl
    rw [Store.seen, hfile, Option.or_none]

theorem cell_warm (w : World) (x : NodeId) :
    w.warm.cell x = { w.cell x with node := w.seen x } := by
  rw [World.cell, cache_warm, manifest_warm, disk_warm]
  rfl

theorem view_warm (w : World) : w.warm.view = w.seen := funext fun x => cache_warm w x

/-- Nothing is to be loaded where the cache has what is listed. -/
theorem Filed.warm_eq {lag : Option NodeId} (F : Filed w lag) : w.warm = w := by
  have hstay : ∀ x, w.loading x = w := by
    intro x
    unfold World.loading
    cases hc : w.cache.lookup x with
    | some n => rfl
    | none =>
      have hnone : w.manifest.nodePath x = none := by
        by_contra h
        exact F.valid.mp (nodePath_ne_none.mp h) hc
      have hfile : w.onFile x = none := by
        rw [Store.onFile, hnone]
        rfl
      rw [hfile]
  have key : ∀ ids : List NodeId, ids.foldl World.loading w = w := by
    intro ids
    induction ids with
    | nil => rfl
    | cons x ids ih => rw [List.foldl_cons, hstay, ih]
  exact key _

end Warm

/-! ## From one world to the other -/

/-- What is not loaded, and what is not listed. -/
def World.frost (w : World) : Frost where
  cold := {x | w.cache.lookup x = none ∧ w.onFile x ≠ none}
  odd := {x | w.manifest.nodePath x = none}

variable {w v : World} {F : Frost} {lag : Option NodeId} {α : Type}

/-- **The beginning**: the root is loaded, and what `get_node` finds is filed. -/
theorem Filed.thaws (L : Filed w.warm lag) (hid : ∀ {x n}, w.warm.view x = some n → n.id = x)
    (hroot : w.view w.rest.root ≠ none) : Thaws w.frost w w.warm where
  manifest := (manifest_warm w).symm
  disk := (disk_warm w).symm
  sizing := (congrArg Rest.sizing (rest_warm w)).symm
  warm := by
    intro x hx
    rw [cache_warm, Store.seen]
    cases hc : w.cache.lookup x with
    | some n => rw [Option.some_or]
    | none =>
      have hf : w.onFile x = none := by
        by_contra h
        exact hx ⟨hc, h⟩
      rw [hf, Option.or_none]
  cold := by
    intro x hx
    refine ⟨hx.1, ?_⟩
    rw [cache_warm, Store.seen, hx.1, Option.none_or, Store.onFile, Store.onFile, manifest_warm,
      disk_warm]
  fresh := by
    intro x hx
    obtain ⟨n, hn⟩ := Option.ne_none_iff_exists'.mp hx.2
    obtain ⟨path, m, hp, -, -⟩ := onFile_some.mp hn
    obtain ⟨r, hr, -, -⟩ := Manifest.nodePath_some.mp hp
    exact (L.place (x := x) (by rw [cell_warm]; exact hr)).2.2
  root := by
    rw [manifest_warm]
    exact fun h => hroot h.1
  node := by
    intro x n hn
    -- what is found is listed, so it is not odd
    have hvalid : (w.warm.cell x).Valid := L.valid.mpr (by
      rw [show (w.warm.cell x).node = some n from hn]
      exact Option.some_ne_none n)
    refine ⟨⟨hid hn, (L.loaded hn).1⟩, fun hx => nodePath_ne_none.mpr hvalid ?_⟩
    rw [manifest_warm]
    exact hx
  file := by
    intro x n hx hn
    have hvalid : (w.warm.cell x).Valid := nodePath_ne_none.mp (by
      rw [manifest_warm]
      exact hx)
    obtain ⟨m, hm⟩ := Option.ne_none_iff_exists'.mp (L.valid.mp hvalid)
    obtain ⟨n₀, hn₀, h⟩ := L.file hm
    obtain rfl : n₀ = n := Option.some.inj (hn₀.symm.trans hn)
    -- a file that is behind has the node's identifier all the same
    rcases h with h | ⟨-, h⟩
    · exact (congrArg SSTNode.id h).trans (hid hm)
    · exact h.id.trans (hid hm)
  record hr := (L.place hr).1
  odd := by
    intro x hx
    rw [manifest_warm]
    exact hx

/-- A run is a run. -/
theorem Melts.run {x : M α} {A : Frost → α → Prop} (h : Melts F x A) (T : Thaws F w v) {a : α}
    {v' : World} (hv : x ⟨v, none⟩ = .ok a ⟨v', none⟩) :
    ∃ u G, x ⟨w, none⟩ = .ok a ⟨u, none⟩ ∧ Thaws G u v' := by
  obtain ⟨-, u, hu, G, -, TG, -⟩ := h w v T a _ hv
  exact ⟨u, G, hu, TG⟩

/-- An answer is an answer. -/
theorem Melts.eval_eq {x : M α} {A : Frost → α → Prop} (h : Melts F x A) (T : Thaws F w v) {a : α}
    (hv : Act.eval x ⟨v, none⟩ = .ok a) : Act.eval x ⟨w, none⟩ = .ok a := by
  obtain ⟨m, hm⟩ := Act.eval_ok hv
  obtain ⟨-, u, hu, -⟩ := h w v T a m hm
  rw [Act.eval, hu]

/-- **The end**: what `get_node` finds is what is cached where everything is loaded. -/
theorem Thaws.cell_warm_eq (T : Thaws F w v) (L : Filed v lag) (x : NodeId) :
    w.warm.cell x = v.cell x := by
  have hseen : v.seen x = v.cache.lookup x := by
    rw [← cache_warm, L.warm_eq]
  rw [cell_warm, T.seen, hseen, World.cell, T.manifest, T.disk]
  rfl

theorem Thaws.tree_eq (T : Thaws F w v) (L : Filed v lag) : w.warm.tree = v.tree := by
  have hview : w.warm.view = v.view := funext fun x => congrArg Cell.node (T.cell_warm_eq L x)
  have hroot : w.rest.root = v.rest.root := congrArg Manifest.rootId T.manifest
  have hnext : w.rest.next = v.rest.next := congrArg Manifest.nextId T.manifest
  rw [World.tree, World.tree, hview, rest_warm, hroot, hnext]

/-- **Reads** find the same. -/
theorem Thaws.findEntry_eq (T : Thaws F w v) (Tv : Tidy v lag) (k : Bytes) :
    Act.eval (findEntry k) ⟨w, none⟩ = Act.eval (findEntry k) ⟨v, none⟩ := by
  rw [Tv.findEntry_eq]
  exact (melts_findEntry k).eval_eq T (Tv.findEntry_eq k)

/-! ## Forgetting -/

/-- What is as on file may leave the cache. -/
theorem Filed.seen_eraseNode (L : Filed w.warm lag) {x : NodeId} (hx : lag ≠ some x) :
    (w.eraseNode x).seen = w.seen := by
  funext y
  show ((w.cache.erase x).lookup y).or (w.onFile y) = w.seen y
  rw [lookup_erase]
  split
  · rename_i hy
    subst hy
    rw [Option.none_or]
    cases hc : w.cache.lookup y with
    | none => rw [Store.seen, hc, Option.none_or]
    | some n =>
      have hseen : w.seen y = some n := by rw [Store.seen, hc, Option.some_or]
      have hn : (w.warm.cell y).node = some n := by rw [cell_warm, hseen]
      obtain ⟨r, hr, hv⟩ := L.valid.mpr (hn ▸ Option.some_ne_none n)
      obtain ⟨n₀, hn₀, h⟩ := L.file hn
      -- its file is not behind, so loading it again gives the same node
      obtain rfl : n₀.loaded = n := h.resolve_right fun h => hx h.1
      have hid : n₀.id = y := congrArg FilePath.nodeId (L.loaded hn).1
      rw [cell_warm] at hr hn₀
      refine (onFile_some.mpr ⟨⟨y⟩, n₀, ?_, hn₀, ?_⟩).trans hseen.symm
      · refine Manifest.nodePath_some.mpr ⟨r, hr, hv, (L.place (x := y) ?_).1⟩
        rw [cell_warm]
        exact hr
      · rw [SSTNode.loaded, hid]
  · rfl

theorem Filed.cell_eraseNode (L : Filed w.warm lag) {x : NodeId} (hx : lag ≠ some x) (y : NodeId) :
    (w.eraseNode x).warm.cell y = w.warm.cell y := by
  rw [cell_warm, cell_warm, L.seen_eraseNode hx, World.cell_eraseNode]
  split <;> rfl

theorem Filed.tree_eraseNode (L : Filed w.warm lag) {x : NodeId} (hx : lag ≠ some x) :
    (w.eraseNode x).warm.tree = w.warm.tree := by
  rw [World.tree, World.tree, view_warm, view_warm, L.seen_eraseNode hx, rest_warm, rest_warm,
    World.rest_eraseNode]

theorem Filed.calm_eraseNode (L : Filed w.warm lag) {x : NodeId} (hx : lag ≠ some x) :
    Calm w.warm (w.eraseNode x).warm := by
  have hcell := L.cell_eraseNode hx
  have hrest : (w.eraseNode x).warm.rest = w.warm.rest := by
    rw [rest_warm, rest_warm, World.rest_eraseNode]
  exact ⟨fun y => by rw [hcell], fun y => .inl (by rw [hcell]), fun y _ => by rw [hcell],
    by rw [hrest], by rw [hrest], by rw [hrest]⟩

theorem view_eraseNode {x y : NodeId} (h : y ≠ x) : (w.eraseNode x).view y = w.view y := by
  show ((w.eraseNode x).cell y).node = _
  rw [World.cell_eraseNode, if_neg h]
  rfl

end GravTree
