import GravTree.Proof.Answer
import GravTree.Proof.Tidy

/-!
# Lookups in the code

A lookup calls `get_node`, which answers from the cache or reads the node's file and
puts the node into the cache. Either way it answers with a fixed view, and the walk of
the code is the walk in that view.
-/

namespace GravTree

open Fence

/-- An end that only a stop of the environment brings about. -/
def StopOnly (e : Exc) (_ : World) : Prop := ∃ k, e = .stopped k

theorem Act.Spec.eval_ok {α : Type} {x : M α} {w : World} {a : α}
    (h : Act.Spec x w (fun r _ => r = a) StopOnly) : Act.eval x ⟨w, none⟩ = .ok a := by
  rcases h.undisturbed with ⟨r, u, hx, rfl⟩ | ⟨e, u, s, -, ⟨k, hk⟩⟩
  · simp [Act.eval, hx]
  · cases hk

/-- `get_node` answers with `v`, from the cache or from a listed file. The root is
cached. -/
structure Serves (w : World) (v : View) (root : NodeId) : Prop where
  at_root : w.rest.root = root
  cached : w.view root = v root
  found : ∀ {x n}, v x = some n → w.view x = some n ∨ w.view x = none ∧
    ∃ r n₀, (w.cell x).record = some r ∧ r.valid = true ∧ r.filePath = ⟨x⟩ ∧
      (w.cell x).file = some n₀ ∧ n₀.id = x ∧ n₀.loaded = n

section Serves

variable {w : World} {v : View} {root : NodeId}

theorem Serves.setNode (S : Serves w v root) {x : NodeId} {n : SSTNode} (h : v x = some n) :
    Serves (w.setNode x n) v root where
  at_root := S.at_root
  cached := by
    show ((w.setNode x n).cell root).node = _
    rw [World.cell_setNode]
    split
    · rename_i hx
      rw [hx, h]
    · exact S.cached
  found := by
    intro y m hm
    show ((w.setNode x n).cell y).node = _ ∨ ((w.setNode x n).cell y).node = none ∧ _
    rw [World.cell_setNode]
    split
    · rename_i hy
      subst hy
      exact .inl (h.symm.trans hm)
    · exact S.found hm

theorem getNode_serves (S : Serves w v root) {x : NodeId} {n : SSTNode} (h : v x = some n) :
    Act.Spec (getNode x) w (fun r u => r = n ∧ Serves u v root) StopOnly := by
  rcases S.found h with hx | ⟨hx, r, n₀, hr, hv, hp, hf, hid, rfl⟩
  · refine Act.Spec.mono (getNode_reads hx) ?_ fun _ _ h => h.1
    rintro _ u ⟨rfl, rfl⟩
    exact ⟨rfl, S⟩
  · have hpath : w.manifest.nodePath x = some ⟨x⟩ := by
      have hr : w.manifest.nodes.lookup x = some r := hr
      rw [Manifest.nodePath, hr, ← hp]
      exact if_pos hv
    have hloaded : n₀.loaded = { n₀ with filePath := ⟨x⟩, entriesLoaded := true } := by
      rw [SSTNode.loaded, hid]
    refine Act.Spec.mono (getNode_loads hx hpath hf) ?_ fun _ _ h => h.1
    rintro _ u ⟨rfl, rfl⟩
    exact ⟨hloaded.symm, S.setNode (hloaded ▸ h)⟩

theorem nextChild_serves {k : Bytes} : ∀ (ids : List NodeId) (next : NodeId) {w : World},
    Serves w v root → (∀ c ∈ ids, ∃ m, v c = some m) →
    Act.Spec (nextChild k next ids) w
      (fun r u => r = scan v.minKey k next ids ∧ Serves u v root) StopOnly := by
  intro ids
  induction ids with
  | nil => exact fun next w S _ => Act.Spec.pure ⟨rfl, S⟩
  | cons c ids ih =>
    intro next w S h
    obtain ⟨⟨m, hm⟩, hids⟩ := List.forall_mem_cons.mp h
    refine Act.Spec.bind (getNode_serves S hm) ?_
    rintro _ u ⟨rfl, Su⟩
    rw [scan, View.minKey_some hm]
    split
    · exact ih c Su hids
    · exact Act.Spec.pure ⟨rfl, Su⟩

/-- The scan of `find_path` ends at a child. -/
theorem Shape.scan_kid {h : Nat} (H : Shape v root h) {x : NodeId} {n : SSTNode}
    {k : Bytes} (hx : v x = some n) (hl : n.level ≠ 0) :
    scan v.minKey k (n.childIds.headD invalidNodeId) n.childIds ∈ n.childIds := by
  have htwo := (H.fit hx).1 hl
  cases hk : n.childIds with
  | nil => simp [hk] at htwo
  | cons a as =>
    have : scan v.minKey k a (a :: as) ∈ a :: a :: as := scan_mem _ _
    simpa using this

/-- The loop of `find_path`. -/
theorem findPathFrom_serves {h : Nat} (H : Shape v root h) {k : Bytes} : ∀ (fuel : Nat)
    {x : NodeId} {n : SSTNode} {w : World}, Serves w v root → v x = some n → n.level < fuel →
    Act.Spec (findPathFrom k fuel x) w
      (fun r u => r = v.route k n.level x ∧ Serves u v root) StopOnly := by
  intro fuel
  induction fuel with
  | zero => exact fun _ _ h => absurd h (Nat.not_lt_zero _)
  | succ fuel ih =>
    intro x n w S hx hlt
    refine Act.Spec.bind (getNode_serves S hx) ?_
    rintro r u ⟨hr, Su⟩
    subst r
    by_cases hl : n.level = 0
    · rw [if_pos (by simp [SSTNode.isLeaf, hl]), hl]
      exact Act.Spec.pure ⟨rfl, Su⟩
    · rw [if_neg (by simp [SSTNode.isLeaf, hl])]
      obtain ⟨l, hlev⟩ := Nat.exists_eq_succ_of_ne_zero hl
      have hkids : ∀ c ∈ n.childIds, ∃ m, v c = some m := fun c hc => by
        obtain ⟨m, hm, -, -⟩ := H.child_mem hx hc
        exact ⟨m, hm⟩
      refine Act.Spec.bind (nextChild_serves n.childIds _ Su hkids) ?_
      rintro c u' ⟨hc, Su'⟩
      have hmem : c ∈ n.childIds := hc ▸ H.scan_kid hx hl
      obtain ⟨m, hm, -, hml⟩ := H.child_mem hx hmem
      refine Act.Spec.bind (ih Su' hm (by omega)) ?_
      rintro _ u'' ⟨rfl, Su''⟩
      refine Act.Spec.pure ⟨?_, Su''⟩
      rw [hlev, View.route, View.kids_some hx, ← hc, show m.level = l by omega]

/-- **`find_path`** is the walk in the view. -/
theorem findPath_serves {h : Nat} (H : Shape v root h) (S : Serves w v root) (k : Bytes) :
    Act.Spec (findPath k) w (fun r u => r = v.route k h root ∧ Serves u v root) StopOnly := by
  obtain ⟨r, hr, -, hl⟩ := H.root_some
  have hheight : w.height = h + 1 := by
    have hc : w.cache.lookup w.manifest.rootId = some r := by
      rw [show w.manifest.rootId = root from S.at_root]
      exact S.cached.trans hr
    rw [World.height, hc, ← hl]
  refine Act.Spec.world_bind ?_
  rw [hheight, show w.manifest.rootId = root from S.at_root, ← hl]
  exact findPathFrom_serves H _ S hr (Nat.lt_succ_self _)

/-- What a reader sees of an entry. -/
def Entry.shown (e : Entry) : Option Bytes :=
  if e.deleted then none else some e.value

theorem get_of_not_mightContain {n : SSTNode} {k : Bytes} (h : n.mightContain k = false) :
    n.get k = none := by
  have hb : n.buffer = [] := by
    unfold SSTNode.mightContain at h
    split at h
    · cases h
    · rename_i hb
      simpa using hb
  rw [SSTNode.get, hb]
  rfl

/-- The loop of `get`. -/
theorem searchPath_serves {k : Bytes} : ∀ (path : List NodeId) {w : World}, Serves w v root →
    (∀ x ∈ path, ∃ n, v x = some n) →
    Act.Spec (searchPath k path) w
      (fun r u => r = (v.firstVersion k path).bind Entry.shown ∧ Serves u v root) StopOnly := by
  intro path
  induction path with
  | nil => exact fun S _ => Act.Spec.pure ⟨rfl, S⟩
  | cons x path ih =>
    intro w S h
    obtain ⟨⟨n, hn⟩, hpath⟩ := List.forall_mem_cons.mp h
    refine Act.Spec.bind (getNode_serves S hn) ?_
    rintro r u ⟨hr, Su⟩
    subst r
    have hfirst : v.firstVersion k (x :: path) = (n.get k).or (v.firstVersion k path) := by
      rw [View.firstVersion, List.findSome?_cons, hn]
      cases hg : n.get k with
      | some e => simp [hg]
      | none => simp [hg, View.firstVersion]
    rw [hfirst]
    split
    · rename_i hm
      rw [get_of_not_mightContain (by simpa using hm), Option.none_or]
      exact ih Su hpath
    · cases hg : n.get k with
      | some e => exact Act.Spec.pure ⟨rfl, Su⟩
      | none => exact ih Su hpath

theorem mem_route_some {h : Nat} (H : Shape v root h) {k : Bytes} : ∀ (l : Nat) {x : NodeId}
    {n : SSTNode}, v x = some n → n.level = l → ∀ y ∈ v.route k l x, ∃ m, v y = some m := by
  intro l
  induction l with
  | zero =>
    intro x n hx _ y hy
    rw [View.route, List.mem_singleton] at hy
    exact ⟨n, hy ▸ hx⟩
  | succ l ih =>
    intro x n hx hl y hy
    rw [View.route, View.kids_some hx] at hy
    rcases List.mem_cons.mp hy with rfl | hy
    · exact ⟨n, hx⟩
    · have hmem := H.scan_kid hx (by omega) (k := k)
      obtain ⟨m, hm, -, hml⟩ := H.child_mem hx hmem
      exact ih hm (by omega) y hy

/-- **The tree part of `get`** returns the first version on the walk. -/
theorem getFromTree_serves {h : Nat} (H : Shape v root h) (S : Serves w v root) (k : Bytes) :
    Act.eval (getFromTree k) ⟨w, none⟩ =
      .ok ((v.firstVersion k (v.route k h root)).bind Entry.shown) := by
  obtain ⟨r, hr, -, hl⟩ := H.root_some
  refine Act.Spec.eval_ok (Act.Spec.bind (findPath_serves H S k) ?_)
  rintro path u ⟨hp, Su⟩
  subst path
  exact (searchPath_serves _ Su (mem_route_some H h hr hl)).mono (fun _ _ h => h.1) fun _ _ h => h

theorem entryOnPath_serves {k : Bytes} : ∀ (path : List NodeId) {w : World}, Serves w v root →
    (∀ x ∈ path, ∃ n, v x = some n) →
    Act.Spec (entryOnPath k path) w (fun r u => r = v.firstVersion k path ∧ Serves u v root)
      StopOnly := by
  intro path
  induction path with
  | nil => exact fun S _ => Act.Spec.pure ⟨rfl, S⟩
  | cons x path ih =>
    intro w S h
    obtain ⟨⟨n, hn⟩, hpath⟩ := List.forall_mem_cons.mp h
    refine Act.Spec.bind (getNode_serves S hn) ?_
    rintro r u ⟨hr, Su⟩
    subst r
    rw [View.firstVersion, List.findSome?_cons, hn, Option.bind_some]
    cases n.get k with
    | some e => exact Act.Spec.pure ⟨rfl, Su⟩
    | none => exact ih Su hpath

/-- **`find_path` and `SSTNode::get`** lead to the first version on the walk. -/
theorem findEntry_serves {h : Nat} (H : Shape v root h) (S : Serves w v root) (k : Bytes) :
    Act.eval (findEntry k) ⟨w, none⟩ = .ok (v.firstVersion k (v.route k h root)) := by
  obtain ⟨r, hr, -, hl⟩ := H.root_some
  refine Act.Spec.eval_ok (Act.Spec.bind (findPath_serves H S k) ?_)
  rintro path u ⟨hp, Su⟩
  subst path
  exact (entryOnPath_serves _ Su (mem_route_some H h hr hl)).mono (fun _ _ h => h.1) fun _ _ h => h

end Serves

/-- A tidy world serves the cache. -/
theorem Tidy.serves {w : World} {lag : Option NodeId} (_T : Tidy w lag) :
    Serves w w.view w.rest.root where
  at_root := rfl
  cached := rfl
  found h := .inl h

/-- What `find_path` and `SSTNode::get` lead to in a tidy world. -/
theorem Tidy.findEntry_eq {w : World} {lag : Option NodeId} (T : Tidy w lag) (k : Bytes) :
    Act.eval (findEntry k) ⟨w, none⟩ = .ok (w.tree.answer k) :=
  findEntry_serves T.sound.shape T.serves k

end GravTree
