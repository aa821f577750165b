import GravTree.Interleavings

/-!
# The tree is balanced

All leaves are on one level, and above it every node has two children at least. Leaves come
from splits alone, one from each. So a lookup, which visits one node of every level, visits no
more of them than the logarithm of the number of splits allows.
-/

namespace GravTree

open Forest State

/-! ## Two children -/

/-- Every node above the leaves has two children. -/
def Tree.Bushy (t : Tree) : Prop :=
  ∀ x n, t.view x = some n → n.level ≠ 0 → 2 ≤ n.childIds.length

/-- The nodes of the lowest level, left to right. -/
def Tree.leaves (t : Tree) : List NodeId := t.view.row t.root t.height

variable {t t' : Tree}

namespace Step

variable {cs : List SplitCall}

theorem bushy (h : Step t cs t') (S : t.Sound) (B : t.Bushy) : t'.Bushy := by
  have hsplit : ∀ {x a b : NodeId} {n na nb : SSTNode} {L R : List Entry},
      Splits t t' x a b n na nb L R → t'.Bushy := by
    intro x a b n na nb L R P z m' hz hl
    rcases P.origin hz with ⟨-, rfl⟩ | ⟨-, rfl⟩ | ⟨hx, rfl⟩ | ⟨-, m, hm, rfl⟩
    · exact (P.two (P.level_a ▸ hl)).1
    · exact (P.two (P.level_b ▸ hl)).2
    · rcases P.root with ⟨hne, -⟩ | ⟨-, -, -, -, -, r, hr, -, -, hk, -⟩
      · exact absurd hx hne
      · obtain rfl : r = m' := Option.some.inj (hr.symm.trans hz)
        rw [hk]
        exact le_rfl
    · exact (B _ m hm hl).trans (length_le_flatMap_splitAt x a b m.childIds)
  cases h with
  | skip => exact B
  | @revise _ x n n' R =>
    intro z m' hz hl
    rw [R.view] at hz
    by_cases hzx : z = x
    · subst hzx
      obtain rfl : n' = m' := by simpa using hz
      rw [R.kids]
      exact B _ n R.here (R.level ▸ hl)
    · exact B z m' (by simpa [hzx] using hz) hl
  | push P =>
    intro z m' hz hl
    rcases P.origin hz with ⟨-, rfl⟩ | ⟨c, hc, -, rfl⟩ | ⟨-, -, hz⟩
    · rw [P.kids, List.length_map]
      exact B _ _ P.here P.inner
    · obtain ⟨m, hm, -, -⟩ := S.shape.child_mem P.here hc
      obtain ⟨hlevel, hkids⟩ := P.child c hc m hm
      rw [hkids]
      exact B c m hm (hlevel ▸ hl)
    · exact B z m' hz hl
  | splitLeaf P => exact hsplit P
  | splitNode P => exact hsplit P

/-! ## One leaf more -/

end Step

/-- A node written again keeps its children and its level. -/
theorem Revises.outline {x : NodeId} {n n' : SSTNode} (R : Revises t t' x n n') :
    t'.view.kids = t.view.kids ∧ t'.height = t.height := by
  refine ⟨funext fun y => ?_, ?_⟩
  · rw [View.kids, R.view]
    by_cases hyx : y = x
    · subst hyx
      rw [Function.update_self, View.kids_some R.here]
      exact R.kids
    · rw [Function.update_of_ne hyx]
      rfl
  · rw [Tree.height, Tree.height, R.root, R.view]
    by_cases hx : t.root = x
    · subst hx
      rw [Function.update_self, R.here]
      exact R.level
    · rw [Function.update_of_ne hx]

namespace Step

variable {cs : List SplitCall}

/-- **Only the split of a leaf** changes the number of leaves. -/
theorem length_leaves (h : Step t cs t') (S : t.Sound) :
    t'.leaves.length = t.leaves.length + cs.length := by
  have hsplit : ∀ {x a b : NodeId} {n na nb : SSTNode} {L R : List Entry},
      Splits t t' x a b n na nb L R → t'.leaves = t.leaves.flatMap (splitAt x a b) := by
    intro x a b n na nb L R P
    by_cases hx : x = t.root
    · -- the old levels are one further down
      obtain ⟨hkids, H⟩ := P.shape_root S hx
      rw [Tree.leaves, Tree.height_eq H]
      refine (P.replaces S).row_grow S.shape ?_ t.height
      rw [hkids, hx, splitAt_self]
    · obtain ⟨-, H⟩ := P.shape_below S hx
      have hroot : t'.root = t.root := (P.shape_below S hx).1
      rw [Tree.leaves, Tree.height_eq H]
      refine (P.replaces S).row S.shape ?_ t.height
      rw [splitAt_ne a b (Ne.symm hx), hroot]
  cases h with
  | skip => rfl
  | revise R =>
    obtain ⟨hkids, hheight⟩ := R.outline
    rw [Tree.leaves, View.row, hkids, R.root, hheight]
    rfl
  | @push _ _ n _ f P =>
    -- every node of the row is replaced by one node
    have hroot : [Pushes.ren n f t.root] = [t'.root] := by
      rw [Pushes.ren_other (P.root_calm S), P.root]
    have hrow := (P.replaces S).row S.shape hroot t.height
    rw [Tree.leaves, Tree.height_eq (P.shape S), hrow, ← List.map_eq_flatMap, List.length_map]
    rfl
  | @splitLeaf _ x a b n na nb L R c P hl _ _ =>
    have hx : x ∈ t.leaves := (S.shape.mem_row_iff P.here).mpr (by rw [hl, Nat.zero_add])
    rw [hsplit P, length_flatMap_splitAt a b hx (S.shape.nodup _)]
    rfl
  | @splitNode _ x a b n na nb L R P hl =>
    have hx : x ∉ t.leaves := fun hx => hl (by
      have := (S.shape.mem_row_iff P.here).mp hx
      omega)
    rw [hsplit P, flatMap_splitAt_of_notMem hx]
    rfl

end Step

theorem Steps.bushy {cs : List SplitCall} (h : Steps t cs t') (S : t.Sound) (B : t.Bushy) :
    t'.Bushy := by
  induction h with
  | refl => exact B
  | tail hs h ih => exact h.bushy (hs.sound S) ih

theorem Steps.length_leaves {cs : List SplitCall} (h : Steps t cs t') (S : t.Sound) :
    t'.leaves.length = t.leaves.length + cs.length := by
  induction h with
  | refl => rfl
  | tail hs h ih =>
    rw [h.length_leaves (hs.sound S), ih, List.length_append]
    omega

/-- The lowest level is the widest. -/
theorem Tree.Bushy.two_pow_le (B : t.Bushy) (S : t.Sound) : 2 ^ t.height ≤ t.leaves.length := by
  refine pow_le_length_level (h := t.height) (fun d hd x hx => ?_) t.height le_rfl
  obtain ⟨n, hn, -, hl⟩ := S.shape.node hx
  rw [View.kids_some hn]
  exact B x n hn (by omega)

/-! ## Runs -/

/-- Every node above the leaves has two children, and there are no more leaves than splits. -/
structure Balanced (w : World) : Prop where
  bushy : w.tree.Bushy
  leaves : w.tree.leaves.length ≤ w.rest.splits.length + 1

variable {n : Nat} {o : Options} {s u : State n}

theorem Balanced.start (n : Nat) (sizing : Sizing) : Balanced (State.start n sizing).world := by
  show Balanced (Db.start sizing).world
  rw [start_world]
  have B := blank_opened sizing
  refine ⟨fun x m hx hl => ?_, ?_⟩
  · obtain ⟨r, hr, -, hlevel, -⟩ := B.root
    rw [B.only hx, hr] at hx
    cases hx
    exact absurd hlevel hl
  · obtain ⟨r, hr, -, hlevel, -⟩ := B.root
    rw [Tree.leaves, B.row]
    split <;> simp

/-- What is drained makes a leaf for each split. -/
theorem Balanced.drained {w v : World} (B : Balanced w) (T : Tidy w (some w.rest.root))
    {es : List Entry} (D : Drained w es v) : Balanced v := by
  obtain ⟨cs, hs, l, hl⟩ := D.steps
  obtain ⟨m, hm⟩ := T.merged_tree es
  have S := hm.sound T.sound
  have hheight : (w.merged es).tree.height = w.tree.height := by
    rw [Tree.height, hm.root, hm.at_root, Tree.height, hm.here]
    rfl
  have hbushy : (w.merged es).tree.Bushy := fun x k hx hlevel => by
    rw [hm.view] at hx
    by_cases hroot : x = w.tree.root
    · subst hroot
      rw [Function.update_self] at hx
      cases hx
      exact B.bushy _ m hm.here hlevel
    · rw [Function.update_of_ne hroot] at hx
      exact B.bushy x k hx hlevel
  refine ⟨hs.bushy S hbushy, ?_⟩
  rw [hs.length_leaves S, Tree.leaves, hm.row, hheight, hl, List.length_append, List.length_append]
  have := B.leaves
  rw [Tree.leaves] at this
  omega

/-- **One step.** -/
theorem Balanced.step (B : Balanced s.world) (C : Conserved s) {e : Event n} (hok : s.Mends o e)
    (hs : s.step o e = some u) (hA : Attached u.world.rest.splits) : Balanced u.world := by
  rcases C.drained hok hs hA with h | ⟨es, D⟩
  · exact h ▸ B
  · exact B.drained C.tidy D

theorem Balanced.reach (sizing : Sizing)
    (h : System.Reach (State.step o) (State.Mends o) (State.start n sizing) s)
    (hA : Attached s.world.rest.splits) : Balanced s.world := by
  have hinv := h.inv (fun s => Attached s.world.rest.splits → Conserved s ∧ Balanced s.world)
    (fun _ => ⟨.start n sizing, .start n sizing⟩) fun s e t ih hok hs hA => by
      obtain ⟨-, l, hl⟩ := State.step_grows hs
      obtain ⟨C, B⟩ := ih (hl ▸ hA).of_append
      exact ⟨C.step hok hs hA, B.step C hok hs hA⟩
  exact (hinv hA).2

/-! ## Lookups -/

/-- The nodes of the lowest level, found with `get_node`. -/
def World.leaves (w : World) : List NodeId := level w.kids w.manifest.rootId (w.height - 1)

theorem View.length_route (v : View) (k : Bytes) : ∀ (h : Nat) (x : NodeId),
    (v.route k h x).length = h + 1
  | 0, _ => rfl
  | h + 1, x => by rw [View.route, List.length_cons, v.length_route k h]

theorem Tidy.height {w : World} {lag : Option NodeId} (T : Tidy w lag) :
    w.height = w.tree.height + 1 := by
  obtain ⟨r, hr⟩ := T.sound.root_some
  have hr' : w.cache.lookup w.manifest.rootId = some r := hr
  rw [World.height, hr', Tree.height, hr]
  rfl

theorem Tidy.leaves {w : World} {lag : Option NodeId} (T : Tidy w lag) :
    w.leaves = w.tree.leaves := by
  rw [World.leaves, T.kids, T.height]
  rfl

theorem Tidy.findPath_length {w : World} {lag : Option NodeId} (T : Tidy w lag) (key : Bytes) :
    ∃ path, Act.eval (findPath key) ⟨w, none⟩ = .ok path ∧ path.length = w.height := by
  refine ⟨w.view.route key w.tree.height w.rest.root, ?_, ?_⟩
  · exact Act.Spec.eval_ok ((findPath_serves T.sound.shape T.serves key).mono
      (fun _ _ h => h.1) fun _ _ h => h)
  · rw [View.length_route, T.height]

/-- **The tree is balanced**: every lookup visits one node of each level, the levels at least
double, and there are no more leaves than splits. -/
theorem balanced_reach (o : Options) (sizing : Sizing)
    (h : System.Reach (State.step o) (State.Mends o) (State.start n sizing) s)
    (hA : Attached s.world.splits) :
    (∀ key, ∃ path, Act.eval (findPath key) ⟨s.world, none⟩ = .ok path ∧
      path.length = s.world.height) ∧
    2 ^ s.world.height ≤ 2 * s.world.leaves.length ∧
      s.world.leaves.length ≤ s.world.splits.length + 1 := by
  have T := (Conserved.reach sizing h hA).tidy
  have B : Balanced s.world := .reach sizing h hA
  refine ⟨T.findPath_length, ?_, T.leaves ▸ B.leaves⟩
  rw [T.height, T.leaves, pow_succ, mul_comm]
  exact Nat.mul_le_mul_left 2 (B.bushy.two_pow_le T.sound)

/-- Two clients fill the root twice. First the root is split, then the leaf it was pushed to. -/
def splitting : List (Event 2) :=
  List.flatten [
    .call one (.insert (.byte 10) (.zeros (2 ^ 21))) :: List.replicate 3 (.client one none none),
    .call two (.insert (.byte 20) (.zeros (2 ^ 21))) :: List.replicate 5 (.client two none none),
    List.replicate 6 (.flusher none),
    .call one (.insert (.byte 12) (.zeros (2 ^ 21))) :: List.replicate 3 (.client one none none),
    .call two (.insert (.byte 14) (.zeros (2 ^ 21))) :: List.replicate 5 (.client two none none),
    List.replicate 8 (.flusher none)]

theorem balanced_reach_splitting : ∃ s : State 2, s.world.splits.length = 2 ∧
    s.world.leaves.length = 3 ∧
    (∀ key, ∃ path, Act.eval (findPath key) ⟨s.world, none⟩ = .ok path ∧
      path.length = s.world.height) ∧
    2 ^ s.world.height ≤ 2 * s.world.leaves.length ∧
      s.world.leaves.length ≤ s.world.splits.length + 1 := by
  have hrun : ((System.runOk (State.step ⟨2 ^ 22, 2 ^ 30⟩) (State.Mends ⟨2 ^ 22, 2 ^ 30⟩)
      (State.start 2 fun _ => (64, 7)) splitting).any fun s =>
        decide (s.world.splits.length = 2) && decide (s.world.leaves.length = 3) &&
          decide (Attached s.world.splits)) = true := by
    decide +kernel
  obtain ⟨s, hs, hp⟩ := (Option.any_eq_true _ _).mp hrun
  simp only [Bool.and_eq_true, decide_eq_true_eq] at hp
  obtain ⟨⟨hsplits, hleaves⟩, hA⟩ := hp
  exact ⟨s, hsplits, hleaves, balanced_reach _ _ (System.reach_runOk hs) hA⟩

end GravTree
