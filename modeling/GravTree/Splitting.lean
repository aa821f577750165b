import GravTree.Proof.Open
import GravTree.Proof.Warm

/-!
# Splits and reads

`split_leaf` cuts a leaf's buffer in the middle by entry count, while `find_path` goes by
the right half's smallest key. If versions of one key lie on both sides of the cut, the
right half hides the newer ones; and an empty left half, whose minimum is the empty
string, takes the keys of the leaf before it. In every other split each key is answered
as before.
-/

namespace GravTree

open Forest Fence

/-- A call of `split_leaf` with the path of one of its callers, on a well-formed tree
whose files are up to date, but for the leaf's own. Every node of the tree is one that
`get_node` finds; only the root has to be loaded. -/
structure Splittable (w : World) (x : NodeId) (path : List NodeId) : Prop where
  tidy : Tidy w.warm (some x)
  root : w.view w.rest.root ≠ none
  ordered : w.warm.tree.Ordered
  layered : w.warm.tree.Layered
  leaf : ∃ n, w.warm.view x = some n ∧ n.level = 0 ∧ n.buffer ≠ []
  path : x = w.rest.root ∧ path = [x] ∨
    ∃ p m, path = [p, x] ∧ w.warm.view p = some m ∧ x ∈ m.childIds

/-- The call returns, and every key is answered as before. -/
def SplitKeeps (w : World) (x : NodeId) (path : List NodeId) : Prop :=
  ∃ u, splitLeaf x path ⟨w, none⟩ = .ok () ⟨u, none⟩ ∧
    ∀ k, Act.eval (findEntry k) ⟨u, none⟩ = Act.eval (findEntry k) ⟨w, none⟩

namespace Splittable

variable {w : World} {x : NodeId} {path : List NodeId}

/-- If everything is loaded, the call returns, and the tree gets there by steps that make no
other call. -/
theorem runs (h : Splittable w x path) : ∃ v, splitLeaf x path ⟨w.warm, none⟩ = .ok () ⟨v, none⟩ ∧
    Tidy v none ∧ Steps w.warm.tree [⟨w.warm.toStore, x, path⟩] v.tree := by
  obtain ⟨n, hn, hl, hb⟩ := h.leaf
  have hpath : x = w.warm.rest.root ∧ path.length = 1 ∨ ∃ p, path = [p, x] ∧
      p < w.warm.rest.next ∧ ∀ m, w.warm.view p = some m → x ∈ m.childIds := by
    rcases h.path with ⟨hx, hp⟩ | ⟨p, m, hp, hm, hx⟩
    · exact .inl ⟨by rw [rest_warm, hx], by rw [hp]; rfl⟩
    · refine .inr ⟨p, hp, h.tidy.sound.below hm, fun m' hm' => ?_⟩
      obtain rfl : m = m' := Option.some.inj (hm.symm.trans hm')
      exact hx
  have hspec := splitLeaf_spec h.tidy (fun y hy => (Option.some.inj hy).symm) hn hl hb hpath
  rcases hspec.undisturbed with ⟨_, v, hv, hT, ⟨cs, hs, hlog⟩, hlog', -⟩ | ⟨e, v, s, -, he⟩
  · refine ⟨v, hv, hT, ?_⟩
    have hcs : cs = [⟨w.warm.toStore, x, path⟩] := by
      have happ : cs ++ w.warm.rest.splits = [⟨w.warm.toStore, x, path⟩] ++ w.warm.rest.splits := by
        rw [← hlog, hlog']
        rfl
      exact List.append_cancel_right happ
    exact hcs ▸ hs
  · rcases he with ⟨⟨k, hk⟩, -⟩ | ⟨-, -, hlen, hstale⟩
    · cases hk
    · -- the parent is there
      rcases h.path with ⟨-, hp⟩ | ⟨p, m, hp, hm, -⟩
      · exact absurd (by rw [hp]; rfl) hlen
      · have hnone : w.warm.view p = none := by
          change w.warm.cache.lookup (path.getD (path.length - 2) invalidNodeId) = none at hstale
          rw [hp] at hstale
          exact hstale
        rw [hnone] at hm
        cases hm

theorem thaws (h : Splittable w x path) : Thaws w.frost w w.warm :=
  h.tidy.filed.thaws (fun hx => (h.tidy.sound.shape.mem_row hx).2.2) h.root

/-- Everything is loaded already. -/
theorem of_cached (T : Tidy w (some x)) (O : w.tree.Ordered) (V : w.tree.Layered)
    (hleaf : ∃ n, w.view x = some n ∧ n.level = 0 ∧ n.buffer ≠ [])
    (hpath : x = w.rest.root ∧ path = [x] ∨
      ∃ p m, path = [p, x] ∧ w.view p = some m ∧ x ∈ m.childIds) : Splittable w x path := by
  have hw := T.filed.warm_eq
  have hroot : w.view w.rest.root ≠ none := by
    obtain ⟨r, hr, -⟩ := T.sound.shape.root_some
    rw [show w.view w.rest.root = some r from hr]
    exact Option.some_ne_none r
  exact ⟨hw.symm ▸ T, hroot, hw.symm ▸ O, hw.symm ▸ V, hw.symm ▸ hleaf,
    hw.symm ▸ hpath⟩

/-- A node whose file is up to date need not be loaded, unless it is the root. -/
theorem eraseNode {y : NodeId} (h : Splittable w x path) {lag : Option NodeId}
    (L : Filed w.warm lag) (hlag : lag ≠ some y) (hy : w.rest.root ≠ y) :
    Splittable (w.eraseNode y) x path := by
  have ht := L.tree_eraseNode hlag
  have hview : (w.eraseNode y).warm.view = w.warm.view := congrArg Tree.view ht
  have hroot := view_eraseNode (w := w) hy
  exact ⟨(L.calm_eraseNode hlag).tidy h.tidy, hroot ▸ h.root, ht.symm ▸ h.ordered,
    ht.symm ▸ h.layered, hview.symm ▸ h.leaf, hview.symm ▸ h.path⟩

end Splittable

/-- **A fair split keeps the reads** of every key of the tree. -/
theorem splitKeeps_of_fair (w : World) (x : NodeId) (path : List NodeId)
    (h : Splittable w x path) (hF : SplitCall.Fair ⟨w.warm.toStore, x, path⟩) :
    SplitKeeps w x path := by
  obtain ⟨v, hv, Tv, hs⟩ := h.runs
  obtain ⟨u, G, hu, T⟩ := (melts_splitLeaf x path).run h.thaws hv
  refine ⟨u, hu, fun k => ?_⟩
  -- the run where everything is loaded makes no other call
  have hfair : ∀ c ∈ [(⟨w.warm.toStore, x, path⟩ : SplitCall)], c.Fair := by
    simpa using hF
  rw [T.findEntry_eq Tv, h.thaws.findEntry_eq h.tidy, Tv.findEntry_eq, h.tidy.findEntry_eq,
    hs.answer h.tidy.sound h.ordered h.layered hfair k]

/-- A fresh tree with some entries in its root. -/
def World.sown (es : List Entry) : World := (World.opened fun _ => (64, 7)).merged es

theorem tidy_sown (es : List Entry) : Tidy (World.sown es) (some 1) :=
  ((tidy_opened fun _ => (64, 7)).lag _).merged

theorem splittable_sown {es : List Entry} (h : es ≠ []) : Splittable (World.sown es) 1 [1] := by
  have B := blank_opened fun _ => (64, 7)
  have hroot : (World.opened fun _ => (64, 7)).rest.root = 1 := rfl
  obtain ⟨r, hr, -, hl, -, hb⟩ := B.root
  have hfill : Fills (World.opened fun _ => (64, 7)).tree (World.sown es).tree r es :=
    fills_merged hr
  refine .of_cached (tidy_sown es) (hfill.ordered B.sound B.ordered)
    (hfill.layered B.sound B.layered fun _ _ e' he' => absurd he' (B.not_stored e')) ?_
    (.inl ⟨?_, rfl⟩)
  · refine ⟨_, node_merged hr, hl, ?_⟩
    rw [hb, List.nil_append]
    intro hnil
    have hperm := stableSort_perm es
    rw [show stableSort es = [] from hnil] at hperm
    exact h hperm.nil_eq.symm
  · rw [World.sown, rest_merged]
    exact hroot.symm

/-- The tree of two leaves that share some entries. -/
def World.halves (es : List Entry) : World := Act.exec (splitLeaf 1 [1]) ⟨World.sown es, none⟩

theorem tidy_halves {es : List Entry} (hne : es ≠ [])
    (hF : SplitCall.Fair ⟨(World.sown es).toStore, 1, [1]⟩) : Tidy (World.halves es) none ∧
      (World.halves es).tree.Ordered ∧ (World.halves es).tree.Layered := by
  have h := splittable_sown hne
  obtain ⟨u, hu, T, hs⟩ := h.runs
  -- a fresh tree is loaded
  rw [(tidy_sown es).filed.warm_eq] at hu hs
  have hfair : ∀ c ∈ [(⟨(World.sown es).toStore, 1, [1]⟩ : SplitCall)], c.Fair := by
    simpa using hF
  have hO : (World.sown es).tree.Ordered := (tidy_sown es).filed.warm_eq ▸ h.ordered
  have hV : (World.sown es).tree.Layered := (tidy_sown es).filed.warm_eq ▸ h.layered
  have hrun : World.halves es = u := by rw [World.halves, Act.exec, hu]
  rw [hrun]
  exact ⟨T, hs.ordered (tidy_sown es).sound hO hfair,
    hs.layered (tidy_sown es).sound hO hV hfair⟩

/-- The sequence number of the entry that answers. -/
def seqFound (w : World) (key : Bytes) : Option SequenceNumber :=
  (Act.eval (findEntry key) ⟨w, none⟩).toOption.join.map (·.seqNo)

theorem not_splitKeeps {w : World} {x : NodeId} {path : List NodeId} {k : Bytes}
    (h : seqFound (Act.exec (splitLeaf x path) ⟨w, none⟩) k ≠ seqFound w k) :
    ¬ SplitKeeps w x path := by
  intro hkeep
  obtain ⟨u, hu, hk⟩ := hkeep
  refine h ?_
  rw [Act.exec, hu, seqFound, seqFound, hk]

/-- Two versions of a key, one in each half: afterwards the older one answers. -/
theorem splitKeeps_straddled : ∃ w x path, Splittable w x path ∧ ¬ SplitKeeps w x path := by
  refine ⟨World.sown [{ key := .byte 1, seqNo := 1 }, { key := .byte 1, seqNo := 2 }], 1, [1],
    splittable_sown (by simp), not_splitKeeps (k := .byte 1) ?_⟩
  decide +kernel

/-- Writes of some keys. -/
def puts (keys : List UInt8) : List Entry :=
  keys.map fun k => { key := .byte k, seqNo := Fin.ofNat _ k.toNat }

theorem splittable_halves {es : List Entry} (T : Tidy (World.halves es) none)
    (O : (World.halves es).tree.Ordered) (V : (World.halves es).tree.Layered) {x p : NodeId}
    (hleaf : ((World.halves es).view x).any fun n => n.level = 0 ∧ n.buffer.length ≠ 0)
    (hparent : ((World.halves es).view p).any fun m => x ∈ m.childIds) :
    Splittable (World.halves es) x [p, x] := by
  obtain ⟨n, hn, hnp⟩ := (Option.any_eq_true _ _).mp hleaf
  obtain ⟨m, hm, hmp⟩ := (Option.any_eq_true _ _).mp hparent
  obtain ⟨hl, hb⟩ := of_decide_eq_true hnp
  refine .of_cached (T.lag _) O V ⟨n, hn, hl, fun hnil => ?_⟩
    (.inr ⟨p, m, rfl, hm, of_decide_eq_true hmp⟩)
  exact hb (by rw [hnil]; rfl)

/-- One key in each leaf. -/
theorem tidy_two : Tidy (World.halves (puts [1, 2])) none ∧
    (World.halves (puts [1, 2])).tree.Ordered ∧ (World.halves (puts [1, 2])).tree.Layered :=
  tidy_halves (by simp [puts]) (by decide +kernel)

/-- A leaf of one entry with a leaf to its left: afterwards the other leaf's key is gone. -/
theorem splitKeeps_hollow : ∃ w x path, Splittable w x path ∧ ¬ SplitKeeps w x path := by
  obtain ⟨T, O, V⟩ := tidy_two
  exact ⟨_, 3, [4, 3], splittable_halves T O V (by decide +kernel) (by decide +kernel),
    not_splitKeeps (k := .byte 1) (by decide +kernel)⟩

/-- The tree of four keys in two leaves, neither of which is loaded. -/
def World.unloaded : World := ((World.halves (puts [1, 2, 3, 4])).eraseNode 2).eraseNode 3

theorem splittable_unloaded : Splittable World.unloaded 3 [4, 3] := by
  obtain ⟨T, O, V⟩ := @tidy_halves (puts [1, 2, 3, 4]) (by simp [puts]) (by decide +kernel)
  have hroot : (World.halves (puts [1, 2, 3, 4])).rest.root = 4 := by decide +kernel
  have hw := T.filed.warm_eq
  have h := splittable_halves (x := 3) (p := 4) T O V (by decide +kernel) (by decide +kernel)
  have F : Filed (World.halves (puts [1, 2, 3, 4])).warm none := hw.symm ▸ T.filed
  have h₂ : (none : Option NodeId) ≠ some 2 := (Option.some_ne_none 2).symm
  refine (h.eraseNode F h₂ ?_).eraseNode ((F.calm_eraseNode h₂).filed F)
    (Option.some_ne_none 3).symm ?_
  · rw [hroot]
    decide
  · rw [World.rest_eraseNode, hroot]
    decide

/-- The second leaf is read from its file, and split into two leaves of one key. -/
theorem splitKeeps_unloaded : SplitKeeps World.unloaded 3 [4, 3] :=
  splitKeeps_of_fair _ 3 [4, 3] splittable_unloaded (by decide +kernel)

end GravTree
