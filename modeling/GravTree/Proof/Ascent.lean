import GravTree.Proof.Halved
import GravTree.Proof.Levels
import GravTree.Proof.Provenance

/-!
# The way up ends

`split_leaf` and `insert_child` cut a node and go on with its parent, or with a new root.
Here the two are taken apart at that point: what comes before is one cut of the outline,
and what follows is on a level one higher.
-/

namespace GravTree

open Graded

/-! ## What the pieces do to the outline -/

section Pieces

variable {o : Prop} {K : Outline}

theorem leaves_finishParent {p : NodeId} (L : o → K.Loose o) (hk : K.known p) (hp : p < K.next)
    (hs : ¬ K.stale p) :
    Leaves o K (finishParent p) K fun _ => True := by
  refine .bind (leaves_getNode L p) fun n _ => ?_
  split
  · exact .bind (leaves_spanKeyRange L n) fun _ _ =>
      .bind (.update fun _ S => S.modifyNode p (fun _ => ⟨rfl, rfl, rfl⟩) fun _ _ h => h) fun _ _ =>
      leaves_rewrite L hk hp hs
  · exact leaves_rewrite L hk hp hs

theorem leaves_growRoot {level a b : Nat} (hk : ¬ K.known K.next) (hd : ¬ K.dry K.next)
    (hs : ¬ K.stale K.next) (ha : K.held a) (hb : K.held b) :
    Leaves o K (growRoot level a b) (K.grow level a b) fun _ => True := by
  refine .bind leaves_nextNodeId fun r hr => ?_
  subst hr
  have hlt : K.next < K.take.next := Nat.lt_succ_self _
  refine .bind (leaves_create hk hd hlt two_le_maxFanout) fun n hn => ?_
  obtain ⟨hid, hknot, -, hbuf⟩ := hn
  have hnk : n.childIds = [a, b] := congrArg Knot.kids hknot
  have hspan : Leaves o K.take (spanKeyRange n) K.take fun _ => True := by
    unfold spanKeyRange
    rw [hnk]
    exact .bind (leaves_getNode_held ha) fun _ _ => .bind (leaves_getNode_held hb) fun _ _ =>
      .pure trivial
  refine .bind hspan fun range _ => ?_
  refine .bind (leaves_flushToDisk (n := { n with keyRange := range })
    ⟨fun h => absurd (hid ▸ h) hk, fun h => absurd (hid ▸ h) hd⟩ (hid.trans_lt hlt)) fun m hm => ?_
  obtain ⟨hid', hknot', hpath, hbuf'⟩ := hm
  have hmid : m.id = K.next := hid'.trans hid
  have hmk : m.knot = ⟨level, [a, b]⟩ := hknot'.trans hknot
  have hmpath : m.filePath = ⟨K.next⟩ := hpath.trans (congrArg FilePath.mk hid)
  refine .bind (leaves_registerNode hmpath hk hd hs hlt) fun _ _ => ?_
  intro w S
  refine Act.Spec.update_bind (Act.Spec.update ⟨?_, trivial⟩)
  have hkids : m.childIds = [a, b] := congrArg Knot.kids hmk
  have S' := (S.setRoot K.next).put (d := True) hmid (hkids ▸ two_le_maxFanout) hlt
    fun _ => hbuf' (hbuf rfl)
  refine S'.weaken rfl rfl (fun y hy => S'.held hy) (fun y hy => ⟨hy, ?_⟩) (fun y hy => hy)
    fun y hy => ?_
  · rw [hmk]
    simp only [Outline.grow, Outline.put, Outline.take, Function.update_apply]
  · by_cases h : y = K.next
    · exact .inl ⟨h, trivial⟩
    · exact .inr ⟨h, hy.resolve_right h⟩

/-- The halves are in the cache and the node is gone. -/
theorem Shows.cut {w : World} {x level : Nat} {lk rk : List NodeId}
    (S : Shows ((((K.take.take.retire x).put K.next ⟨level, lk⟩ (K.dry x)).put (K.next + 1)
      ⟨level, rk⟩ (K.dry x)).drop x) w) (hx : x < K.next) (hdry : ∀ y, K.dry y → y < K.next)
    (hfresh : ∀ y, ¬ K.stale y) : Shows (K.cut x level lk rk) w := by
  have hxa : K.next ≠ x := hx.ne'
  have hxb : K.next + 1 ≠ x := (hx.trans (Nat.lt_succ_self _)).ne'
  have hne : K.next + 1 ≠ K.next := Nat.succ_ne_self _
  refine S.weaken rfl rfl (fun y hy => S.held ?_) (fun y hy => ⟨.inl (or_assoc.mpr hy), ?_⟩)
    (fun y hy => absurd hy (hfresh y)) fun y hy => ?_
  · rcases hy with ⟨hy, hyx⟩ | rfl | rfl
    · exact ⟨.inl (.inl hy), hyx⟩
    · exact ⟨.inl (.inr rfl), hxa⟩
    · exact ⟨.inr rfl, hxb⟩
  · simp only [Outline.cut, Outline.put, Outline.drop, Outline.retire, Outline.take,
      Function.update_apply]
    by_cases h : y = K.next
    · simp [h]
    · simp [h]
  · show y = K.next + 1 ∧ K.dry x ∨ y ≠ K.next + 1 ∧ (y = K.next ∧ K.dry x ∨ y ≠ K.next ∧ K.dry y)
    rcases hy with hy | ⟨hd, rfl | rfl⟩
    · have hlt := hdry y hy
      exact .inr ⟨(hlt.trans (Nat.lt_succ_self _)).ne, .inr ⟨hlt.ne, hy⟩⟩
    · exact .inr ⟨hne.symm, .inl ⟨rfl, hd⟩⟩
    · exact .inl ⟨rfl, hd⟩

theorem leaves_cutLeaf (F : K.Full o) {x : NodeId} (hx : x < K.next) (path : List NodeId) :
    Leaves o K (cutLeaf x path) (K.cut x 0 [] []) fun h => h = (K.next, K.next + 1) := by
  have L := F.toLoose
  have hk : ∀ {y}, K.next ≤ y → ¬ K.known y := fun hy => (L.unknown hy).1
  have hd : ∀ {y}, K.next ≤ y → ¬ K.dry y := fun hy => (L.unknown hy).2
  have hnil : ([] : List NodeId).length ≤ maxFanout := Nat.zero_le _
  have hlta : K.next < K.take.take.next := (Nat.lt_succ_self _).trans (Nat.lt_succ_self _)
  have hltb : K.next + 1 < K.take.take.next := Nat.lt_succ_self _
  unfold cutLeaf
  refine .bind (leaves_getNode (fun _ => L) x) fun _ _ => ?_
  refine .bind (.update fun _ S => ⟨S.root, S.next, S.held, S.cell⟩) fun _ _ => ?_
  refine .bind (.update fun _ S => S.modifyNode x (fun _ => ⟨rfl, rfl, rfl⟩) fun _ n hb => ?_)
    fun _ _ => ?_
  · show stableSort n.buffer = []
    rw [hb]
    rfl
  refine .bind (leaves_getNode (fun _ => L) x) fun leaf hleaf => .bind leaves_nextNodeId fun a ha => ?_
  subst ha
  refine .bind leaves_nextNodeId fun b hb => ?_
  subst hb
  refine .bind (leaves_create (hk le_rfl) (hd le_rfl) hlta hnil) fun na hna => ?_
  refine .bind (leaves_create (hk (Nat.le_succ _)) (hd (Nat.le_succ _)) hltb hnil) fun nb hnb => ?_
  obtain ⟨hida, hka, hpa, hba⟩ := hna
  obtain ⟨hidb, hkb, hpb, hbb⟩ := hnb
  refine .bind (leaves_registerNode hpa (hk le_rfl) (hd le_rfl) (F.fresh _) hlta) fun _ _ => ?_
  refine .bind (leaves_registerNode hpb (hk (Nat.le_succ _)) (hd (Nat.le_succ _)) (F.fresh _) hltb)
    fun _ _ => ?_
  refine .bind (.update fun _ S => S.invalidateNode x) fun _ _ => ?_
  have hca : na.childIds = [] := congrArg Knot.kids hka
  have hcb : nb.childIds = [] := congrArg Knot.kids hkb
  refine .bind (.update fun _ S => S.put (d := K.dry x) hida (hca ▸ hnil) hlta fun hx =>
    hba (by rw [hleaf.dry hx, List.take_nil])) fun _ _ => ?_
  refine .bind (.update fun _ S => S.put (d := K.dry x) hidb (hcb ▸ hnil) hltb fun hx =>
    hbb (by rw [hleaf.dry hx, List.drop_nil])) fun _ _ => ?_
  refine .bind (.update fun _ S => S.drop (.inr rfl)) fun _ _ => ?_
  intro w S
  refine Act.Spec.pure ⟨?_, rfl⟩
  rw [hka, hkb] at S
  exact Shows.cut S hx (fun y hy => L.known y (L.dry y hy)) F.fresh

theorem leaves_cutParent {p x l r : NodeId} (F : (K.link p x l r).Full o) (L : K.Loose o)
    {parent : SSTNode} (hk : K.known p) (hp : parent.Found K p)
    (hfull : maxFanout ≤ parent.childIds.length) :
    Leaves o K (cutParent parent x l r) (K.cut p parent.level
        ((replaceChild x l r parent.childIds).take ((replaceChild x l r parent.childIds).length / 2))
        ((replaceChild x l r parent.childIds).drop ((replaceChild x l r parent.childIds).length / 2)))
      fun h => h.1 = K.next ∧ h.2.1 = K.next + 1 ∧
        Leads (K.link p x l r).graph p K.root h.2.2 := by
  have hpu := hp.under hk
  obtain ⟨ks, hks⟩ : ∃ ks, ks = replaceChild x l r parent.childIds := ⟨_, rfl⟩
  have hlen : ks.length ≤ maxFanout + 1 := by
    have := length_replaceChild_le x l r parent.childIds
    have := hpu.fanout
    rw [hks]
    omega
  have htake : (ks.take (ks.length / 2)).length ≤ maxFanout := by
    rw [List.length_take]
    omega
  have hdrop : (ks.drop (ks.length / 2)).length ≤ maxFanout := by
    rw [List.length_drop]
    have hfan : maxFanout = 16 := rfl
    omega
  have hun : ∀ {y}, K.next ≤ y → ¬ K.known y := fun hy => (L.unknown hy).1
  have hnd : ∀ {y}, K.next ≤ y → ¬ K.dry y := fun hy => (L.unknown hy).2
  have hlta : K.next < K.take.take.next := (Nat.lt_succ_self _).trans (Nat.lt_succ_self _)
  have hltb : K.next + 1 < K.take.take.next := Nat.lt_succ_self _
  -- the graph that the parent should show
  have hgraph : ∀ y, y ≠ p → K.take.take.graph y = (K.link p x l r).graph y := by
    intro y hy
    show K.graph y = if y = p then _ else K.graph y
    rw [if_neg hy]
  have hat : (K.link p x l r).graph p ≠ none := by
    show (if p = p then (K.graph p).map _ else K.graph p) ≠ none
    rw [if_pos rfl, hpu.knot]
    exact Option.some_ne_none _
  have hbuf : ∀ q : Entry → Prop, ∀ [DecidablePred q], K.dry p → parent.buffer.filter q = [] :=
    fun q _ hd => by rw [hp.dry hd, List.filter_nil]
  have L₂ := L.take.take
  unfold cutParent
  dsimp only
  rw [hpu.id, ← hks]
  refine .bind (leaves_getNode (fun _ => L) _) fun front _ => .bind leaves_nextNodeId fun a ha => ?_
  subst ha
  refine .bind leaves_nextNodeId fun b hb => ?_
  subst hb
  refine .bind (leaves_create (hun le_rfl) (hnd le_rfl) hlta htake) fun ca hca => ?_
  refine .bind (leaves_create (hun (Nat.le_succ _)) (hnd (Nat.le_succ _)) hltb hdrop) fun cb hcb => ?_
  refine .bind (leaves_spanKeyRange (fun _ => L₂) _) fun lrange _ =>
    .bind (leaves_spanKeyRange (fun _ => L₂) _) fun rrange _ => ?_
  refine .bind (leaves_flushToDisk (n := { ca with keyRange := lrange })
    ⟨fun h => absurd (hca.1 ▸ h) (hun le_rfl), fun h => absurd (hca.1 ▸ h) (hnd le_rfl)⟩
    (hca.1.trans_lt hlta)) fun na hna => ?_
  have hunb : ¬ K.known cb.id ∧ ¬ K.dry cb.id := by
    rw [hcb.1]
    exact L.unknown (Nat.le_succ _)
  refine .bind (leaves_flushToDisk (n := { cb with keyRange := rrange })
    ⟨fun h => absurd h hunb.1, fun h => absurd h hunb.2⟩ (hcb.1.trans_lt hltb)) fun nb hnb => ?_
  have hida : na.id = K.next := hna.1.trans hca.1
  have hidb : nb.id = K.next + 1 := hnb.1.trans hcb.1
  have hka : na.knot = ⟨parent.level, ks.take (ks.length / 2)⟩ := hna.2.1.trans hca.2.1
  have hkb : nb.knot = ⟨parent.level, ks.drop (ks.length / 2)⟩ := hnb.2.1.trans hcb.2.1
  have hpa : na.filePath = ⟨K.next⟩ := hna.2.2.1.trans (congrArg FilePath.mk hca.1)
  have hpb : nb.filePath = ⟨K.next + 1⟩ := hnb.2.2.1.trans (congrArg FilePath.mk hcb.1)
  have hba : K.dry p → na.buffer = [] := fun hd => hna.2.2.2 (hca.2.2.2 (hbuf _ hd))
  have hbb : K.dry p → nb.buffer = [] := fun hd => hnb.2.2.2 (hcb.2.2.2 (hbuf _ hd))
  refine .bind (pathTo_leads (fun _ => L₂) F.tree hgraph (fun hy c hc => (F.knows hy).2 c hc) ?_
    L.held hat)
    fun path hpath => ?_
  · obtain ⟨n, hn⟩ := F.tree.root
    exact (F.knows hn).1
  have hplt : p < K.next := L.known p hk
  have hs : ∀ y, ¬ K.take.take.stale y := F.fresh
  refine .bind (.update fun _ S => S.invalidateNode p) fun _ _ => ?_
  have hsa : ∀ {y}, K.next ≤ y → ¬ (K.take.take.retire p).stale y := fun hy h =>
    h.elim (hs _) fun heq => Nat.not_lt_of_ge hy (heq ▸ hplt)
  refine .bind (leaves_registerNode hpa (hun le_rfl) (hnd le_rfl) (hsa le_rfl) hlta) fun _ _ => ?_
  refine .bind (leaves_registerNode hpb (hun (Nat.le_succ _)) (hnd (Nat.le_succ _))
    (hsa (Nat.le_succ _)) hltb) fun _ _ => ?_
  have hla : na.childIds.length ≤ maxFanout := (congrArg (·.kids.length) hka).trans_le htake
  have hlb : nb.childIds.length ≤ maxFanout := (congrArg (·.kids.length) hkb).trans_le hdrop
  refine .bind (.update fun _ S => S.put (d := K.dry p) hida hla hlta hba) fun _ _ => ?_
  refine .bind (.update fun _ S => S.put (d := K.dry p) hidb hlb hltb hbb) fun _ _ => ?_
  refine .bind (.update fun _ S => S.drop (.inr rfl)) fun _ _ => ?_
  intro w S
  refine Act.Spec.pure ⟨?_, rfl, rfl, hpath⟩
  rw [hka, hkb] at S
  exact Shows.cut S hplt (fun y hy => L.known y (L.dry y hy)) F.fresh

end Pieces

/-! ## The recursion -/

section Recursion

variable {o : Prop} {K : Outline} {p x l r : NodeId} {n : Knot NodeId}

namespace Outline

theorem link_at (hp : K.graph p = some n) :
    (K.link p x l r).graph p = some ⟨n.level, replaceChild x l r n.kids⟩ := by
  show (if p = p then (K.graph p).map _ else K.graph p) = _
  rw [if_pos rfl, hp]
  rfl

theorem link_ne {y : NodeId} (hy : y ≠ p) : (K.link p x l r).graph y = K.graph y := by
  simp only [link, if_neg hy]

theorem cut_old {level : Nat} {lk rk : List NodeId} {y : NodeId} (hy : y ≠ x) (hlt : y < K.next) :
    (K.cut x level lk rk).graph y = K.graph y := by
  show (if y = x then none else if y = K.next then _ else if y = K.next + 1 then _
    else K.graph y) = _
  rw [if_neg hy, if_neg hlt.ne, if_neg (hlt.trans (Nat.lt_succ_self _)).ne]

end Outline

/-- The parent names the halves. -/
theorem Shows.link {w : World} (S : Shows K w) (hp : K.graph p = some n) {m : SSTNode}
    (hcell : (w.cell p).node = some m) (hm : m.Under K.graph p)
    (hfan : (replaceChild x l r m.childIds).length ≤ maxFanout) : Shows (K.link p x l r)
      (w.modifyNode p fun q => { q with childIds := replaceChild x l r q.childIds }) := by
  have hw : w.modifyNode p (fun q => { q with childIds := replaceChild x l r q.childIds }) =
      w.setNode p { m with childIds := replaceChild x l r m.childIds } := by
    have hc : w.cache.lookup p = some m := hcell
    rw [World.modifyNode, hc]
  have hknot : n = m.knot := Option.some.inj (hp.symm.trans hm.knot)
  rw [hw]
  have S' := S.put (n := { m with childIds := replaceChild x l r m.childIds }) (d := K.dry p) hm.id
    hfan (S.lt_next hcell) fun h => (S.found hcell).dry h
  refine S'.weaken rfl rfl (fun y hy => S'.held (.inl hy)) (fun y hy => ⟨.inl hy, ?_⟩)
    (fun y hy => hy) fun y hy => ?_
  rotate_left
  · by_cases h : y = p
    · exact .inl ⟨h, h ▸ hy⟩
    · exact .inr ⟨h, hy⟩
  by_cases h : y = p
  · rw [h, Outline.link_at hp, hknot]
    show _ = Function.update K.graph p _ p
    rw [Function.update_self]
    rfl
  · rw [Outline.link_ne h]
    show _ = Function.update K.graph p _ y
    rw [Function.update_of_ne h]

/-- A parent that does not name the old child stays as it is. -/
theorem Shows.link_self {w : World} (S : Shows K w) (hp : K.graph p = some n) (hx : x ∉ n.kids) :
    Shows (K.link p x l r) w := by
  refine S.weaken rfl rfl (fun y hy => S.held hy) (fun y hy => ⟨hy, ?_⟩) (fun y hy => hy)
    fun y hy => hy
  by_cases h : y = p
  · rw [h, Outline.link_at hp, replaceChild_eq_self hx, hp]
  · rw [Outline.link_ne h]

/-- A full parent was cut. Its own parent is one level higher and has yet to name the halves. -/
theorem Outline.Full.climb {q level : Nat} {lk rk : List NodeId} {m : Knot NodeId}
    (F : (K.link p x l r).Full o) (hpk : (K.link p x l r).graph p = some ⟨level, lk ++ rk⟩)
    (hq : (K.link p x l r).graph q = some m) (hpq : p ∈ m.kids) :
    ((K.cut p level lk rk).link q p K.next (K.next + 1)).Full o ∧
      (K.link p x l r).Stable o 0 ((K.cut p level lk rk).link q p K.next (K.next + 1)) ∧
      (K.cut p level lk rk).Loose o ∧
      (K.cut p level lk rk).known q ∧ (K.cut p level lk rk).graph q = some m ∧
      m.level = level + 1 ∧ ∃ k, K.graph K.root = some k ∧
        (K.cut p level lk rk).graph K.root = some k ∧ m.level ≤ k.level := by
  have hroots : (K.link p x l r).root = K.root := rfl
  have hnext : (K.link p x l r).next = K.next := rfl
  obtain ⟨F', hst⟩ := F.cut_link hpk hq hpq
  rw [Outline.cut_link, hnext] at F' hst
  have hqp : q ≠ p := (F.tree.kid_ne hq hpq).symm
  have hrp : K.root ≠ p := (F.tree.root_ne hq hpq).symm
  have hloose := F.cut_loose hpk hrp.symm
  rw [Outline.cut_link] at hloose
  have hqlt : q < K.next := (F.below hq).1
  obtain ⟨k, hk⟩ := F.tree.root
  have hrlt : K.root < K.next := (F.below hk).1
  have hle := F.tree.level_le hk hq
  rw [hroots, Outline.link_ne hrp] at hk
  have hknown : K.known q := (F.knows hq).1
  refine ⟨F', hst, hloose, .inl hknown, ?_, (F.tree.level hq hpq hpk).symm, k, hk,
    (Outline.cut_old hrp hrlt).trans hk, hle⟩
  rw [Outline.link_ne hqp] at hq
  exact (Outline.cut_old hqp hqlt).trans hq

/-- **`insert_child` ends**: every call of itself is on a node one level higher. -/
theorem insertChild_ends : ∀ (fuel : Nat) {K : Outline} {p x l r : NodeId}, 0 < fuel → K.Loose o →
    K.known p → (∀ n, K.graph p = some n → (K.link p x l r).Full o ∧
      ∀ m, K.graph K.root = some m → m.level < n.level + fuel) →
    ∀ w, Shows K w → Act.Spec (insertChild fuel p x l r) w
      (fun _ u => ∃ n K', K.graph p = some n ∧ K'.Full o ∧ Shows K' u ∧
        (K.link p x l r).Stable o 0 K') (Finishes o) := by
  intro fuel
  induction fuel with
  | zero => exact fun h => absurd h (lt_irrefl 0)
  | succ fuel ih =>
    intro K p x l r _ hloose hknown hP w S
    rw [insertChild_succ]
    refine Act.Spec.bind (getNode_caches (fun _ => hloose) p S) fun parent u hu => ?_
    obtain ⟨Su, hfit, hcached⟩ := hu
    have F₀ := hfit.under hknown
    have hp := F₀.knot
    obtain ⟨F, hlev⟩ := hP _ hp
    obtain ⟨L, hLdef⟩ : ∃ L, L = K.link p x l r := ⟨_, rfl⟩
    have hdone : ∀ {v}, Shows (K.link p x l r) v → Act.Spec (finishParent p) v
        (fun _ u => ∃ n K', K.graph p = some n ∧ K'.Full o ∧ Shows K' u ∧
          (K.link p x l r).Stable o 0 K') (Finishes o) := fun {v} Sv => by
      have hk : (K.link p x l r).known p := hknown
      exact (leaves_finishParent (fun _ => F.toLoose) hk (F.known p hk) (F.fresh p) v Sv).mono
        (fun _ _ h => ⟨_, _, hp, F, h.1, .refl _⟩) fun _ _ h => h
    split
    · rename_i hroom
      refine Act.Spec.update_bind (hdone (Su.link hp hcached F₀ ?_))
      exact (length_replaceChild_le _ _ _ _).trans hroom
    rename_i hfull
    split
    · rename_i hx
      exact hdone (Su.link_self hp hx)
    have hL : L.graph p = some ⟨parent.level, replaceChild x l r parent.childIds⟩ := by
      rw [hLdef]
      exact Outline.link_at hp
    refine Act.Spec.bind (leaves_cutParent F hloose hknown hfit (not_lt.mp hfull) u Su) fun h v hv => ?_
    obtain ⟨a, b, path⟩ := h
    obtain ⟨Sv, ha, hb, hleads⟩ := hv
    subst ha hb
    obtain ⟨lk, rk, C, hks, hC⟩ : ∃ lk rk C, replaceChild x l r parent.childIds = lk ++ rk ∧
        C = K.cut p parent.level lk rk ∧ Shows C v :=
      ⟨_, _, _, (List.take_append_drop _ _).symm, rfl, Sv⟩
    obtain ⟨hCdef, SC⟩ := hC
    have hpk : L.graph p = some ⟨parent.level, lk ++ rk⟩ := hks ▸ hL
    have hcut : L.cut p parent.level lk rk = C := by
      rw [hLdef, hCdef]
      exact Outline.cut_link ..
    have hnext : L.next = K.next := by rw [hLdef]; rfl
    have hroots : L.root = K.root := by rw [hLdef]; rfl
    have hCnext : C.next = K.next + 2 := by rw [hCdef]; rfl
    have hCroot : C.root = K.root := by rw [hCdef]; rfl
    rw [← hLdef] at F hleads ⊢
    rcases hleads.last_but_one invalidNodeId with ⟨hlen, hroot⟩ | ⟨hlen, q', hq, hpq⟩
    · -- the root was cut
      rw [if_pos hlen]
      obtain ⟨F', hst⟩ := F.cut_grow (show L.graph L.root = _ by rw [hroots, hroot]; exact hpk)
      rw [hroots, hroot, hcut, hnext] at F' hst
      obtain ⟨hunknown, hwet⟩ : ¬ C.known C.next ∧ ¬ C.dry C.next := hcut ▸ F.cut_fresh
      have hfresh : ¬ C.stale C.next := by
        rw [← hcut]
        exact F.fresh _
      have hheld : C.held K.next ∧ C.held (K.next + 1) := by
        rw [hCdef]
        exact ⟨.inr (.inl rfl), .inr (.inr rfl)⟩
      refine Act.Spec.bind (leaves_growRoot hunknown hwet hfresh hheld.1 hheld.2 v SC) fun _ v' hv' => ?_
      exact (leaves_commit v' hv'.1).mono (fun _ _ h => ⟨_, _, hp, F', h.1, hst⟩) fun _ _ h => h
    · -- the parent of the parent is one level higher
      rw [if_neg hlen]
      obtain ⟨q, hqd⟩ : ∃ q, q = path.getD (path.length - 2) invalidNodeId := ⟨_, rfl⟩
      rw [← hqd] at hq ⊢
      rw [hLdef] at F hq hpk ⊢
      obtain ⟨F', hst, hCloose, hCq, hCgraph, hql, m, hm, hCm, hle⟩ := F.climb hpk hq hpq
      rw [← hCdef] at F' hst hCloose hCq hCgraph hCm
      have hlt : m.level < parent.level + (fuel + 1) := hlev m hm
      have hpos : 0 < fuel := by omega
      rw [F₀.id]
      refine Act.Spec.bind (ih hpos hCloose hCq (fun n' hn' => ⟨F', fun k hk => ?_⟩) v SC)
        fun _ v' hv' => ?_
      · obtain rfl := Option.some.inj (hCgraph.symm.trans hn')
        rw [hCroot] at hk
        obtain rfl := Option.some.inj (hCm.symm.trans hk)
        omega
      · obtain ⟨-, K', -, F'', S', hst'⟩ := hv'
        refine (leaves_commit v' S').mono (fun _ _ h => ⟨_, K', hp, F'', h.1, ?_⟩) fun _ _ h => h
        exact hst.trans hst' fun hx c hc => (F.below hx).2 c hc

/-- **`split_leaf` ends**, with its parent still in place. -/
theorem splitLeaf_ends (F : K.Full o) (hx : K.graph x = some ⟨0, []⟩) (hp : K.known p)
    (hpx : ∀ n, K.graph p = some n → x ∈ n.kids) (hroot : x ≠ K.root) (w : World) (S : Shows K w) :
    Act.Spec (splitLeaf x [p, x]) w (fun _ u => ∃ K', K'.Full o ∧ Shows K' u ∧ K.Stable o 0 K')
      (Finishes o) := by
  rw [splitLeaf_eq]
  refine Act.Spec.bind (leaves_cutLeaf F (F.below hx).1 _ w S) fun h u hu => ?_
  obtain ⟨Su, rfl⟩ := hu
  rw [if_neg (by simp)]
  refine Act.Spec.world_bind ?_
  obtain ⟨m, hm⟩ := F.tree.root
  have hrlt := (F.below hm).1
  have hloose : (K.cut x 0 [] []).Loose o := F.cut_loose hx hroot
  obtain ⟨k, hk, hheight⟩ := Su.height hloose.held (Or.inl (F.knows hm).1)
  have hkm : K.graph K.root = some k := (Outline.cut_old hroot.symm hrlt).symm.trans hk
  obtain rfl := Option.some.inj (hm.symm.trans hkm)
  rw [hheight]
  have hcase : ∀ {n}, (K.cut x 0 [] []).graph p = some n → K.graph p = some n := by
    intro n hn
    have hpx : p ≠ x := fun h => by
      simp [Outline.cut, h] at hn
    exact (Outline.cut_old hpx (F.known p hp)).symm.trans hn
  refine Act.Spec.bind (insertChild_ends (m.level + 1) (Nat.succ_pos _) hloose (Or.inl hp)
    (fun n hn => ⟨(F.cut_link hx (hcase hn) (hpx n (hcase hn))).1, fun k hk' => ?_⟩) u Su)
    fun _ v hv => ?_
  · obtain rfl := Option.some.inj (hk.symm.trans hk')
    omega
  · obtain ⟨n, K', hn, F', S', hst⟩ := hv
    have hn := hcase hn
    refine (leaves_commit v S').mono (fun _ _ h => ⟨K', F', h.1, ?_⟩) fun _ _ h => h
    exact (F.cut_link hx hn (hpx n hn)).2.trans hst fun hx c hc => (F.below hx).2 c hc

end Recursion

end GravTree
