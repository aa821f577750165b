import GravTree.Proof.Ascent
import GravTree.Proof.LocalFlush

/-!
# The way down ends

`do_flush` replaces some children of a node and goes on with the children, which are one
level below. Splits on the way move a child to another parent, but they leave it its
level.
-/

namespace GravTree

open Graded

/-! ## `local_flush` -/

/-- The children `ids` after `local_flush`: the nodes of `olds` gave way to new ones with
identifiers from `N` on. -/
inductive Renewed (G : Graph NodeId) : NodeId → List NodeId → List SSTNode → List NodeId →
    NodeId → Prop
  | nil {N} : Renewed G N [] [] [] N
  | same {N N' c ids cs olds} (hc : c.Under G c.id) (h : Renewed G N ids cs olds N') :
      Renewed G N (c.id :: ids) (c :: cs) olds N'
  | new {N N' x c ids cs olds} (hid : c.id = N) (hfan : c.childIds.length ≤ maxFanout)
      (hx : G x = some c.knot) (h : Renewed G (N + 1) ids cs olds N') :
      Renewed G N (x :: ids) (c :: cs) (x :: olds) N'

namespace Renewed

variable {G : Graph NodeId} {N N' : NodeId} {ids olds : List NodeId} {cs : List SSTNode}

theorem le (R : Renewed G N ids cs olds N') : N ≤ N' := by
  induction R with
  | nil => exact le_rfl
  | same _ _ ih => exact ih
  | new _ _ _ _ ih => exact (Nat.le_succ _).trans ih

theorem olds_sublist (R : Renewed G N ids cs olds N') : olds.Sublist ids := by
  induction R with
  | nil => exact .slnil
  | same _ _ ih => exact ih.cons _
  | new _ _ _ _ ih => exact ih.cons_cons _

theorem length (R : Renewed G N ids cs olds N') : cs.length = ids.length := by
  induction R with
  | nil => rfl
  | same _ _ ih => simp [ih]
  | new _ _ _ _ ih => simp [ih]

/-- Each node is an old child, or new and in the place of one. -/
theorem mem (R : Renewed G N ids cs olds N') {c : SSTNode} (hc : c ∈ cs) :
    c.id ∈ ids ∧ c.Under G c.id ∨ (N ≤ c.id ∧ c.id < N' ∧ c.childIds.length ≤ maxFanout ∧
      ∃ x ∈ olds, G x = some c.knot) := by
  induction R with
  | nil => exact absurd hc List.not_mem_nil
  | same hfit h ih =>
    rcases List.mem_cons.mp hc with rfl | hc
    · exact .inl ⟨List.mem_cons_self, hfit⟩
    · exact (ih hc).imp_left fun h => ⟨List.mem_cons_of_mem _ h.1, h.2⟩
  | new hid hfan hx h ih =>
    rcases List.mem_cons.mp hc with rfl | hc
    · exact .inr ⟨hid.ge, hid ▸ Nat.lt_of_succ_le h.le, hfan, _, List.mem_cons_self, hx⟩
    · rcases ih hc with ⟨hm, hfit⟩ | ⟨hle, hlt, hf, x, hxo, hG⟩
      · exact .inl ⟨List.mem_cons_of_mem _ hm, hfit⟩
      · exact .inr ⟨(Nat.le_succ _).trans hle, hlt, hf, x, List.mem_cons_of_mem _ hxo, hG⟩

theorem old (R : Renewed G N ids cs olds N') {x : NodeId} (hx : x ∈ olds) :
    ∃ c ∈ cs, N ≤ c.id ∧ G x = some c.knot := by
  induction R with
  | nil => exact absurd hx List.not_mem_nil
  | same _ _ ih =>
    obtain ⟨c, hc, h⟩ := ih hx
    exact ⟨c, List.mem_cons_of_mem _ hc, h⟩
  | new hid _ hG _ ih =>
    rcases List.mem_cons.mp hx with rfl | hx
    · exact ⟨_, List.mem_cons_self, hid.ge, hG⟩
    · obtain ⟨c, hc, hle, h⟩ := ih hx
      exact ⟨c, List.mem_cons_of_mem _ hc, (Nat.le_succ _).trans hle, h⟩

theorem kept (R : Renewed G N ids cs olds N') {x : NodeId} (hx : x ∈ ids) (ho : x ∉ olds) :
    x ∈ cs.map (·.id) := by
  induction R with
  | nil => exact absurd hx List.not_mem_nil
  | same _ _ ih =>
    rcases List.mem_cons.mp hx with rfl | hx
    · exact List.mem_cons_self
    · exact List.mem_cons_of_mem _ (ih hx ho)
  | new _ _ _ _ ih =>
    obtain ⟨hne, ho⟩ := not_or.mp (List.mem_cons.not.mp ho)
    exact List.mem_cons_of_mem _ (ih ((List.mem_cons.mp hx).resolve_left hne) ho)

/-- No node carries the identifier of a child that was replaced. -/
theorem notMem_olds (R : Renewed G N ids cs olds N') (hnd : ids.Nodup) (hlt : ∀ x ∈ ids, x < N) :
    ∀ c ∈ cs, c.id ∉ olds := by
  induction R with
  | nil => simp
  | same _ h ih =>
    obtain ⟨hc, hnd⟩ := List.nodup_cons.mp hnd
    refine List.forall_mem_cons.mpr ⟨fun h' => hc (h.olds_sublist.subset h'), ?_⟩
    exact ih hnd fun x hx => hlt x (List.mem_cons_of_mem _ hx)
  | @new N N' x c ids cs olds hid _ _ h ih =>
    obtain ⟨hx, hnd⟩ := List.nodup_cons.mp hnd
    have hsub : ∀ y ∈ x :: olds, y < N := fun y hy => hlt y ((h.olds_sublist.cons_cons x).subset hy)
    refine List.forall_mem_cons.mpr ⟨fun h' => (hsub _ h').ne hid, fun d hd hmem => ?_⟩
    rcases List.mem_cons.mp hmem with heq | hmem
    · rcases h.mem hd with ⟨hd, -⟩ | ⟨hle, -⟩
      · exact hx (heq ▸ hd)
      · exact absurd (hlt x List.mem_cons_self) (Nat.not_lt_of_ge (heq ▸ (Nat.le_succ _).trans hle))
    · exact ih hnd (fun y hy => (hlt y (List.mem_cons_of_mem _ hy)).trans (Nat.lt_succ_self _)) d hd
        hmem

theorem nodup (R : Renewed G N ids cs olds N') (hnd : ids.Nodup) (hlt : ∀ x ∈ ids, x < N) :
    (cs.map (·.id)).Nodup := by
  induction R with
  | nil => exact List.nodup_nil
  | @same N N' c ids cs olds _ h ih =>
    obtain ⟨hc, hnd⟩ := List.nodup_cons.mp hnd
    have hids := fun x hx => hlt x (List.mem_cons_of_mem _ hx)
    refine List.nodup_cons.mpr ⟨fun hmem => ?_, ih hnd hids⟩
    obtain ⟨d, hd, heq⟩ := List.mem_map.mp hmem
    have heq : d.id = c.id := heq
    rcases h.mem hd with ⟨hd, -⟩ | ⟨hle, -⟩
    · exact hc (heq ▸ hd)
    · exact absurd (hlt c.id List.mem_cons_self) (Nat.not_lt_of_ge (heq ▸ hle))
  | @new N N' x c ids cs olds hid _ _ h ih =>
    obtain ⟨hx, hnd⟩ := List.nodup_cons.mp hnd
    have hids : ∀ y ∈ ids, y < N + 1 := fun y hy =>
      (hlt y (List.mem_cons_of_mem _ hy)).trans (Nat.lt_succ_self _)
    refine List.nodup_cons.mpr ⟨fun hmem => ?_, ih hnd hids⟩
    obtain ⟨d, hd, heq⟩ := List.mem_map.mp hmem
    have heq : d.id = c.id := heq
    rcases h.mem hd with ⟨hd, -⟩ | ⟨hle, -⟩
    · exact absurd (hlt d.id (List.mem_cons_of_mem _ hd)) (by rw [heq, hid]; exact lt_irrefl _)
    · rw [heq, hid] at hle
      exact absurd hle (Nat.not_succ_le_self _)

/-- What `do_flush` makes of the parent's list. -/
theorem zipWith_eq (R : Renewed G N ids cs olds N') (hnd : ids.Nodup) : ∀ os : List NodeId,
    (∀ x ∈ olds, x ∈ os) → (∀ x ∈ ids, x ∉ olds → x ∉ os) →
    List.zipWith (fun old new => if old ∈ os then new else old) ids (cs.map (·.id)) =
      cs.map (·.id) := by
  intro os hin hout
  induction R with
  | nil => rfl
  | @same N N' c ids cs olds _ h ih =>
    obtain ⟨hc, hnd⟩ := List.nodup_cons.mp hnd
    rw [List.map_cons, List.zipWith_cons_cons, ih hnd hin fun x hx => hout x (List.mem_cons_of_mem _ hx),
      if_neg (hout c.id List.mem_cons_self fun h' => hc (h.olds_sublist.subset h'))]
  | @new N N' x c ids cs olds _ _ _ h ih =>
    obtain ⟨hx, hnd⟩ := List.nodup_cons.mp hnd
    rw [List.map_cons, List.zipWith_cons_cons, if_pos (hin x List.mem_cons_self),
      ih hnd (fun y hy => hin y (List.mem_cons_of_mem _ hy)) fun y hy ho => ?_]
    refine hout y (List.mem_cons_of_mem _ hy) fun h' => ?_
    rcases List.mem_cons.mp h' with rfl | h'
    · exact hx hy
    · exact ho h'

theorem congr {H : Graph NodeId} (R : Renewed G N ids cs olds N') (h : ∀ x ∈ ids, H x = G x) :
    Renewed H N ids cs olds N' := by
  induction R with
  | nil => exact .nil
  | same hc _ ih =>
    obtain ⟨hx, h⟩ := List.forall_mem_cons.mp h
    exact .same ⟨hc.id, hc.fanout, hx.trans hc.knot⟩ (ih h)
  | new hid hfan hG _ ih =>
    obtain ⟨hx, h⟩ := List.forall_mem_cons.mp h
    exact .new hid hfan (hx.trans hG) (ih h)

/-- If no node has two parents, the new nodes share no child. -/
theorem apart (R : Renewed G N ids cs olds N') (U : Once G) (hnd : ids.Nodup)
    (hlt : ∀ x ∈ ids, x < N) {c d : SSTNode} (hc : c ∈ cs) (hd : d ∈ cs) (hcn : N ≤ c.id)
    (hdn : N ≤ d.id) {k : NodeId} (hck : k ∈ c.childIds) (hdk : k ∈ d.childIds) : c = d := by
  induction R with
  | nil => exact absurd hc List.not_mem_nil
  | @same N N' b ids cs olds _ _ ih =>
    obtain ⟨hx, hlt⟩ := List.forall_mem_cons.mp hlt
    have htail : ∀ {e : SSTNode}, e ∈ b :: cs → N ≤ e.id → e ∈ cs := fun he hn =>
      (List.mem_cons.mp he).resolve_left fun h => Nat.not_lt_of_ge (h ▸ hn) hx
    exact ih (List.nodup_cons.mp hnd).2 hlt (htail hc hcn) (htail hd hdn) hcn hdn
  | @new N N' x b ids cs olds hid _ hG h ih =>
    obtain ⟨hx, hnd⟩ := List.nodup_cons.mp hnd
    obtain ⟨-, hlt⟩ := List.forall_mem_cons.mp hlt
    -- a later new node came from another child
    have hold : ∀ {e : SSTNode}, e ∈ cs → N ≤ e.id → N + 1 ≤ e.id ∧ ∃ y ∈ ids, G y = some e.knot := by
      intro e he hn
      rcases h.mem he with ⟨hmem, -⟩ | ⟨hle, -, -, y, hy, hGy⟩
      · exact absurd (hlt _ hmem) (Nat.not_lt_of_ge hn)
      · exact ⟨hle, y, h.olds_sublist.subset hy, hGy⟩
    have hne : ∀ {e : SSTNode}, e ∈ cs → N ≤ e.id → k ∈ e.childIds → k ∉ b.childIds := by
      intro e he hn hke hkb
      obtain ⟨-, y, hy, hGy⟩ := hold he hn
      exact hx (U hG hGy hkb hke ▸ hy)
    rcases List.mem_cons.mp hc with hcb | hc
    · rcases List.mem_cons.mp hd with hdb | hd
      · exact hcb.trans hdb.symm
      · exact absurd (hcb ▸ hck) (hne hd hdn hdk)
    · rcases List.mem_cons.mp hd with hdb | hd
      · exact absurd (hdb ▸ hdk) (hne hc hcn hck)
      · exact ih hnd (fun y hy => (hlt y hy).trans (Nat.lt_succ_self _)) hc hd (hold hc hcn).1
          (hold hd hdn).1

end Renewed

/-- What the nodes `cs` say of `y`. -/
def knotIn (cs : List SSTNode) (y : NodeId) : Option (Knot NodeId) :=
  (cs.find? (·.id = y)).map SSTNode.knot

section KnotIn

variable {c : SSTNode} {cs : List SSTNode} {y : NodeId}

theorem knotIn_cons_self (h : c.id = y) : knotIn (c :: cs) y = some c.knot := by
  simp [knotIn, h]

theorem knotIn_cons_ne (h : c.id ≠ y) : knotIn (c :: cs) y = knotIn cs y := by
  simp [knotIn, h]

theorem knotIn_of_mem : ∀ {cs : List SSTNode}, (cs.map (·.id)).Nodup → c ∈ cs →
    knotIn cs c.id = some c.knot
  | [], _, h => absurd h List.not_mem_nil
  | d :: cs, hnd, h => by
    obtain ⟨hd, hnd⟩ := List.nodup_cons.mp hnd
    rcases List.mem_cons.mp h with rfl | h
    · exact knotIn_cons_self rfl
    · have hne : d.id ≠ c.id := fun heq => hd (List.mem_map.mpr ⟨c, h, heq.symm⟩)
      rw [knotIn_cons_ne hne, knotIn_of_mem hnd h]

theorem knotIn_some {k : Knot NodeId} (h : knotIn cs y = some k) : y ∈ cs.map (·.id) := by
  obtain ⟨c, hc, -⟩ := Option.map_eq_some_iff.mp h
  exact List.mem_map.mpr ⟨c, List.mem_of_find?_eq_some hc, by simpa using List.find?_some hc⟩

end KnotIn

section Loop

variable {o : Prop} {K : Outline} {w : World}

/-- A new node gets the next identifier. -/
def Outline.enlist (K : Outline) (s : Knot NodeId) : Outline :=
  { K with
    graph := Function.update K.graph K.next (some s)
    next := K.next + 1
    known := fun y => K.known y ∨ y = K.next }

/-- The outline once the new nodes are written and the old ones invalidated. -/
def Outline.renew (K : Outline) (N : NodeId) (cs : List SSTNode) (olds : List NodeId) : Outline :=
  { K with
    graph := fun y => if y < K.next then K.graph y else knotIn cs y
    next := N
    known := fun y => K.known y ∨ K.next ≤ y ∧ y < N
    stale := fun y => K.stale y ∨ y ∈ olds }

theorem Outline.renew_cons {c n : SSTNode} {N : NodeId} {cs : List SSTNode} {olds : List NodeId}
    (hid : n.id = K.next) (hk : n.knot = c.knot) (y : NodeId) :
    (K.renew N (n :: cs) olds).graph y = ((K.enlist c.knot).renew N cs olds).graph y := by
  show (if y < K.next then K.graph y else knotIn (n :: cs) y) =
    if y < K.next + 1 then Function.update K.graph K.next (some c.knot) y else knotIn cs y
  rcases Nat.lt_trichotomy y K.next with hy | hy | hy
  · rw [if_pos hy, if_pos (hy.trans (Nat.lt_succ_self _)), Function.update_of_ne hy.ne]
  · rw [if_neg (hy ▸ lt_irrefl _), if_pos (hy ▸ Nat.lt_succ_self _), knotIn_cons_self (hid.trans hy.symm),
      hy, Function.update_self, hk]
  · rw [if_neg (Nat.lt_asymm hy), if_neg (Nat.not_lt_of_ge hy),
      knotIn_cons_ne fun heq => hy.ne (hid.symm.trans heq)]

/-- What is on file for an identifier that is not cached becomes known. -/
theorem Shows.learn (S : Shows K w) {n : SSTNode} (hnode : (w.cell n.id).node = none)
    (hfile : (w.cell n.id).file = some n) (hfan : n.childIds.length ≤ maxFanout) :
    Shows { K with graph := Function.update K.graph n.id (some n.knot)
                   known := fun y => K.known y ∨ y = n.id } w := by
  refine ⟨S.root, S.next, S.held, fun y => ?_⟩
  by_cases hy : y = n.id
  · subst hy
    refine ⟨(S.cell _).place, fun _ hm => (nomatch hnode.symm.trans hm), fun _ _ _ hm => ?_,
      (S.cell _).stale, (S.cell _).fresh, (S.cell _).dry⟩
    obtain rfl := Option.some.inj (hfile.symm.trans hm)
    exact ⟨rfl, hfan, Function.update_self ..⟩
  · exact (S.cell y).congr le_rfl (fun hk => ⟨hk.resolve_right hy, Function.update_of_ne hy ..⟩) id id

theorem spawned_knot (w : World) {c : SSTNode} (part : List Entry)
    (h : c.childIds.length ≤ maxFanout) : (spawned w c part).knot = c.knot :=
  congrArg (Knot.mk c.level) (created_childIds w.rest.sizing w.rest.next c.level
    (mergeSortedEntries part c.buffer) c.childIds h)

/-- A child that receives entries is replaced. -/
theorem Shows.spawn (S : Shows K w) {c : SSTNode} (part : List Entry)
    (hfan : c.childIds.length ≤ maxFanout) (hk : ¬ K.known K.next) (hs : ¬ K.stale K.next)
    (hd : ¬ K.dry K.next) : Shows ((K.enlist c.knot).retire c.id) (w.spawn c part) := by
  have hnext : w.rest.next = K.next := S.next
  have hknot := spawned_knot w part hfan
  have hlt : K.next < K.take.next := Nat.lt_succ_self _
  have hvoid : ∀ {n : SSTNode}, n.Found K.take K.next :=
    ⟨fun h => absurd h hk, fun h => absurd h hd⟩
  have S₁ : Shows K.take (w.takeId.renamed (spawned w c part)) :=
    S.takeId.renamed (show (spawned w c part).Found K.take w.rest.next from hnext ▸ hvoid)
      (hnext.trans_lt hlt)
  have S₂ := S₁.registerNode (fun _ _ => hvoid) hs hlt c.level
  have hnone : (w.cell K.next).node = none := by
    cases h : (w.cell K.next).node with
    | none => rfl
    | some n => exact absurd (S.lt_next h) (lt_irrefl _)
  have S₃ := S₂.learn (n := spawned w c part) (by simp [spawned, hnext, hnone])
    (by simp [spawned, hnext]) ((congrArg (·.kids.length) hknot).trans_le hfan)
  have S₄ := S₃.invalidateNode c.id
  rw [hknot] at S₄
  unfold World.spawn
  rw [hnext]
  refine S₄.weaken rfl rfl (fun y hy => S₄.held hy) (fun y hy => ?_) (fun y hy => hy) fun y hy => hy
  rw [show (spawned w c part).id = K.next from hnext]
  exact ⟨hy, rfl⟩

theorem localFlushLoop_leaves : ∀ (ps : List (SSTNode × List Entry)) {K : Outline},
    (∀ q ∈ ps, q.1.entriesLoaded = true ∧ q.1.id < K.next ∧ q.1.Under K.graph q.1.id) →
    (∀ y, K.known y ∨ K.stale y ∨ K.dry y → y < K.next) → ∀ w, Shows K w →
    Act.Spec (localFlushLoop ps) w
      (fun r u => ∃ N, Renewed K.graph K.next (ps.map (·.1.id)) r.1 r.2.oldChildIds N ∧
        r.2.newChildIds = r.1.map (·.id) ∧ Shows (K.renew N r.1 r.2.oldChildIds) u) (Finishes o)
  | [], K, _, hlt => fun w S => by
    refine Act.Spec.pure ⟨K.next, .nil, rfl, ?_⟩
    refine S.weaken rfl rfl (fun y hy => S.held hy) (fun y hy => ?_)
      (fun y hy => hy.resolve_right List.not_mem_nil) fun y hy => hy
    have hy : K.known y := hy.resolve_right fun h => Nat.not_lt_of_ge h.1 h.2
    exact ⟨hy, if_pos (hlt y (.inl hy))⟩
  | (child, part) :: ps, K, h, hlt => fun w S => by
    obtain ⟨⟨hload, hid, hc⟩, hps⟩ := List.forall_mem_cons.mp h
    unfold localFlushLoop
    split
    · refine Act.Spec.bind (localFlushLoop_leaves ps hps hlt w S) fun r u hu => ?_
      obtain ⟨N, R, hnew, Su⟩ := hu
      refine Act.Spec.pure ⟨N, .same hc R, congrArg (child.id :: ·) hnew, ?_⟩
      refine Su.weaken rfl rfl (fun y hy => Su.held hy) (fun y hy => ⟨hy, ?_⟩) (fun y hy => hy)
        fun y hy => hy
      show (if y < K.next then _ else _) = if y < K.next then _ else _
      split
      · rfl
      · rename_i hge
        exact knotIn_cons_ne fun heq => hge (heq ▸ hid)
    · have hE : ∀ k u, True → Finishes o (.stopped k) u := fun k u _ => finishes_stopped k u
      refine (loadEntries_reads hload).spec_bind (nextNodeId_runs.spec_bind hE
        ((create_runs trivial).spec_bind hE (Act.Spec.update_bind (Act.Spec.update_bind ?_))))
      have hirr : ¬ K.next < K.next := lt_irrefl _
      have Sv : Shows ((K.enlist child.knot).retire child.id) (w.spawn child part) :=
        S.spawn part hc.fanout (fun h => hirr (hlt _ (.inl h)))
          (fun h => hirr (hlt _ (.inr (.inl h)))) fun h => hirr (hlt _ (.inr (.inr h)))
      have hold : ∀ {y}, y < K.next → Function.update K.graph K.next (some child.knot) y = K.graph y :=
        fun hy => Function.update_of_ne hy.ne ..
      refine Act.Spec.bind (localFlushLoop_leaves ps (fun q hq => ?_) (fun y hy => ?_) _ Sv)
        fun r u hu => ?_
      · obtain ⟨hl, hq, hfit⟩ := hps q hq
        exact ⟨hl, hq.trans (Nat.lt_succ_self _), hfit.id, hfit.fanout, (hold hq).trans hfit.knot⟩
      · rcases hy with (hy | rfl) | (hy | rfl) | hy
        · exact (hlt y (.inl hy)).trans (Nat.lt_succ_self _)
        · exact Nat.lt_succ_self _
        · exact (hlt y (.inr (.inl hy))).trans (Nat.lt_succ_self _)
        · exact hid.trans (Nat.lt_succ_self _)
        · exact (hlt y (.inr (.inr hy))).trans (Nat.lt_succ_self _)
      obtain ⟨N, R, hnew, Su⟩ := hu
      have hnid : (spawned w child part).id = K.next := S.next
      have hknot := spawned_knot w part hc.fanout
      have hids : ∀ y ∈ ps.map (·.1.id), y < K.next := by
        intro y hy
        obtain ⟨q, hq, rfl⟩ := List.mem_map.mp hy
        exact (hps q hq).2.1
      refine Act.Spec.pure ⟨N, .new hnid ?_ ?_ (R.congr fun y hy => (hold (hids y hy)).symm), ?_, ?_⟩
      · exact (congrArg (·.kids.length) hknot).trans_le hc.fanout
      · exact hc.knot.trans (congrArg some hknot.symm)
      · exact congrArg₂ List.cons rfl hnew
      · refine Su.weaken rfl rfl (fun y hy => Su.held hy) (fun y hy => ⟨?_, ?_⟩) (fun y hy => ?_)
          fun y hy => hy
        · rcases hy with hy | ⟨hge, hltN⟩
          · exact .inl (.inl hy)
          · rcases Nat.eq_or_lt_of_le hge with heq | hgt
            · exact .inl (.inr heq.symm)
            · exact .inr ⟨hgt, hltN⟩
        · exact Outline.renew_cons (n := (spawned w child part).loaded) hnid hknot y
        · rcases hy with hy | hy
          · exact .inl (.inl hy)
          · exact (List.mem_cons.mp hy).elim (fun h => .inl (.inr h)) .inr

theorem leaves_loadChildren (L : o → K.Loose o) : ∀ ids,
    (∀ c ∈ ids, K.known c ∧ c < K.next ∧ ¬ K.dry c) → Leaves o K (loadChildren ids) K
      fun cs => cs.map (·.id) = ids ∧ ∀ c ∈ cs, c.entriesLoaded = true ∧ c.Under K.graph c.id
  | [], _ => .pure ⟨rfl, by simp⟩
  | id :: ids, h => by
    obtain ⟨⟨hid, hlt, hd⟩, hids⟩ := List.forall_mem_cons.mp h
    unfold loadChildren
    refine .bind (leaves_getNode L id) fun child hchild => ?_
    have F := hchild.under hid
    refine fun w S => Act.Spec.bind (loadEntries_spec L S child) fun n u hu => ?_
    obtain ⟨rfl, hnid, hknot, hload, -⟩ := hu
    have Fn : n.Under K.graph id := F.congr hnid hknot
    have hrest : Leaves o K (loadChildren ids >>= fun rest => pure (n :: rest)) K
        fun cs => cs.map (·.id) = id :: ids ∧
          ∀ c ∈ cs, c.entriesLoaded = true ∧ c.Under K.graph c.id :=
      .bind (leaves_loadChildren L ids hids) fun rest hr =>
        .pure ⟨by rw [List.map_cons, hr.1, Fn.id],
          List.forall_mem_cons.mpr ⟨⟨hload, Fn.id.symm ▸ Fn⟩, hr.2⟩⟩
    split
    · exact Act.Spec.update_bind (hrest _ (S.setNode ⟨fun _ => Fn, fun h => absurd h hd⟩ hlt))
    · exact hrest u S

/-! ## The cache is refreshed -/

/-- Nothing is found under `olds`. -/
def Outline.forget (K : Outline) (olds : List NodeId) : Outline :=
  { K with known := fun y => K.known y ∨ y ∈ olds }

theorem Outline.Loose.forget (L : K.Loose o) {olds : List NodeId} (h : ∀ x ∈ olds, x < K.next) :
    (K.forget olds).Loose o where
  graded := L.graded
  once := L.once
  known x hx := hx.elim (L.known x) (h x)
  knows hx := ⟨.inl (L.knows hx).1, fun c hc => .inl ((L.knows hx).2 c hc)⟩
  held := L.held
  dry x hx := .inl (L.dry x hx)

theorem leaves_refreshChild (L : o → K.Loose o) {c : SSTNode} (h : c.Found K c.id)
    (hs : ¬ K.stale c.id) (hx : c.id < K.next) :
    Leaves o K (refreshChild c) K fun m => m.id = c.id ∧ m.Found K c.id := by
  unfold refreshChild
  split
  · have hrange : ∀ r : KeyRange, Leaves o K (SSTNode.flushToDisk { c with keyRange := r } >>= fun c =>
        registerNode c.id c.level c.filePath >>= fun _ => pure c) K
          fun m => m.id = c.id ∧ m.Found K c.id := fun r w S =>
      (leaves_refresh (n := { c with keyRange := r }) (h.congr rfl rfl id) hs hx w S).mono
        (fun m _ hm => ⟨hm.1, hm.2.1, h.congr hm.2.1 hm.2.2.1 hm.2.2.2⟩) fun _ _ he => he
    exact .bind (leaves_spanKeyRange L c) fun _ _ => hrange _
  · exact .pure ⟨rfl, h⟩

/-- The loop that refreshes the cache: the old nodes are gone when it ends. -/
theorem leaves_refreshCache : ∀ (cs : List SSTNode) {K : Outline} (olds : List NodeId),
    (o → K.Loose o) → olds.length ≤ cs.length →
    (∀ x ∈ olds, x < K.next ∧ K.graph x = none ∧ K.stale x ∧ ¬ K.held x) →
    (∀ c ∈ cs, c.id ∉ olds ∧ ¬ K.stale c.id ∧ c.id < K.next ∧ c.Found K c.id) →
    Leaves o K (refreshCache cs olds) (K.forget olds) fun _ => True
  | [], K, olds, _, hlen, _, _ => by
    obtain rfl := List.length_eq_zero_iff.mp (Nat.le_zero.mp hlen)
    intro w S
    exact Act.Spec.pure ⟨S.weaken rfl rfl (fun y hy => S.held hy)
      (fun y hy => ⟨hy.resolve_right List.not_mem_nil, rfl⟩) (fun _ h => h) fun _ h => h, trivial⟩
  | c :: cs, K, olds, L, hlen, holds, hcs => by
    obtain ⟨⟨hno, hs, hlt, hc⟩, hcs⟩ := List.forall_mem_cons.mp hcs
    -- one child, once the first old node is gone
    have hstep : ∀ os rest : List NodeId, os ++ rest = olds → rest.length ≤ cs.length →
        Leaves o (K.forget os) (refreshChild c >>= fun c => setNode c.id c >>= fun _ =>
          refreshCache cs rest) (K.forget olds) fun _ => True := by
      rintro os rest rfl hrest
      have Lf : o → (K.forget os).Loose o := fun ho =>
        (L ho).forget fun x hx => (holds x (List.mem_append_left _ hx)).1
      have hfound : ∀ {d : SSTNode}, d.id ∉ os ++ rest → d.Found K d.id →
          d.Found (K.forget os) d.id := fun hd h =>
        ⟨fun hk => h.under (hk.resolve_right fun hm => hd (List.mem_append_left _ hm)), h.dry⟩
      refine .bind (leaves_refreshChild Lf (hfound hno hc) hs hlt) fun m hm => ?_
      obtain ⟨hid, F⟩ := hm
      rw [hid]
      refine .bind (.update fun _ S => S.setNode F hlt) fun _ _ => ?_
      intro w S
      refine (leaves_refreshCache cs rest Lf hrest (fun x hx => ?_) (fun d hd => ?_) w S).mono
        (fun _ u h => ⟨?_, trivial⟩) fun _ _ h => h
      · exact holds x (List.mem_append_right _ hx)
      · obtain ⟨hno, hs, hlt, hd⟩ := hcs d hd
        exact ⟨fun h => hno (List.mem_append_right _ h), hs, hlt, hfound hno hd⟩
      · refine h.1.weaken rfl rfl (fun y hy => h.1.held hy) (fun y hy => ⟨?_, rfl⟩) (fun _ h => h)
          fun _ h => h
        exact or_assoc.mpr (hy.imp_right List.mem_append.mp)
    unfold refreshCache
    cases olds with
    | nil =>
      intro w S
      refine hstep [] [] rfl (Nat.zero_le _) w (S.weaken rfl rfl (fun y hy => S.held hy)
        (fun y hy => ⟨hy.resolve_right List.not_mem_nil, rfl⟩) (fun _ h => h) fun _ h => h)
    | cons old olds =>
      obtain ⟨hlt, hgone, hstale, hheld⟩ := holds old List.mem_cons_self
      refine .bind (.update fun _ S => ?_) fun _ _ =>
        hstep [old] olds rfl (Nat.le_of_succ_le_succ hlen)
      have S' := S.drop hstale
      refine S'.weaken rfl rfl (fun y hy => S'.held ⟨hy, fun h => hheld (h ▸ hy)⟩)
        (fun y hy => ⟨hy.imp_right List.mem_singleton.mp, ?_⟩) (fun _ h => h) fun _ h => h
      show K.graph y = Function.update K.graph old none y
      rw [Function.update_apply]
      split
      · rename_i h
        rw [h, hgone]
      · rfl

theorem leaves_localFlush {p : NodeId} (hp : K.held p) (hlt : ∀ y, K.known y ∨ K.stale y ∨ K.dry y → y < K.next)
    {cs : List SSTNode}
    (hcs : ∀ c ∈ cs, c.entriesLoaded = true ∧ c.id < K.next ∧ c.Under K.graph c.id) (w : World)
    (S : Shows K w) : Act.Spec (localFlush p cs) w (fun r u => ∃ N,
      Renewed K.graph K.next (cs.map (·.id)) r.1 r.2.oldChildIds N ∧
        r.2.newChildIds = r.1.map (·.id) ∧ Shows (K.renew N r.1 r.2.oldChildIds) u)
      (Finishes o) := by
  unfold localFlush
  refine Act.Spec.update_bind (Act.Spec.bind (leaves_getNode_held hp _
    (S.modifyNode p (fun _ => ⟨rfl, rfl, rfl⟩) fun _ n hn => ?_)) fun parent u hu => ?_)
  · show stableSort n.buffer = []
    rw [hn]
    rfl
  obtain ⟨ps, hps⟩ : ∃ ps, ps = cs.zip (partitionEntries parent.buffer cs) := ⟨_, rfl⟩
  have hfst : ps.map Prod.fst = cs := by
    rw [hps]
    exact List.map_fst_zip (by simp [length_partitionEntries])
  have hids : ps.map (·.1.id) = cs.map (·.id) := by
    rw [← hfst, List.map_map]
    rfl
  rw [← hps, ← hids]
  refine localFlushLoop_leaves ps (fun q hq => hcs q.1 ?_) hlt u hu.1
  rw [← hfst]
  exact List.mem_map_of_mem hq

/-- The end of `do_flush`'s push, once the parent's buffer is empty. -/
theorem leaves_finishPush {p : NodeId} (L : o → K.Loose o) (hk : K.known p) (hx : p < K.next)
    (hs : ¬ K.stale p) (ids : List NodeId) :
    Leaves o K (getNode p >>= fun parent =>
      if parent.childIds ≠ [] then
        spanKeyRange parent >>= fun range => modifyNode p (fun p => { p with keyRange := range }) >>=
          fun _ => flushNode p >>= fun _ => registerCached p >>= fun _ => save >>= fun _ => gc >>=
            fun _ => pure ids
      else flushNode p >>= fun _ => registerCached p >>= fun _ => save >>= fun _ => gc >>=
        fun _ => pure ids) K fun r => r = ids := by
  have hend : Leaves o K (flushNode p >>= fun _ => registerCached p >>= fun _ => save >>= fun _ =>
      gc >>= fun _ => pure ids) K fun r => r = ids := by
    have h : Leaves o K ((flushNode p >>= fun _ => registerCached p) >>= fun _ =>
        (save >>= fun _ => gc) >>= fun _ => pure ids) K fun r => r = ids :=
      .bind (leaves_rewrite L hk hx hs) fun _ _ => .bind leaves_commit fun _ _ => .pure rfl
    simpa only [bind_assoc] using h
  refine .bind (leaves_getNode L p) fun parent _ => ?_
  split
  · exact .bind (leaves_spanKeyRange L parent) fun _ _ =>
      .bind (.update fun _ S => S.modifyNode p (fun _ => ⟨rfl, rfl, rfl⟩) fun _ _ h => h) fun _ _ => hend
  · exact hend

end Loop

/-! ## The push -/

section Push

variable {o : Prop} {K : Outline} {p : NodeId} {n : Knot NodeId} {cs : List SSTNode}
  {olds : List NodeId} {N : NodeId}

namespace Outline

/-- The outline after a push: `p` names the children `cs`, and `olds` are gone. -/
def pushed (K : Outline) (p : NodeId) (n : Knot NodeId) (cs : List SSTNode) (olds : List NodeId)
    (N : NodeId) : Outline where
  graph y := if y = p then some ⟨n.level, cs.map (·.id)⟩ else if y ∈ olds then none
    else if y < K.next then K.graph y else knotIn cs y
  root := K.root
  next := N
  known y := K.known y ∨ K.next ≤ y ∧ y < N
  stale _ := False
  held y := y = K.root
  dry y := K.dry y ∧ y ∉ n.kids ∨ y = p

/-- The outline while the children are copied and replaced: their buffers are going to change. -/
def around (K : Outline) (p : NodeId) (n : Knot NodeId) : Outline :=
  { K with
    held := fun y => y = K.root ∨ y = p
    dry := fun y => K.dry y ∧ y ∉ n.kids }

/-- The same as after the push while the cache is refreshed: the old nodes may still be in it. -/
def pushing (K : Outline) (p : NodeId) (n : Knot NodeId) (cs : List SSTNode) (olds : List NodeId)
    (N : NodeId) : Outline :=
  { K.pushed p n cs olds N with
    known := fun y => (K.known y ∨ K.next ≤ y ∧ y < N) ∧ y ∉ olds
    stale := (· ∈ olds)
    held := fun y => y = K.root ∨ y = p
    dry := fun y => K.dry y ∧ y ∉ n.kids ∧ y ≠ p }

namespace Full

theorem around (F : K.Full o) (p : NodeId) (n : Knot NodeId) : (K.around p n).Loose o :=
  ⟨F.graded, F.once, F.known, F.knows, .inl rfl, fun y hy => F.dry y hy.1⟩

/-- The parent is none of the children, old or new. -/
theorem notMem_kids (F : K.Full o) (hp : K.graph p = some n)
    (R : Renewed K.graph K.next n.kids cs olds N) : p ∉ cs.map (·.id) ∧ p ∉ olds := by
  refine ⟨fun h => ?_, fun h => F.tree.kid_ne hp (R.olds_sublist.subset h) rfl⟩
  obtain ⟨c, hc, rfl⟩ := List.mem_map.mp h
  rcases R.mem hc with ⟨hc, -⟩ | ⟨hle, -⟩
  · exact F.tree.kid_ne hp hc rfl
  · exact Nat.not_lt_of_ge hle (F.below hp).1

theorem pushed_at : (K.pushed p n cs olds N).graph p = some ⟨n.level, cs.map (·.id)⟩ := if_pos rfl

theorem pushed_old (F : K.Full o) (hp : K.graph p = some n)
    (R : Renewed K.graph K.next n.kids cs olds N) {x : NodeId} (hx : x ∈ olds) :
    (K.pushed p n cs olds N).graph x = none := by
  have hxp : x ≠ p := fun h => (F.notMem_kids hp R).2 (h ▸ hx)
  show (if x = p then _ else if x ∈ olds then none else _) = none
  rw [if_neg hxp, if_pos hx]

theorem pushed_kid (F : K.Full o) (hp : K.graph p = some n)
    (R : Renewed K.graph K.next n.kids cs olds N) {c : SSTNode} (hc : c ∈ cs) :
    (K.pushed p n cs olds N).graph c.id = some c.knot := by
  have hlt := (F.below hp).2
  have hcp : c.id ≠ p := fun h => (F.notMem_kids hp R).1 (h ▸ List.mem_map_of_mem hc)
  show (if c.id = p then _ else if c.id ∈ olds then none
    else if c.id < K.next then K.graph c.id else knotIn cs c.id) = some c.knot
  rw [if_neg hcp, if_neg (R.notMem_olds (F.tree.nodup hp) hlt c hc)]
  rcases R.mem hc with ⟨hmem, hfit⟩ | ⟨hle, -⟩
  · rw [if_pos (hlt _ hmem), hfit.knot]
  · rw [if_neg (Nat.not_lt_of_ge hle), knotIn_of_mem (R.nodup (F.tree.nodup hp) hlt) hc]

theorem pushed_other {x : NodeId} (hxp : x ≠ p) (hx : x ∉ olds) (hlt : x < K.next) :
    (K.pushed p n cs olds N).graph x = K.graph x := by
  show (if x = p then _ else if x ∈ olds then none
    else if x < K.next then K.graph x else knotIn cs x) = K.graph x
  rw [if_neg hxp, if_neg hx, if_pos hlt]

/-- A push is a swap of the children that were replaced. -/
theorem push_swap (F : K.Full o) (hp : K.graph p = some n)
    (R : Renewed K.graph K.next n.kids cs olds N) :
    Swap K.graph (K.pushed p n cs olds N).graph p (· ∈ olds)
      (fun x z => ∃ c ∈ cs, c.id = z ∧ K.next ≤ z ∧ K.graph x = some c.knot) := by
  have hlt : ∀ x ∈ n.kids, x < K.next := (F.below hp).2
  have hnd := F.tree.nodup hp
  have hsub := R.olds_sublist
  have hkid : ∀ c ∈ cs, (K.pushed p n cs olds N).graph c.id = some c.knot := fun c hc =>
    F.pushed_kid hp R hc
  refine ⟨⟨n, _, hp, pushed_at, R.nodup hnd hlt, fun c hc ho => R.kept hc ho, fun x z _ hz => ?_,
    fun z hz => ?_, fun c hc => hsub.subset hc⟩, fun {x} hx => ?_, fun {x z} _ hz => ?_,
    fun {x} hx hxp hne => ?_, fun U x y z z' m m' k _ _ hz hz' hm hm' hk hk' => ?_,
    fun {z m} hz => ?_⟩
  · obtain ⟨c, hc, rfl, -⟩ := hz
    exact List.mem_map_of_mem hc
  · obtain ⟨c, hc, rfl⟩ := List.mem_map.mp hz
    rcases R.mem hc with ⟨hc, -⟩ | ⟨hle, -, -, x, hx, hgx⟩
    · exact .inl hc
    · exact .inr ⟨x, hx, c, hc, rfl, hle, hgx⟩
  · obtain ⟨c, hc, hle, hgx⟩ := R.old hx
    refine ⟨c.knot, hgx, F.pushed_old hp R hx, fun k hk => ⟨c.id, c.knot, ⟨c, hc, rfl, hle, hgx⟩,
      hkid c hc, hk⟩, fun z hz => ?_⟩
    obtain ⟨d, hd, rfl, -, hgd⟩ := hz
    have heq : c.knot = d.knot := Option.some.inj (hgx.symm.trans hgd)
    exact ⟨d.knot, hkid d hd, by rw [heq], by rw [heq]⟩
  · obtain ⟨c, -, rfl, hle, -⟩ := hz
    exact ⟨F.fresh_graph hle, F.fresh_kid hle⟩
  · obtain ⟨m, hm⟩ := Option.ne_none_iff_exists'.mp hne
    exact pushed_other hxp hx (F.below hm).1
  · obtain ⟨c, hc, rfl, hle, -⟩ := hz
    obtain ⟨d, hd, rfl, hle', -⟩ := hz'
    obtain rfl := Option.some.inj ((hkid c hc).symm.trans hm)
    obtain rfl := Option.some.inj ((hkid d hd).symm.trans hm')
    exact congrArg SSTNode.id (R.apart U hnd hlt hc hd hle hle' hk hk')
  · by_cases hzo : z ∈ olds
    · exact nomatch (F.pushed_old hp R hzo).symm.trans hz
    by_cases hzp : z = p
    · exact .inl ⟨by simp [hzp, hp], hzo⟩
    by_cases hzl : z < K.next
    · exact .inl ⟨by rw [← pushed_other hzp hzo hzl, hz]; simp, hzo⟩
    · have hz : (if z = p then _ else if z ∈ olds then none
        else if z < K.next then K.graph z else knotIn cs z) = some m := hz
      rw [if_neg hzp, if_neg hzo, if_neg hzl] at hz
      obtain ⟨c, hc, rfl⟩ := List.mem_map.mp (knotIn_some hz)
      rcases R.mem hc with ⟨hmem, -⟩ | ⟨hle, -, -, x, hx, hgx⟩
      · exact absurd (hlt _ hmem) hzl
      · exact .inr ⟨x, hx, c, hc, rfl, hle, hgx⟩

/-- **A push** keeps the tree, and whatever lies on a clear way above the children. -/
theorem push (F : K.Full o) (hp : K.graph p = some n)
    (R : Renewed K.graph K.next n.kids cs olds N) :
    (K.pushed p n cs olds N).Full o ∧ Stable o (n.level - 1) K (K.pushed p n cs olds N) := by
  have W := F.push_swap hp R
  have T := W.isTree F.tree
  have hle : K.next ≤ N := R.le
  -- a node above the children is not one of them
  have hhigh : ∀ {y k}, K.graph y = some k → n.level - 1 < k.level → y ∉ n.kids := by
    intro y k hk hlt hy
    have := F.tree.level hp hy hk
    omega
  have hkeep : ∀ y, K.known y → (K.pushed p n cs olds N).known y := fun _ => .inl
  refine ⟨⟨⟨T.toIsGraded, fun ho => W.once (F.once ho), fun y hy => ?_, fun {y m} hy => ?_, rfl,
    fun y hy => ?_⟩, T.reach, fun _ => id⟩, F.stable_of_swap W (fun {_ z} _ hz => ?_) hle rfl hkeep
    (fun {y k} hk hlt hd _ => .inl ⟨hd, hhigh hk hlt⟩) fun {y z k} hy _ hk hlt _ => ?_⟩
  · exact hy.elim (fun h => (F.known y h).trans_le hle) And.right
  · refine F.knows_of_swap W (fun {_ z} _ hz => ?_) hkeep hy
    obtain ⟨c, hc, rfl, hge, -⟩ := hz
    rcases R.mem hc with ⟨hmem, -⟩ | ⟨-, hlt, -⟩
    · exact .inl ((F.knows hp).2 _ hmem)
    · exact .inr ⟨hge, hlt⟩
  · rcases hy with ⟨hy, -⟩ | rfl
    · exact .inl (F.dry y hy)
    · exact .inl (F.knows hp).1
  · obtain ⟨c, -, rfl, hge, -⟩ := hz
    exact hge
  · exact absurd (R.olds_sublist.subset hy) (hhigh hk hlt)

/-- If no node has two parents, the new tree names no old node. -/
theorem pushing_loose (F : K.Full o) (ho : o) (hp : K.graph p = some n)
    (R : Renewed K.graph K.next n.kids cs olds N) : (K.pushing p n cs olds N).Loose o := by
  have L := (F.push hp R).1.toLoose
  have W := F.push_swap hp R
  obtain ⟨hpc, hpo⟩ := F.notMem_kids hp R
  have hold : ∀ {x}, x ∈ olds → x ∈ n.kids := fun hx => R.olds_sublist.subset hx
  refine ⟨L.graded, L.once, fun y hy => L.known y hy.1, fun {y m} hy => ⟨⟨(L.knows hy).1, fun h => ?_⟩,
    fun c hc => ⟨(L.knows hy).2 c hc, fun h => ?_⟩⟩, .inl rfl, fun y hy => ⟨.inl (F.dry y hy.1),
    fun h => hy.2.1 (hold h)⟩⟩
  · exact nomatch (F.pushed_old hp R h).symm.trans hy
  · rcases W.kid_cases hy hc with ⟨-, x, -, d, -, rfl, hge, -⟩ | ⟨z, k, hz, hck, hcase⟩
    · exact Nat.not_lt_of_ge hge ((F.below hp).2 _ (hold h))
    · obtain rfl := F.once ho hz hp hck (hold h)
      rcases hcase with ⟨rfl, -⟩ | ⟨hX, -⟩
      · have hm : m = ⟨n.level, cs.map (·.id)⟩ := Option.some.inj (hy.symm.trans (pushed_at (N := N)))
        rw [hm] at hc
        obtain ⟨d, hd, rfl⟩ := List.mem_map.mp hc
        exact R.notMem_olds (F.tree.nodup hp) (F.below hp).2 d hd h
      · exact hpo hX

end Full

end Outline

/-- A write through a reference to a node that is known to be cached. -/
theorem Shows.revise {w : World} (S : Shows K w) (hk : K.known p) (hheld : K.held p)
    (hp : K.graph p = some n) {f : SSTNode → SSTNode} {s : Knot NodeId} {d : Prop}
    (hfan : s.kids.length ≤ maxFanout)
    (hf : ∀ m : SSTNode, m.knot = n → (f m).id = m.id ∧ (f m).knot = s ∧ (d → (f m).buffer = [])) :
    Shows (K.put p s d) (w.modifyNode p f) := by
  obtain ⟨m, hm⟩ := Option.ne_none_iff_exists'.mp (S.held hheld)
  have Fm := (S.cell p).node hk hm
  obtain ⟨hid, hs, hbuf⟩ := hf m (Option.some.inj (Fm.knot.symm.trans hp))
  have hw : w.modifyNode p f = w.setNode p (f m) := by
    have hc : w.cache.lookup p = some m := hm
    rw [World.modifyNode, hc]
  rw [hw, ← hs]
  exact S.put (hid.trans Fm.id) ((congrArg (·.kids.length) hs).trans_le hfan) (S.lt_next hm) hbuf

/-- **The push of `do_flush`** keeps the tree. The children it returns are one level
below, and the parent's buffer is empty. -/
theorem pushDown_leaves (F : K.Full o) (hk : K.known p) (w : World) (S : Shows K w) :
    Act.Spec (pushDown p) w (fun ids u => ∃ n K', K.graph p = some n ∧ K'.Full o ∧ Shows K' u ∧
      K.Stable o (n.level - 1) K' ∧ K'.graph p = some ⟨n.level, ids⟩ ∧ K'.dry p) (Finishes o) := by
  have hlt := F.known p hk
  unfold pushDown
  refine Act.Spec.bind (getNode_caches (fun _ => F.toLoose) p S) fun parent u hu => ?_
  obtain ⟨Su, hfit, hcached⟩ := hu
  have hfit := hfit.under hk
  have hpk := hfit.knot
  have hpfan : parent.childIds.length ≤ maxFanout := hfit.fanout
  obtain ⟨n, hn⟩ : ∃ n, n = parent.knot := ⟨_, rfl⟩
  rw [show parent.childIds = n.kids by rw [hn]; rfl] at hpfan ⊢
  rw [← hn] at hpk
  have hids : ∀ c ∈ n.kids, c < K.next := (F.below hpk).2
  have S₀ : Shows (K.around p n) u := by
    refine Su.weaken rfl rfl (fun y hy => ?_) (fun y hy => ⟨hy, rfl⟩) (fun y hy => hy) fun y hy => hy.1
    rcases hy with rfl | rfl
    · exact Su.held F.held
    · simp [hcached]
  refine Act.Spec.bind (leaves_loadChildren (fun _ => F.around p n) n.kids (fun c hc =>
    ⟨(F.knows hpk).2 c hc, hids c hc, fun h => h.2 hc⟩) u S₀) fun cs₀ v hv => ?_
  obtain ⟨Sv, hcs₀, hfits⟩ := hv
  have hheld : (K.around p n).held p := .inr rfl
  refine Act.Spec.bind (leaves_localFlush hheld (fun y hy => ?_) (fun c hc => ?_) v Sv)
    fun r v₁ h₁ => ?_
  · rcases hy with hy | hy | hy
    · exact F.known y hy
    · exact absurd hy (F.fresh y)
    · exact F.known y (F.dry y hy.1)
  · exact ⟨(hfits c hc).1, hids _ (hcs₀ ▸ List.mem_map_of_mem hc), (hfits c hc).2⟩
  obtain ⟨N, R, hnew, S₁⟩ := h₁
  rw [hcs₀] at R
  obtain ⟨cs, ⟨newIds, olds⟩⟩ := r
  dsimp only at R hnew S₁ ⊢
  subst hnew
  have R : Renewed K.graph K.next n.kids cs olds N := R
  obtain ⟨hpc, hpo⟩ := F.notMem_kids hpk R
  obtain ⟨F', hst⟩ := F.push hpk R
  have hfan : (cs.map (·.id)).length ≤ maxFanout := by
    rw [List.length_map, R.length]
    exact hpfan
  -- the parent names the new children
  refine Act.Spec.update_bind ?_
  have hat : ((K.around p n).renew N cs olds).graph p = some n := (if_pos hlt).trans hpk
  have S₂ := S₁.revise (s := ⟨n.level, cs.map (·.id)⟩) (d := False) (.inl hk) (.inr rfl) hat hfan
    (f := fun q => { q with
      childIds := List.zipWith (fun old new => if old ∈ olds then new else old)
        q.childIds (cs.map (·.id)) }) (by
      rintro m rfl
      exact ⟨rfl, congrArg (Knot.mk m.level) (R.zipWith_eq (F.tree.nodup hpk) olds (fun _ h => h)
        fun _ _ h => h), False.elim⟩)
  have hgraph : ∀ y, y ∉ olds → (K.pushing p n cs olds N).graph y =
      (((K.around p n).renew N cs olds).put p ⟨n.level, cs.map (·.id)⟩ False).graph y := by
    intro y hy
    show (if y = p then _ else if y ∈ olds then none
      else if y < K.next then K.graph y else knotIn cs y) =
        Function.update ((K.around p n).renew N cs olds).graph p _ y
    rw [if_neg hy, Function.update_apply]
    rfl
  have S₂ : Shows (K.pushing p n cs olds N) _ := S₂.weaken rfl rfl (fun y hy => S₂.held (.inl hy))
    (fun y hy => ⟨.inl hy.1, hgraph y hy.2⟩) (fun y hy => .inr hy)
    fun y hy => .inr ⟨hy.2.2, hy.1, hy.2.1⟩
  refine Act.Spec.bind (leaves_refreshCache cs olds (fun ho => F.pushing_loose ho hpk R)
    (R.length ▸ R.olds_sublist.length_le) (fun x hx => ?_) (fun c hc => ?_) _ S₂) fun _ v₂ h₂ => ?_
  · have hx' := R.olds_sublist.subset hx
    refine ⟨(hids x hx').trans_le R.le, F.pushed_old hpk R hx, hx, fun h => ?_⟩
    exact h.elim (F.tree.root_ne hpk hx') (F.tree.kid_ne hpk hx')
  · have hno := R.notMem_olds (F.tree.nodup hpk) hids c hc
    have hkid := F.pushed_kid hpk R hc
    rcases R.mem hc with ⟨hck, hfit⟩ | ⟨hle, hltN, hcfan, -⟩
    · exact ⟨hno, hno, (hids _ hck).trans_le R.le, fun _ => ⟨rfl, hfit.fanout, hkid⟩,
        fun h => absurd hck h.2.1⟩
    · exact ⟨hno, hno, hltN, fun _ => ⟨rfl, hcfan, hkid⟩,
        fun h => absurd (F.known _ (F.dry _ h.1)) (Nat.not_lt_of_ge hle)⟩
  obtain ⟨S₃, -⟩ := h₂
  -- its buffer is empty now
  refine Act.Spec.update_bind ?_
  have S₄ := S₃.revise (s := ⟨n.level, cs.map (·.id)⟩) (d := True) (.inl ⟨.inl hk, hpo⟩) (.inr rfl)
    (Outline.Full.pushed_at (N := N)) hfan (f := fun q => { q with buffer := [] })
    (by
      rintro m hm
      exact ⟨rfl, hm, fun _ => rfl⟩)
  have S₅ : Shows (K.pushed p n cs olds N) (v₂.modifyNode p fun q => { q with buffer := [] }) := by
    refine S₄.weaken rfl rfl (fun y hy => S₄.held (.inl (.inl hy)))
      (fun y hy => ⟨.inl ((em (y ∈ olds)).symm.imp_left fun h => ⟨hy, h⟩), ?_⟩) (fun _ => False.elim)
      fun y hy => ?_
    · show _ = Function.update (K.pushed p n cs olds N).graph p _ y
      rw [Function.update_apply]
      split
      · rename_i h
        rw [h]
        exact Outline.Full.pushed_at (N := N)
      · rfl
    · by_cases h : y = p
      · exact .inl ⟨h, trivial⟩
      · have hy := hy.resolve_right h
        exact .inr ⟨h, hy.1, hy.2, h⟩
  refine (leaves_finishPush (fun _ => F'.toLoose) (.inl hk) (hlt.trans_le R.le) id _ _ S₅).mono ?_
    fun _ _ h => h
  rintro ids u' ⟨Su', rfl⟩
  exact ⟨n, _, hpk, F', Su', hst, Outline.Full.pushed_at (N := N), .inr rfl⟩

end Push

end GravTree
