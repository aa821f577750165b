import GravTree.Agreement
import GravTree.Proof.Descent
import GravTree.Proof.Serve

/-!
# A flush cycle ends

`do_flush` calls itself on children, and each child it splits sends `insert_child` up to
the root. The two take turns on one tree, so neither can count on what it saw before.
What each can count on are the levels: a node keeps its level for as long as it is there,
wherever splits move it.
-/

namespace GravTree

open Graded

variable {o : Prop} {K : Outline}

/-! ## Down -/

/-- What `do_flush` knows of the children it has yet to look at. -/
structure Outline.Due (o : Prop) (K : Outline) (p : NodeId) (level : Nat) (ids : List NodeId) :
    Prop where
  parent : K.known p
  below : ∀ c ∈ ids, K.known c
  root : ∀ c ∈ ids, c ≠ K.root
  level : ∀ c ∈ ids, ∀ m, K.graph c = some m → m.level = level
  kid : ∀ c ∈ ids, ∀ n, K.graph p = some n → K.graph c ≠ none → c ∈ n.kids
  clear : o → ∀ c ∈ ids, K.graph c ≠ none → K.Clear c

theorem Outline.Due.stable {K' : Outline} {p level : Nat} {ids : List NodeId}
    (D : K.Due o p level ids) (h : K.Stable o level K') (hlt : ∀ x, K.known x → x < K.next) :
    K'.Due o p level ids where
  parent := h.known p D.parent
  below c hc := h.known c (D.below c hc)
  root c hc := by
    rcases h.root with heq | hle
    · rw [heq]
      exact D.root c hc
    · exact ((hlt c (D.below c hc)).trans_le hle).ne
  level c hc m hm := by
    obtain ⟨k, hk, hl, -⟩ := h.old (hlt c (D.below c hc)) hm
    exact hl.symm.trans (D.level c hc k hk)
  kid c hc n hn hne := by
    obtain ⟨k, hk, -, hkids⟩ := h.old (hlt p D.parent) hn
    obtain ⟨m, hm⟩ := Option.ne_none_iff_exists'.mp hne
    obtain ⟨m', hm', -⟩ := h.old (hlt c (D.below c hc)) hm
    exact hkids c (D.kid c hc k hk (by simp [hm'])) hne
  clear ho c hc hne := by
    obtain ⟨m, hm⟩ := Option.ne_none_iff_exists'.mp hne
    obtain ⟨k, hk, hl, -⟩ := h.old (hlt c (D.below c hc)) hm
    exact h.clear ho (hlt c (D.below c hc)) hm ((D.level c hc k hk).symm.trans hl).le
      (D.clear ho c hc (by simp [hk]))

theorem Outline.Due.sublist {p level : Nat} {ids ids' : List NodeId} (D : K.Due o p level ids)
    (h : ids' ⊆ ids) : K.Due o p level ids' :=
  ⟨D.parent, fun c hc => D.below c (h hc), fun c hc => D.root c (h hc),
    fun c hc => D.level c (h hc), fun c hc => D.kid c (h hc), fun ho c hc => D.clear ho c (h hc)⟩

/-- The program leaves a tree, in which the nodes that were there keep their levels. -/
def Settles (o : Prop) (l : Nat) (K : Outline) (x : M Unit) (w : World) : Prop :=
  Act.Spec x w (fun _ u => ∃ K', K'.Full o ∧ Shows K' u ∧ K.Stable o l K') (Finishes o)

theorem Settles.mono_level {l l' : Nat} {x : M Unit} {w : World} (h : Settles o l K x w)
    (hl : l ≤ l') : Settles o l' K x w :=
  Act.Spec.mono h (fun _ _ h => h.imp fun _ h => ⟨h.1, h.2.1, h.2.2.mono hl⟩) fun _ _ h => h

theorem Settles.settled {l : Nat} {x : M Unit} {w : World} (h : Settles o l K x w) :
    Act.Spec x w (fun _ u => ∃ K', K'.Full o ∧ Shows K' u) (Finishes o) :=
  Act.Spec.mono h (fun _ _ h => h.imp fun _ h => ⟨h.1, h.2.1⟩) fun _ _ h => h

theorem Outline.Full.leaf (F : K.Full o) {x : NodeId} {n : SSTNode} (hn : n.Under K.graph x)
    (hl : n.level = 0) : K.graph x = some ⟨0, []⟩ := by
  have hk : n.childIds = [] := List.eq_nil_iff_forall_not_mem.mpr fun c hc =>
    F.tree.inner hn.knot hc hl
  rw [hn.knot, SSTNode.knot, hl, hk]

theorem Outline.Full.level_ne (F : K.Full o) {x : NodeId} {n : SSTNode} (hn : n.Under K.graph x)
    (hk : n.childIds ≠ []) : n.level ≠ 0 := fun h0 =>
  hk (congrArg Knot.kids (Option.some.inj (hn.knot.symm.trans (F.leaf hn h0))))

/-- **The loop over the children** ends if the calls of `do_flush` on them do. -/
theorem checkChildren_ends {level p : Nat} {flushChild : NodeId → M Unit}
    (hflush : ∀ {K : Outline} {c : NodeId} {n} {w : World}, K.Full o → Shows K w →
      K.graph c = some n → n.level = level → n.level ≠ 0 → (o → K.Clear c) →
      Settles o level K (flushChild c) w) :
    ∀ (ids : List NodeId) {K : Outline} {w : World}, K.Full o → Shows K w → K.Due o p level ids →
      Settles o level K (checkChildren flushChild p ids) w
  | [], K, _, F, S, _ => Act.Spec.pure ⟨K, F, S, .refl K⟩
  | c :: ids, K, w, F, S, D => by
    have hrest : ∀ {K' u}, K'.Full o → Shows K' u → K.Stable o level K' →
        Act.Spec (checkChildren flushChild p ids) u
          (fun _ u => ∃ K', K'.Full o ∧ Shows K' u ∧ K.Stable o level K') (Finishes o) := by
      intro K' u F' S' hst
      have D' := (D.sublist (List.subset_cons_self c ids)).stable hst F.known
      refine (checkChildren_ends hflush ids F' S' D').mono (fun _ _ h => ?_) fun _ _ h => h
      obtain ⟨K₂, F₂, S₂, hst₂⟩ := h
      exact ⟨K₂, F₂, S₂, hst.trans hst₂ fun hx d hd => (F.below hx).2 d hd⟩
    have hc := List.mem_cons_self (a := c) (l := ids)
    refine Act.Spec.world_bind ?_
    split
    · rename_i child hcached
      have hfit := (S.cell c).node (n := child) (D.below c hc) hcached
      have hclear : o → K.Clear c := fun ho => D.clear ho c hc (by simp [hfit.knot])
      split
      · split
        · rename_i hleaf
          have hl : child.level = 0 := by
            have := (Bool.and_eq_true _ _ ▸ hleaf).1
            simpa [SSTNode.isLeaf] using this
          have hx := F.leaf hfit hl
          refine Act.Spec.bind (splitLeaf_ends F hx D.parent (fun n hn => D.kid c hc n hn (by simp [hx]))
            (D.root c hc) w S) fun _ u hu => ?_
          obtain ⟨K', F', S', hst⟩ := hu
          exact hrest F' S' (hst.mono (Nat.zero_le _))
        · split
          · rename_i hkids
            have hl := F.level_ne hfit (by simpa using hkids)
            refine Act.Spec.bind (hflush F S hfit.knot (D.level c hc _ hfit.knot) hl hclear)
              fun _ u hu => ?_
            obtain ⟨K', F', S', hst⟩ := hu
            exact hrest F' S' hst
          · exact hrest F S (.refl K)
      · exact hrest F S (.refl K)
    · exact hrest F S (.refl K)

/-- What is due after a push. -/
theorem Outline.Full.due (F : K.Full o) {p level : Nat} {ids : List NodeId}
    (hp : K.graph p = some ⟨level + 1, ids⟩) (hd : K.dry p) (hclear : o → K.Clear p) :
    K.Due o p level ids where
  parent := (F.knows hp).1
  below := (F.knows hp).2
  root _ hc := F.tree.root_ne hp hc
  level _ hc _ hm := Nat.succ_injective (F.tree.level hp hc hm)
  kid _ hc _ hn _ := Option.some.inj (hp.symm.trans hn) ▸ hc
  clear ho _ hc _ := (hclear ho).tail ⟨hd, _, hp, hc⟩

/-- **`do_flush` ends.** -/
theorem doFlush_settles : ∀ (fuel : Nat) {K : Outline} {p : NodeId} {n : Knot NodeId} {w : World},
    K.Full o → Shows K w → K.graph p = some n → n.level = fuel → n.level ≠ 0 → (o → K.Clear p) →
    Settles o (fuel - 1) K (doFlush fuel p) w := by
  intro fuel
  induction fuel with
  | zero => exact fun _ _ _ h h0 => absurd h h0
  | succ fuel ih =>
    intro K p n w F S hp hl _ hclear
    refine Act.Spec.bind (pushDown_leaves F (F.knows hp).1 w S) fun ids u hu => ?_
    obtain ⟨n', K', hn', F', S', hst, hat, hd⟩ := hu
    obtain rfl := Option.some.inj (hp.symm.trans hn')
    rw [hl] at hat hst
    have hclear' : o → K'.Clear p := fun ho =>
      hst.clear ho (F.below hp).1 hat (Nat.sub_le _ _) (hclear ho)
    refine (checkChildren_ends (fun F S hc hlc h0 hcl => (ih F S hc hlc h0 hcl).mono_level
      (Nat.sub_le _ _)) ids F' S' (F'.due hat hd hclear')).mono (fun _ _ h => ?_) fun _ _ h => h
    obtain ⟨K₂, F₂, S₂, hst₂⟩ := h
    exact ⟨K₂, F₂, S₂, hst.trans hst₂ fun hx d hd => (F.below hx).2 d hd⟩

/-! ## A cycle -/

/-- A leaf that is the root is split under a new root. -/
theorem splitLeaf_root (F : K.Full o) (hx : K.graph K.root = some ⟨0, []⟩) (w : World)
    (S : Shows K w) : Settles o 0 K (splitLeaf K.root [K.root]) w := by
  unfold Settles
  rw [splitLeaf_eq]
  refine Act.Spec.bind (leaves_cutLeaf F (F.below hx).1 _ w S) fun h u hu => ?_
  obtain ⟨Su, rfl⟩ := hu
  rw [if_pos (by simp)]
  have hx' : K.graph K.root = some ⟨0, ([] : List NodeId) ++ []⟩ := hx
  obtain ⟨F', hst⟩ := F.cut_grow hx'
  obtain ⟨hunknown, hwet⟩ := F.cut_fresh (x := K.root) (l := 0) (a := []) (b := [])
  refine Act.Spec.bind (leaves_growRoot hunknown hwet (F.fresh _) (.inr (.inl rfl)) (.inr (.inr rfl))
    u Su) fun _ v hv => ?_
  exact (leaves_commit v hv.1).mono (fun _ _ h => ⟨_, F', h.1, hst⟩) fun _ _ h => h

/-- The path to a leaf that is the root. -/
theorem leaves_findPath (F : K.Full o) (hx : K.graph K.root = some ⟨0, []⟩) (key : Bytes) :
    Leaves o K (findPath key) K fun path => path = [K.root] := by
  intro w S
  have hk := (F.knows hx).1
  obtain ⟨n, hn, hh⟩ := S.height F.held hk
  obtain rfl := Option.some.inj (hx.symm.trans hn)
  have hr : w.manifest.rootId = K.root := S.root
  refine Act.Spec.world_bind ?_
  rw [hr, hh]
  refine Act.Spec.bind (leaves_getNode (fun _ => F.toLoose) K.root w S) fun node u hu => ?_
  have hfit := hu.2.under hk
  have hl : node.level = 0 := congrArg Knot.level (Option.some.inj (hfit.knot.symm.trans hx))
  rw [if_pos (by simp [SSTNode.isLeaf, hl])]
  exact Act.Spec.pure ⟨hu.1, rfl⟩

theorem leaves_mergeIntoRoot (L : K.Loose o) (hk : K.known K.root) (hd : ¬ K.dry K.root)
    (es : List Entry) : Leaves o K (mergeIntoRoot es) K fun n => n.Under K.graph K.root := by
  intro w S
  have hr : w.manifest.rootId = K.root := S.root
  refine Act.Spec.world_bind ?_
  rw [hr]
  refine Act.Spec.bind (leaves_getNode (fun _ => L) K.root w S) fun _ u hu => Act.Spec.update_bind ?_
  have Su := hu.1.modifyNode K.root (f := fun n => { n with buffer := stableSort (n.buffer ++ es) })
    (fun _ => ⟨rfl, rfl, rfl⟩) fun h => absurd h hd
  exact (leaves_getNode (fun _ => L) K.root _ Su).mono (fun _ _ h => ⟨h.1, h.2.under hk⟩) fun _ _ h => h

/-- **A cycle ends.** -/
theorem flushPending_settles (F : K.Full o) (hd : ¬ K.dry K.root) (es : List Entry) (w : World)
    (S : Shows K w) : Act.Spec (flushPending es) w (fun _ u => ∃ K', K'.Full o ∧ Shows K' u)
      (Finishes o) := by
  have hr : w.manifest.rootId = K.root := S.root
  obtain ⟨m, hm⟩ := F.tree.root
  have hk := (F.knows hm).1
  unfold flushPending
  refine Act.Spec.world_bind ?_
  rw [hr]
  refine Act.Spec.bind (leaves_mergeIntoRoot F.toLoose hk hd es w S) fun root u hu => ?_
  obtain ⟨Su, hfit⟩ := hu
  have hdone : Act.Spec (pure () : M Unit) u (fun _ u => ∃ K', K'.Full o ∧ Shows K' u) (Finishes o) :=
    Act.Spec.pure ⟨K, F, Su⟩
  split
  · split
    · rename_i hleaf
      have hl : root.level = 0 := by
        have := (Bool.and_eq_true _ _ ▸ hleaf).1
        simpa [SSTNode.isLeaf] using this
      have hx := F.leaf hfit hl
      refine Act.Spec.bind (leaves_findPath F hx _ u Su) fun path v hv => ?_
      obtain ⟨Sv, rfl⟩ := hv
      exact (splitLeaf_root F hx v Sv).settled
    · split
      · rename_i hkids
        exact (doFlush_settles root.level F Su hfit.knot rfl (F.level_ne hfit (by simpa using hkids))
          fun _ => .refl).settled
      · exact hdone
  · exact hdone

/-! ## The calls of a cycle -/

/-- A call of `do_flush` or of `insert_child`. -/
inductive TreeCall where
  | flush (p : NodeId)
  | insert (p old left right : NodeId)

/-- A call, and a call it makes, each with the world it starts in. -/
inductive Calls : TreeCall × World → TreeCall × World → Prop
  /-- `do_flush` calls itself on a full internal child. -/
  | flush {p c ids ids' n m w w₁ u} (hp : w.fetch p = some n)
      (hpush : pushDown p ⟨w, none⟩ = .ok (ids ++ c :: ids') ⟨w₁, none⟩)
      (hloop : checkChildren (doFlush (n.level - 1)) p ids ⟨w₁, none⟩ = .ok () ⟨u, none⟩)
      (hc : u.cache.lookup c = some m) (hfull : m.bufferFull = true) (hk : m.childIds ≠ []) :
      Calls (.flush p, w) (.flush c, u)
  /-- It splits a full leaf. -/
  | split {p c ids ids' n m w w₁ u a b v} (hp : w.fetch p = some n)
      (hpush : pushDown p ⟨w, none⟩ = .ok (ids ++ c :: ids') ⟨w₁, none⟩)
      (hloop : checkChildren (doFlush (n.level - 1)) p ids ⟨w₁, none⟩ = .ok () ⟨u, none⟩)
      (hc : u.cache.lookup c = some m) (hfull : m.bufferFull = true) (hl : m.level = 0)
      (hcut : cutLeaf c [p, c] ⟨u, none⟩ = .ok (a, b) ⟨v, none⟩) :
      Calls (.flush p, w) (.insert p c a b, v)
  /-- `insert_child` cuts a full parent that is not the root. -/
  | climb {p x l r a b path parent w w₁ u} (hp : getNode p ⟨w, none⟩ = .ok parent ⟨w₁, none⟩)
      (hfull : ¬ parent.childIds.length < maxFanout) (hx : x ∈ parent.childIds)
      (hcut : cutParent parent x l r ⟨w₁, none⟩ = .ok (a, b, path) ⟨u, none⟩)
      (hpath : path.length ≠ 1) : Calls (.insert p x l r, w)
        (.insert (path.getD (path.length - 2) invalidNodeId) parent.id a b, u)

/-- `do_flush` goes one level down, `insert_child` goes one level up and stays within the
height. -/
inductive Nearer : TreeCall × World → TreeCall × World → Prop
  | down {p c w u n m} (hp : w.fetch p = some n) (hc : u.fetch c = some m)
      (hl : m.level + 1 = n.level) : Nearer (.flush p, w) (.flush c, u)
  | turn {p q x l r w u} : Nearer (.flush p, w) (.insert q x l r, u)
  | up {p x l r q x' l' r' w u n} (hp : w.fetch p = some n)
      (hq : ∀ m, u.fetch q = some m → m.level = n.level + 1)
      (hlt : n.level + 1 < w.height) (hh : u.height = w.height) :
      Nearer (.insert p x l r, w) (.insert q x' l' r', u)

/-- What holds when a call begins. If `o` holds, the buffers above the node of the call are
empty, and for a call of `insert_child` also that of the node. -/
inductive Begun (o : Prop) : TreeCall × World → Prop
  | flush {p w K n} (F : Outline.Full o K) (S : Shows K w) (hp : K.graph p = some n)
      (hl : n.level ≠ 0) (hclear : o → K.Clear p) : Begun o (.flush p, w)
  | insert {p x l r w K} (S : Shows K w) (L : Outline.Loose o K) (hk : K.known p)
      (hp : ∀ n, K.graph p = some n → (K.link p x l r).Full o)
      (hclear : o → ∀ n, K.graph p = some n → (K.link p x l r).Clear p ∧ K.dry p)
      (hw : 0 < w.height) : Begun o (.insert p x l r, w)

section Calls

theorem Act.Spec.ok {α : Type} {x : M α} {w u : World} {a : α} {s} {Q : α → World → Prop}
    {E : Exc → World → Prop} (h : Act.Spec x w Q E) (hr : x ⟨w, none⟩ = .ok a ⟨u, s⟩) : Q a u := by
  have := h none
  rw [hr] at this
  exact this.2

/-- What `get_node` finds is what the outline says. -/
theorem Shows.fetch {w : World} (S : Shows K w) {x : NodeId} {n : SSTNode} (h : w.fetch x = some n) :
    n.Found K x := by
  unfold World.fetch at h
  split at h
  · rename_i m hm
    obtain rfl := Option.some.inj h
    obtain ⟨⟨u, s⟩, hu⟩ := Act.eval_ok hm
    exact (Act.Spec.ok (leaves_getNode (o := False) False.elim x w S) hu).2
  · exact nomatch h

theorem fetch_of_getNode {w u : World} {x : NodeId} {n : SSTNode} {s}
    (h : getNode x ⟨w, none⟩ = .ok n ⟨u, s⟩) : w.fetch x = some n := by
  rw [World.fetch, Act.eval, h]

theorem fetch_of_cached {w : World} {x : NodeId} {n : SSTNode} (h : w.cache.lookup x = some n) :
    w.fetch x = some n := fetch_of_getNode (getNode_reads h).ok_eq

/-- The loop of `do_flush` stands at `c`. -/
theorem Begun.child {p c : NodeId} {ids ids' : List NodeId} {n : SSTNode} {w w₁ u : World}
    (B : Begun o (.flush p, w)) (hp : w.fetch p = some n)
    (hpush : pushDown p ⟨w, none⟩ = .ok (ids ++ c :: ids') ⟨w₁, none⟩)
    (hloop : checkChildren (doFlush (n.level - 1)) p ids ⟨w₁, none⟩ = .ok () ⟨u, none⟩) :
    ∃ K level, K.Full o ∧ Shows K u ∧ K.Due o p level [c] ∧ n.level = level + 1 := by
  cases B with
  | @flush _ _ K k F S hk hl hclear =>
    have hknown := (F.knows hk).1
    obtain rfl := Option.some.inj (hk.symm.trans ((S.fetch hp).under hknown).knot)
    have hlev : n.level = (n.level - 1) + 1 := (Nat.succ_pred_eq_of_ne_zero hl).symm
    obtain ⟨k', K', hk', F', S', hst, hat, hd⟩ := Act.Spec.ok (pushDown_leaves F hknown w S) hpush
    obtain rfl := Option.some.inj (hk.symm.trans hk')
    have hclear' : o → K'.Clear p := fun ho =>
      hst.clear ho (F.below hk).1 hat (Nat.sub_le _ _) (hclear ho)
    have D : K'.Due o p (n.level - 1) (ids ++ c :: ids') :=
      F'.due (by rw [hat, ← hlev]; rfl) hd hclear'
    obtain ⟨K₂, F₂, S₂, hst⟩ := Act.Spec.ok (checkChildren_ends (fun F S hc hlc h0 hcl =>
      (doFlush_settles (n.level - 1) F S hc hlc h0 hcl).mono_level (Nat.sub_le _ _)) ids F' S'
      (D.sublist (List.subset_append_left ..))) hloop
    exact ⟨K₂, n.level - 1, F₂, S₂, (D.sublist (by simp)).stable hst F'.known, hlev⟩

/-- **Every call** begins with a tree, and is nearer to its end than its caller. -/
theorem Calls.nearer {a b : TreeCall × World} (h : Calls a b) (B : Begun o a) :
    Begun o b ∧ Nearer a b := by
  cases h with
  | @flush p c ids ids' n m w w₁ u hp hpush hloop hc hfull hk =>
    obtain ⟨K, level, F, S, D, hlev⟩ := B.child hp hpush hloop
    have hmem := List.mem_singleton_self c
    have hfit := (S.cell c).node (n := m) (D.below c hmem) hc
    have hl := D.level c hmem _ hfit.knot
    refine ⟨.flush F S hfit.knot (F.level_ne hfit hk) fun ho =>
      D.clear ho c hmem (by simp [hfit.knot]), .down hp (fetch_of_cached hc) ?_⟩
    rw [hlev]
    exact congrArg (· + 1) hl
  | @split p c ids ids' n m w w₁ u a b v hp hpush hloop hc hfull hl hcut =>
    obtain ⟨K, level, F, S, D, hlev⟩ := B.child hp hpush hloop
    have hmem := List.mem_singleton_self c
    have hfit := (S.cell c).node (n := m) (D.below c hmem) hc
    have hx := F.leaf hfit hl
    have hx' : K.graph c = some ⟨0, ([] : List NodeId) ++ []⟩ := hx
    obtain ⟨Sv, heq⟩ := Act.Spec.ok (leaves_cutLeaf F (F.below hx).1 [p, c] u S) hcut
    obtain ⟨rfl, rfl⟩ := Prod.mk.inj heq
    have L : (K.cut c 0 [] []).Loose o := F.cut_loose hx' (D.root c hmem)
    obtain ⟨k, hk⟩ := F.tree.root
    obtain ⟨_, -, hh⟩ := Sv.height L.held (Or.inl (F.knows hk).1)
    have hplt := F.known p D.parent
    have hold : ∀ {k}, (K.cut c 0 [] []).graph p = some k → K.graph p = some k ∧ c ∈ k.kids := by
      intro k hk
      have hpc : p ≠ c := fun h => by
        simp [Outline.cut, h] at hk
      have hk' := (Outline.cut_old hpc hplt).symm.trans hk
      exact ⟨hk', D.kid c hmem k hk' (by simp [hx])⟩
    refine ⟨.insert Sv L (Or.inl D.parent) (fun k hk => ?_) (fun ho k hk => ?_)
      (hh ▸ Nat.succ_pos _), .turn⟩
    · obtain ⟨hk', hkid⟩ := hold hk
      exact (F.cut_link hx' hk' hkid).1
    · obtain ⟨hk', hkid⟩ := hold hk
      obtain ⟨hd, hclear⟩ := (D.clear ho c hmem (by simp [hx])).parent F.tree (F.once ho) ⟨k, hk', hkid⟩
      exact ⟨(F.cut_link hx' hk' hkid).2.clear ho hplt (Outline.link_at hk) (Nat.zero_le _) hclear,
        .inl hd⟩
  | @climb p x l r a b path parent w w₁ u hp hfull hx hcut hpath =>
    cases B with
    | @insert _ _ _ _ _ K S L hk hfullK hclear _ =>
      obtain ⟨S₁, hfit⟩ := Act.Spec.ok (leaves_getNode (fun _ => L) p w S) hp
      have F₀ := hfit.under hk
      have F := hfullK _ F₀.knot
      obtain ⟨Su, rfl, rfl, hleads⟩ :=
        Act.Spec.ok (leaves_cutParent F L hk hfit (not_lt.mp hfull) w₁ S₁) hcut
      obtain ⟨ks, hks⟩ : ∃ ks, ks = replaceChild x l r parent.childIds := ⟨_, rfl⟩
      rw [← hks] at Su
      have hpk : (K.link p x l r).graph p =
          some ⟨parent.level, ks.take (ks.length / 2) ++ ks.drop (ks.length / 2)⟩ := by
        rw [List.take_append_drop, hks]
        exact Outline.link_at F₀.knot
      rcases hleads.last_but_one invalidNodeId with ⟨hlen, -⟩ | ⟨-, q', hq, hpq⟩
      · exact absurd hlen hpath
      obtain ⟨F', hst, L', hCq, hCgraph, hql, k, hk₀, hCk, hle⟩ := F.climb hpk hq hpq
      rw [F₀.id]
      have hroot : K.known K.root := (L.knows hk₀).1
      obtain ⟨i, hi, hh⟩ := S.height L.held hroot
      obtain rfl := Option.some.inj (hk₀.symm.trans hi)
      obtain ⟨i', hi', hh'⟩ := Su.height L'.held (Or.inl hroot)
      obtain rfl := Option.some.inj (hCk.symm.trans hi')
      refine ⟨.insert Su L' hCq (fun _ _ => F') (fun ho m hm => ?_) (hh' ▸ Nat.succ_pos _),
        .up (fetch_of_getNode hp) (fun m hm => ?_) ?_ (hh'.trans hh.symm)⟩
      · obtain ⟨hd, hcl⟩ := ((hclear ho _ F₀.knot).1).parent F.tree (F.once ho) ⟨_, hq, hpq⟩
        exact ⟨hst.clear ho (F.below hq).1 (Outline.link_at hm) (Nat.zero_le _) hcl, .inl hd⟩
      · have hmq : q' = m.knot := Option.some.inj (hCgraph.symm.trans ((Su.fetch hm).under hCq).knot)
        rw [hmq] at hql
        exact hql
      · rw [hh, ← hql]
        exact Nat.lt_succ_of_le hle

theorem Begun.run {a b : TreeCall × World} (B : Begun o a) (h : Relation.ReflTransGen Calls a b) :
    Begun o b := by
  induction h with
  | refl => exact B
  | tail _ hcall ih => exact (hcall.nearer ih).1

/-- A chain of `k + 1` calls of `insert_child` has climbed `k` levels. -/
theorem Begun.climbed : ∀ {chain : List (TreeCall × World)} {p x l r : NodeId} {w : World},
      Begun o (.insert p x l r, w) → List.IsChain Calls ((.insert p x l r, w) :: chain) → chain ≠ [] →
      ∃ n, w.fetch p = some n ∧ n.level + chain.length < w.height
  | [], _, _, _, _, _, _, _, h => absurd rfl h
  | b :: chain, p, x, l, r, w, B, h, _ => by
    obtain ⟨hcall, hrest⟩ := List.isChain_cons_cons.mp h
    obtain ⟨B', hnear⟩ := hcall.nearer B
    cases hnear with
    | @up _ _ _ _ q _ _ _ _ u n hp hq hlt hh =>
      refine ⟨n, hp, ?_⟩
      by_cases hnil : chain = []
      · rw [hnil]
        exact hlt
      · obtain ⟨m, hm, hlen⟩ := B'.climbed hrest hnil
        have := hq m hm
        rw [List.length_cons]
        omega

end Calls

/-! ## Well-formed trees -/

/-- A tree as `get_node` reads it. -/
structure WellFormed (w : World) : Prop where
  root : w.cache.lookup w.manifest.rootId ≠ none
  level : ∀ {x n c}, w.fetch x = some n → c ∈ n.childIds →
    n.level ≠ 0 ∧ ∀ m, w.fetch c = some m → m.level + 1 = n.level
  fanout : ∀ {x n}, w.fetch x = some n → n.childIds.length ≤ maxFanout
  once : ∀ {x n}, w.fetch x = some n → n.childIds.Nodup
  /-- Every node is in the tree. -/
  reached : ∀ {x n}, w.fetch x = some n → ∃ path, w.walk path = some x
  /-- `next_node_id` has given out every identifier. -/
  issued : ∀ {x n}, w.fetch x = some n →
    n.id = x ∧ x < w.manifest.nextId ∧ ∀ c ∈ n.childIds, c < w.manifest.nextId
  place : ∀ {x r}, w.manifest.nodes.lookup x = some r → r.filePath = ⟨x⟩

def World.outline (w : World) : Outline where
  graph x := (w.fetch x).map SSTNode.knot
  root := w.manifest.rootId
  next := w.manifest.nextId
  known x := x < w.manifest.nextId
  stale _ := False
  held x := x = w.manifest.rootId
  dry _ := False

theorem World.reach_of_walk {w : World} {x y : NodeId} {path : List Nat}
    (h : Forest.descend w.kids x path = some y) : Reach w.outline.graph x y := by
  induction path generalizing x with
  | nil =>
    obtain rfl := Option.some.inj h
    exact .refl
  | cons i is ih =>
    obtain ⟨c, hc, hrest⟩ := Option.bind_eq_some_iff.mp h
    refine .head ?_ (ih hrest)
    have hmem := List.mem_of_getElem? hc
    unfold World.kids at hmem
    cases hn : w.fetch x with
    | none =>
      rw [hn] at hmem
      exact (nomatch hmem)
    | some n =>
      rw [hn] at hmem
      exact ⟨n.knot, congrArg (Option.map SSTNode.knot) hn, hmem⟩

section WellFormed

variable {w : World}

theorem World.outline_some {x : NodeId} {k : Knot NodeId} (h : w.outline.graph x = some k) :
    ∃ n, w.fetch x = some n ∧ n.knot = k := Option.map_eq_some_iff.mp h

theorem WellFormed.full (W : WellFormed w) (U : o → Once w.outline.graph) : w.outline.Full o where
  graded := by
    refine ⟨?_, fun hx hc => ?_, fun hx hc hm => ?_, fun hx => ?_⟩
    · obtain ⟨n, hn⟩ := Option.ne_none_iff_exists'.mp W.root
      exact ⟨n.knot, congrArg (Option.map SSTNode.knot) (fetch_of_cached hn)⟩
    · obtain ⟨n, hn, rfl⟩ := World.outline_some hx
      exact (W.level hn hc).1
    · obtain ⟨n, hn, rfl⟩ := World.outline_some hx
      obtain ⟨m, hm', rfl⟩ := World.outline_some hm
      exact (W.level hn hc).2 m hm'
    · obtain ⟨n, hn, rfl⟩ := World.outline_some hx
      exact W.once hn
  once := U
  known _ := id
  knows hx := by
    obtain ⟨n, hn, rfl⟩ := World.outline_some hx
    exact (W.issued hn).2
  held := rfl
  dry _ := False.elim
  reach hx := by
    obtain ⟨n, hn, rfl⟩ := World.outline_some hx
    obtain ⟨path, hpath⟩ := W.reached hn
    exact World.reach_of_walk hpath
  fresh _ := id

theorem WellFormed.under (W : WellFormed w) {x : NodeId} {n : SSTNode} (h : w.fetch x = some n) :
    n.Under w.outline.graph x :=
  ⟨(W.issued h).1, W.fanout h, congrArg (Option.map SSTNode.knot) h⟩

theorem World.fetch_looks {x : NodeId} {n : SSTNode} (place : ∀ {r}, (w.cell x).record = some r →
    r.filePath = ⟨x⟩) (h : (w.cell x).Looks n) :
    ∃ m, w.fetch x = some m ∧ m.id = n.id ∧ m.knot = n.knot := by
  rcases h with hn | ⟨hn, ⟨r, hr, hvalid⟩, hf⟩
  · exact ⟨n, fetch_of_cached hn, rfl, rfl⟩
  · have hp : w.manifest.nodePath x = some ⟨x⟩ := by
      have hr' : w.manifest.nodes.lookup x = some r := hr
      rw [Manifest.nodePath, hr']
      simp [hvalid, place hr]
    exact ⟨_, fetch_of_getNode (getNode_loads hn hp hf).ok_eq, rfl, rfl⟩

theorem WellFormed.shows (W : WellFormed w) : Shows w.outline w where
  root := rfl
  next := rfl
  held h := h ▸ W.root
  cell x := by
    have hlook : ∀ {n}, (w.cell x).Looks n → x < w.manifest.nextId ∧ n.Under w.outline.graph x := by
      intro n hn
      obtain ⟨m, hm, hid, hknot⟩ := World.fetch_looks (fun hr => W.place hr) hn
      exact ⟨(W.issued hm).2.1, (W.under hm).congr hid.symm hknot.symm⟩
    exact ⟨fun hr => W.place hr, fun _ hn => (hlook (.inl hn)).2,
      fun _ hn hv hf => (hlook (.inr ⟨hn, hv, hf⟩)).2, False.elim,
      fun hle n hn => Nat.not_lt_of_ge hle (hlook hn).1, fun h => h.elim⟩

theorem Act.Spec.ends {α : Type} {x : M α} {Q : α → World → Prop} (h : Act.Spec x w Q (Finishes o)) :
    Act.eval x ⟨w, none⟩ ≠ .error (.thrown .diverges) := by
  intro hd
  rcases Act.Spec.undisturbed h with ⟨a, u, hx, -⟩ | ⟨e, u, s, hx, he⟩
  · rw [Act.eval, hx] at hd
    cases hd
  · rw [Act.eval, hx] at hd
    exact he.1 (Except.error.inj hd)

theorem WellFormed.begun (W : WellFormed w) {r : SSTNode}
    (hr : w.fetch w.manifest.rootId = some r) (hk : r.childIds ≠ []) :
    Begun False (.flush w.manifest.rootId, w) := by
  obtain ⟨c, hc⟩ := List.exists_mem_of_ne_nil _ hk
  exact .flush (W.full False.elim) W.shows (W.under hr).knot (W.level hr hc).1 False.elim

/-- **A flush cycle ends**: the recursion of `do_flush` from the root never runs on, each
nested call is a level further down, and calls of `insert_child` climb a level each and no
further than the root. -/
theorem flush_terminates (W : WellFormed w) :
    (∀ es, Act.eval (flushPending es) ⟨w, none⟩ ≠ .error (.thrown .diverges)) ∧
    ∀ r, w.fetch w.manifest.rootId = some r → r.childIds ≠ [] →
      Act.eval (doFlush r.level w.manifest.rootId) ⟨w, none⟩ ≠ .error (.thrown .diverges) ∧
      ∀ a, Relation.ReflTransGen Calls (.flush w.manifest.rootId, w) a →
        (∀ b, Calls a b → Nearer a b) ∧
        ∀ p x left right u, a = (.insert p x left right, u) →
          ∀ chain, List.IsChain Calls (a :: chain) → chain.length < u.height := by
  have F : w.outline.Full False := W.full False.elim
  refine ⟨fun es => Act.Spec.ends (flushPending_settles F id es w W.shows), fun r hr hk => ?_⟩
  have B := W.begun hr hk
  obtain ⟨c, hc⟩ := List.exists_mem_of_ne_nil _ hk
  refine ⟨Act.Spec.ends (doFlush_settles r.level F W.shows (W.under hr).knot rfl (W.level hr hc).1
    False.elim), fun a ha => ⟨fun b hb => (hb.nearer (B.run ha)).2, ?_⟩⟩
  rintro p x left right u rfl chain hchain
  have Ba := B.run ha
  by_cases hnil : chain = []
  · cases Ba with
    | insert _ _ _ _ _ hw =>
      rw [hnil]
      exact hw
  · obtain ⟨n, -, hlt⟩ := Ba.climbed hchain hnil
    omega

end WellFormed

section Tidy

variable {w : World} {lag : Option NodeId}

/-- A tidy world holds a well-formed tree. -/
theorem Tidy.wellFormed (T : Tidy w lag) : WellFormed w where
  root := by
    obtain ⟨r, hr⟩ := T.sound.root_some
    have hr' : w.cache.lookup w.manifest.rootId = some r := hr
    simp [hr']
  level := by
    intro x n c hx hc
    rw [T.fetch] at hx
    obtain ⟨m, hm, -, hl⟩ := T.sound.shape.child_mem hx hc
    refine ⟨by omega, fun m' hm' => ?_⟩
    rw [T.fetch] at hm'
    obtain rfl := Option.some.inj (hm.symm.trans hm')
    exact hl
  fanout hx := T.filed.fanout (T.fetch _ ▸ hx)
  once hx := T.sound.shape.kids_nodup (T.fetch _ ▸ hx)
  reached hx := (T.existsUnique_walk (T.fetch _ ▸ hx)).exists
  issued hx := by
    rw [T.fetch] at hx
    exact ⟨(T.sound.shape.mem_row hx).2.2, T.sound.below hx, fun _ hc => T.sound.kid_lt hx hc⟩
  place hr := (T.filed.place hr).1

end Tidy

/-- Two leaves below a root. -/
theorem flush_terminates_round :
    ∃ r, ((Db.start fun _ => (64, 7)).run (round [10, 20])).world.fetch
        ((Db.start fun _ => (64, 7)).run (round [10, 20])).world.manifest.rootId = some r ∧
      r.childIds ≠ [] ∧ Act.eval (doFlush r.level
        ((Db.start fun _ => (64, 7)).run (round [10, 20])).world.manifest.rootId)
        ⟨((Db.start fun _ => (64, 7)).run (round [10, 20])).world, none⟩ ≠
          .error (.thrown .diverges) := by
  have W := (tidy_run (fun _ => (64, 7)) (round [10, 20]) (by decide +kernel)).wellFormed
  have hroot : (((Db.start fun _ => (64, 7)).run (round [10, 20])).world.fetch
      ((Db.start fun _ => (64, 7)).run (round [10, 20])).world.manifest.rootId).any
        (fun r => !r.childIds.isEmpty) = true := by decide +kernel
  obtain ⟨r, hr, hk⟩ := (Option.any_eq_true _ _).mp hroot
  have hk : r.childIds ≠ [] := by simpa using hk
  exact ⟨r, hr, hk, ((flush_terminates W).2 r hr hk).1⟩

end GravTree
