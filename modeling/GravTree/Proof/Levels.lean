import GravTree.Proof.Outline

/-!
# Levels while the tree is restructured

`path_to` goes down one level a step and finds every node of the tree, so
`insert_child` is called on the parent of the node it has just cut, one level up. The
outline tells what is then the case: the node is gone, its halves are there, and once the
parent names them the tree is whole again.
-/

namespace GravTree

open Graded

/-- An outline between two restructurings. -/
structure Outline.Full (o : Prop) (K : Outline) : Prop extends K.Loose o where
  reach : ∀ {x n}, K.graph x = some n → Reach K.graph K.root x
  fresh : ∀ x, ¬ K.stale x

section Full

variable {o : Prop} {K : Outline} {x : NodeId} {n : Knot NodeId}

theorem Outline.Full.tree (F : K.Full o) : IsTree K.graph K.root := ⟨F.graded, F.reach⟩

theorem Outline.Loose.below (L : K.Loose o) (hx : K.graph x = some n) :
    x < K.next ∧ ∀ c ∈ n.kids, c < K.next :=
  ⟨L.known x (L.knows hx).1, fun c hc => L.known c ((L.knows hx).2 c hc)⟩

theorem Outline.Loose.unknown (L : K.Loose o) (hx : K.next ≤ x) : ¬ K.known x ∧ ¬ K.dry x :=
  ⟨fun h => Nat.not_lt_of_ge hx (L.known x h), fun h => Nat.not_lt_of_ge hx (L.known x (L.dry x h))⟩

theorem Outline.Loose.take (L : K.Loose o) : K.take.Loose o :=
  ⟨L.graded, L.once, fun x h => (L.known x h).trans (Nat.lt_succ_self _), L.knows, L.held, L.dry⟩

/-- There is a way from the root to `x` on which every buffer above `x` is empty. -/
abbrev Outline.Clear (K : Outline) (x : NodeId) : Prop := Graded.Clear K.graph K.dry K.root x

end Full

/-- What stays true of the nodes that were there before: those that are left have their level,
no child that is left is lost, and a way to a node of level `l` or more that was clear stays
clear. -/
structure Outline.Stable (o : Prop) (l : Nat) (K K' : Outline) : Prop where
  next : K.next ≤ K'.next
  root : K'.root = K.root ∨ K.next ≤ K'.root
  known : ∀ x, K.known x → K'.known x
  old : ∀ {x n}, x < K.next → K'.graph x = some n → ∃ m, K.graph x = some m ∧ m.level = n.level ∧
    ∀ c ∈ m.kids, K'.graph c ≠ none → c ∈ n.kids
  clear : o → ∀ {x n}, x < K.next → K'.graph x = some n → l ≤ n.level → K.Clear x → K'.Clear x

namespace Outline.Stable

variable {o : Prop} {l : Nat} {K K₁ K' : Outline}

theorem refl (K : Outline) : Stable o l K K :=
  ⟨le_rfl, .inl rfl, fun _ h => h, fun {_ n} _ hn => ⟨n, hn, rfl, fun _ hc _ => hc⟩,
    fun _ _ _ _ _ _ h => h⟩

theorem mono {l' : Nat} (h : Stable o l K K') (hl : l ≤ l') : Stable o l' K K' :=
  ⟨h.next, h.root, h.known, h.old, fun ho _ _ hx hn hle => h.clear ho hx hn (hl.trans hle)⟩

theorem trans (h : Stable o l K K₁) (h' : Stable o l K₁ K')
    (hbelow : ∀ {x n}, K.graph x = some n → ∀ c ∈ n.kids, c < K.next) : Stable o l K K' where
  next := h.next.trans h'.next
  root := by
    rcases h'.root with heq | hle
    · exact h.root.imp heq.trans heq.ge.trans'
    · exact .inr (h.next.trans hle)
  known x hx := h'.known x (h.known x hx)
  old := by
    intro x n hx hn
    obtain ⟨m, hm, hl, hk⟩ := h'.old (lt_of_lt_of_le hx h.next) hn
    obtain ⟨m', hm', hl', hk'⟩ := h.old hx hm
    refine ⟨m', hm', hl'.trans hl, fun c hc hne => ?_⟩
    obtain ⟨k, hkc⟩ := Option.ne_none_iff_exists'.mp hne
    obtain ⟨k', hkc', -⟩ := h'.old (lt_of_lt_of_le (hbelow hm' c hc) h.next) hkc
    exact hk c (hk' c hc (by simp [hkc'])) hne
  clear := by
    intro ho x n hx hn hle hclear
    have hx' := lt_of_lt_of_le hx h.next
    obtain ⟨m, hm, hl, -⟩ := h'.old hx' hn
    exact h'.clear ho hx' hn hle (h.clear ho hx hm (hl ▸ hle) hclear)

end Outline.Stable

/-! ## `path_to` -/

section PathTo

variable {o : Prop} {K : Outline} {H : Graph NodeId} {r target : NodeId}

theorem firstPath_leads {f : NodeId → M (Option (List NodeId))} : ∀ ids : List NodeId,
    (∀ c ∈ ids, Leaves o K (f c) K fun o => (o = none → ¬ Reach H c target) ∧
      ∀ path, o = some path → Leads H target c path) →
    Leaves o K (firstPath f ids) K fun o => (o = none → ∀ c ∈ ids, ¬ Reach H c target) ∧
      ∀ path, o = some path → ∃ c ∈ ids, Leads H target c path
  | [], _ => .pure ⟨by simp, by simp⟩
  | id :: ids, h => by
    obtain ⟨hid, hids⟩ := List.forall_mem_cons.mp h
    refine .bind hid fun o ho => ?_
    cases o with
    | some path =>
      refine .pure ⟨fun h => (nomatch h), fun p hp => ?_⟩
      exact ⟨id, List.mem_cons_self, Option.some.inj hp ▸ ho.2 path rfl⟩
    | none =>
      intro w S
      refine (firstPath_leads ids hids w S).mono (fun o u hu => ⟨hu.1, fun hn => ?_, fun p hp => ?_⟩)
        fun _ _ h => h
      · exact List.forall_mem_cons.mpr ⟨ho.1 rfl, hu.2.1 hn⟩
      · obtain ⟨c, hc, hp⟩ := hu.2.2 p hp
        exact ⟨c, List.mem_cons_of_mem _ hc, hp⟩

/-- **`path_to`'s search** goes down one level a step. It does not look at the children of
its target. -/
theorem dfs_leads (L : o → K.Loose o) (T : IsTree H r) (hH : ∀ x, x ≠ target → K.graph x = H x)
    (hknown : ∀ {x n}, H x = some n → ∀ c ∈ n.kids, K.known c) : ∀ (fuel : Nat) (id : NodeId),
    K.known id → 0 < fuel → (id ≠ target → ∀ n, H id = some n → n.level < fuel) →
    Leaves o K (dfs target fuel id) K fun o => (o = none → ¬ Reach H id target) ∧
      ∀ path, o = some path → Leads H target id path
  | 0, _, _, h, _ => absurd h (lt_irrefl 0)
  | fuel + 1, id, hid, _, hlev => by
    unfold dfs
    by_cases heq : id = target
    · rw [if_pos heq]
      refine .pure ⟨fun h => (nomatch h), fun p hp => ?_⟩
      rw [← Option.some.inj hp, heq]
      exact .here
    rw [if_neg heq]
    refine .bind (leaves_getNode L id) fun node hnode => ?_
    have hn : H id = some node.knot := (hH id heq).symm.trans (hnode.under hid).knot
    have hlt : node.level < fuel + 1 := hlev heq _ hn
    refine .bind (@firstPath_leads o K H target _ node.childIds fun c hc => ?_) fun o ho =>
      .pure ⟨fun h => ?_, fun p hp => ?_⟩
    · have hinner : node.level ≠ 0 := T.inner hn hc
      refine dfs_leads L T hH hknown fuel c (hknown hn c hc) (by omega) fun _ m hm => ?_
      have hl : m.level + 1 = node.level := T.level hn hc hm
      omega
    · intro hreach
      rcases hreach.cases_head with rfl | ⟨c, ⟨m, hm, hc⟩, hreach⟩
      · exact heq rfl
      · obtain rfl := Option.some.inj (hn.symm.trans hm)
        exact ho.1 (Option.map_eq_none_iff.mp h) c hc hreach
    · obtain ⟨path, hpath, rfl⟩ := Option.map_eq_some_iff.mp hp
      obtain ⟨c, hc, hl⟩ := ho.2 path hpath
      exact .down ⟨_, hn, hc⟩ hl

theorem Shows.height {w : World} (S : Shows K w) (hheld : K.held K.root) (hroot : K.known K.root) :
    ∃ n, K.graph K.root = some n ∧ w.height = n.level + 1 := by
  obtain ⟨n, hn⟩ := Option.ne_none_iff_exists'.mp (S.held hheld)
  have F := (S.cell _).node hroot hn
  refine ⟨n.knot, F.knot, ?_⟩
  have hcache : w.cache.lookup w.manifest.rootId = some n := by
    have hr : w.manifest.rootId = K.root := S.root
    rw [hr]
    exact hn
  rw [World.height, hcache]
  rfl

/-- **`path_to`** finds a node of the tree. -/
theorem pathTo_leads (L : o → K.Loose o) (T : IsTree H K.root) (hH : ∀ x, x ≠ target → K.graph x = H x)
    (hknown : ∀ {x n}, H x = some n → ∀ c ∈ n.kids, K.known c) (hroot : K.known K.root)
    (hheld : K.held K.root) (htarget : H target ≠ none) :
    Leaves o K (pathTo target) K fun path => Leads H target K.root path := by
  intro w S
  obtain ⟨n, hn, hh⟩ := S.height hheld hroot
  obtain ⟨m, hm⟩ := Option.ne_none_iff_exists'.mp htarget
  have hr : w.manifest.rootId = K.root := S.root
  refine Act.Spec.world_bind ?_
  rw [hr, hh]
  refine Act.Spec.bind (dfs_leads L T hH hknown (n.level + 1) K.root hroot (Nat.succ_pos _)
    (fun hne k hk => ?_) w S) fun o u hu => Act.Spec.pure ⟨hu.1, ?_⟩
  · obtain rfl := Option.some.inj (hn.symm.trans ((hH _ hne).trans hk))
    exact Nat.lt_succ_self _
  · cases o with
    | none => exact absurd (T.reach hm) (hu.2.1 rfl)
    | some path => exact hu.2.2 path rfl

end PathTo

/-! ## Cutting a node -/

theorem mem_replaceChild {x a b z : NodeId} : ∀ {ids : List NodeId}, ids.Nodup →
    (z ∈ replaceChild x a b ids ↔ z ∈ ids ∧ z ≠ x ∨ x ∈ ids ∧ (z = a ∨ z = b))
  | [], _ => by simp [replaceChild]
  | id :: ids, h => by
    obtain ⟨hid, hids⟩ := List.nodup_cons.mp h
    unfold replaceChild
    split
    · rename_i heq
      subst heq
      have hne : z ∈ ids → z ≠ id := fun hz heq => hid (heq ▸ hz)
      simp only [List.mem_cons, true_or, true_and]
      rw [or_and_right, and_not_self_iff (z = id), false_or, and_iff_left_of_imp hne,
        ← or_assoc, or_comm]
    · rename_i hne
      have ih := @mem_replaceChild x a b z ids hids
      have hz : z = id → z ≠ x := fun heq => heq ▸ hne
      have hx : x ∈ id :: ids ↔ x ∈ ids := by simp [Ne.symm hne]
      rw [List.mem_cons, ih, hx, List.mem_cons, or_and_right, and_iff_left_of_imp hz, or_assoc]

theorem nodup_replaceChild {x a b : NodeId} (hab : a ≠ b) : ∀ {ids : List NodeId}, ids.Nodup →
    a ∉ ids → b ∉ ids → (replaceChild x a b ids).Nodup
  | [], _, _, _ => List.nodup_nil
  | id :: ids, h, ha, hb => by
    obtain ⟨hid, hids⟩ := List.nodup_cons.mp h
    obtain ⟨hai, ha⟩ := not_or.mp (List.mem_cons.not.mp ha)
    obtain ⟨hbi, hb⟩ := not_or.mp (List.mem_cons.not.mp hb)
    unfold replaceChild
    split
    · simp [hab, ha, hb, hids]
    · refine List.nodup_cons.mpr ⟨fun hmem => ?_, nodup_replaceChild hab hids ha hb⟩
      rcases (mem_replaceChild hids).mp hmem with ⟨h, -⟩ | ⟨-, h | h⟩
      · exact hid h
      · exact hai h.symm
      · exact hbi h.symm

namespace Outline

/-- `x` is cut into the next two nodes. -/
def cut (K : Outline) (x : NodeId) (level : Nat) (lk rk : List NodeId) : Outline where
  graph y := if y = x then none else if y = K.next then some ⟨level, lk⟩
    else if y = K.next + 1 then some ⟨level, rk⟩ else K.graph y
  root := K.root
  next := K.next + 2
  known y := K.known y ∨ y = K.next ∨ y = K.next + 1
  stale := K.stale
  held y := K.held y ∧ y ≠ x ∨ y = K.next ∨ y = K.next + 1
  dry y := K.dry y ∨ K.dry x ∧ (y = K.next ∨ y = K.next + 1)

/-- `p` names `a` and `b` where it named `x`. -/
def link (K : Outline) (p x a b : NodeId) : Outline :=
  { K with graph := fun y => if y = p
    then (K.graph p).map fun n => ⟨n.level, replaceChild x a b n.kids⟩ else K.graph y }

/-- The next node is the root, over `a` and `b`. -/
def grow (K : Outline) (level : Nat) (a b : NodeId) : Outline where
  graph y := if y = K.next then some ⟨level, [a, b]⟩ else K.graph y
  root := K.next
  next := K.next + 1
  known y := K.known y ∨ y = K.next
  stale := K.stale
  held y := K.held y ∨ y = K.next
  dry y := K.dry y ∨ y = K.next

variable {o : Prop} {l : Nat} {K : Outline} {x q : NodeId} {level : Nat} {lk rk : List NodeId} {n : Knot NodeId}

/-- What the node that is cut names does not matter. -/
theorem cut_link (K : Outline) (p x a b : NodeId) (level : Nat) (lk rk : List NodeId) :
    (K.link p x a b).cut p level lk rk = K.cut p level lk rk := by
  unfold cut link
  congr 1
  funext y
  dsimp only
  split <;> rfl

namespace Full

theorem ne_next (F : K.Full o) (hx : K.graph x = some n) : x ≠ K.next ∧ x ≠ K.next + 1 :=
  ⟨(F.below hx).1.ne, ((F.below hx).1.trans (Nat.lt_succ_self _)).ne⟩

theorem fresh_graph (F : K.Full o) {y : NodeId} (hy : K.next ≤ y) : K.graph y = none := by
  cases h : K.graph y with
  | none => rfl
  | some n => exact absurd (F.below h).1 (Nat.not_lt_of_ge hy)

theorem fresh_kid (F : K.Full o) {y : NodeId} (hy : K.next ≤ y) (z : NodeId) (m : Knot NodeId)
    (hz : K.graph z = some m) : y ∉ m.kids :=
  fun h => Nat.not_lt_of_ge hy ((F.below hz).2 y h)

/-- The halves share out the children. -/
theorem halves_apart {H : Graph NodeId} {a b z z' c : NodeId} {m m' : Knot NodeId}
    (ha : H a = some ⟨level, lk⟩) (hb : H b = some ⟨level, rk⟩) (hnd : (lk ++ rk).Nodup)
    (hz : z = a ∨ z = b) (hz' : z' = a ∨ z' = b) (hm : H z = some m) (hm' : H z' = some m')
    (hc : c ∈ m.kids) (hc' : c ∈ m'.kids) : z = z' := by
  have hdisj := List.disjoint_of_nodup_append hnd
  rcases hz with rfl | rfl <;> rcases hz' with rfl | rfl
  · rfl
  · obtain rfl := Option.some.inj (hm.symm.trans ha)
    obtain rfl := Option.some.inj (hm'.symm.trans hb)
    exact absurd hc' (hdisj hc)
  · obtain rfl := Option.some.inj (hm.symm.trans hb)
    obtain rfl := Option.some.inj (hm'.symm.trans ha)
    exact absurd hc (hdisj hc')
  · rfl

/-- Cutting a child of `q` is a swap below `q`. -/
theorem cut_swap (F : K.Full o) (hx : K.graph x = some ⟨level, lk ++ rk⟩) (hq : K.graph q = some n)
    (hxq : x ∈ n.kids) :
    Swap K.graph ((K.cut x level lk rk).link q x K.next (K.next + 1)).graph q (· = x)
      (fun _ z => z = K.next ∨ z = K.next + 1) := by
  have hqx : q ≠ x := (F.tree.kid_ne hq hxq).symm
  obtain ⟨hqa, hqb⟩ := F.ne_next hq
  obtain ⟨hxa, hxb⟩ := F.ne_next hx
  have hnd := F.tree.nodup hq
  have hG : ∀ y, ((K.cut x level lk rk).link q x K.next (K.next + 1)).graph y =
      if y = q then some ⟨n.level, replaceChild x K.next (K.next + 1) n.kids⟩
      else if y = x then none else if y = K.next then some ⟨level, lk⟩
      else if y = K.next + 1 then some ⟨level, rk⟩ else K.graph y := by
    intro y
    simp only [link, cut, if_neg hqx, if_neg hqa, if_neg hqb, hq, Option.map_some]
  have ha : K.next ≠ q := hqa.symm
  have hb : K.next + 1 ≠ q := hqb.symm
  have hab : K.next + 1 ≠ K.next := Nat.succ_ne_self _
  refine ⟨⟨n, _, hq, by rw [hG, if_pos rfl], nodup_replaceChild hab.symm hnd
    (F.fresh_kid le_rfl q n hq) (F.fresh_kid (Nat.le_succ _) q n hq), ?_, ?_, ?_, ?_⟩,
    ?_, ?_, ?_, ?_, ?_⟩
  · intro c hc hcx
    exact (mem_replaceChild hnd).mpr (.inl ⟨hc, hcx⟩)
  · intro c z _ hz
    exact (mem_replaceChild hnd).mpr (.inr ⟨hxq, hz⟩)
  · intro z hz
    rcases (mem_replaceChild hnd).mp hz with ⟨hz, -⟩ | ⟨-, hz⟩
    · exact .inl hz
    · exact .inr ⟨x, rfl, hz⟩
  · rintro c rfl
    exact hxq
  · rintro y rfl
    refine ⟨_, hx, by rw [hG, if_neg hqx.symm, if_pos rfl], fun c hc => ?_, fun z hz => ?_⟩
    · rcases List.mem_append.mp hc with hc | hc
      · exact ⟨K.next, ⟨level, lk⟩, .inl rfl, by rw [hG, if_neg ha, if_neg hxa.symm, if_pos rfl], hc⟩
      · exact ⟨K.next + 1, ⟨level, rk⟩, .inr rfl,
          by rw [hG, if_neg hb, if_neg hxb.symm, if_neg hab, if_pos rfl], hc⟩
    · rcases hz with rfl | rfl
      · exact ⟨⟨level, lk⟩, by rw [hG, if_neg ha, if_neg hxa.symm, if_pos rfl], rfl,
          List.sublist_append_left ..⟩
      · exact ⟨⟨level, rk⟩, by rw [hG, if_neg hb, if_neg hxb.symm, if_neg hab, if_pos rfl], rfl,
          List.sublist_append_right ..⟩
  · intro y z _ hz
    have hle : K.next ≤ z := by
      rcases hz with rfl | rfl
      · exact le_rfl
      · exact Nat.le_succ _
    exact ⟨F.fresh_graph hle, F.fresh_kid hle⟩
  · intro y hyx hyq hne
    obtain ⟨m, hm⟩ := Option.ne_none_iff_exists'.mp hne
    obtain ⟨hya, hyb⟩ := F.ne_next hm
    rw [hG, if_neg hyq, if_neg hyx, if_neg hya, if_neg hyb]
  · intro _ y y' z z' m m' c _ _ hz hz'
    exact halves_apart (by rw [hG, if_neg ha, if_neg hxa.symm, if_pos rfl])
      (by rw [hG, if_neg hb, if_neg hxb.symm, if_neg hab, if_pos rfl]) (F.tree.nodup hx) hz hz'
  · intro z m hz
    rw [hG] at hz
    split at hz
    · rename_i h
      exact .inl ⟨by simp [h, hq], h ▸ hqx⟩
    split at hz
    · exact nomatch hz
    rename_i hzx
    split at hz
    · rename_i h
      exact .inr ⟨x, rfl, .inl h⟩
    split at hz
    · rename_i h
      exact .inr ⟨x, rfl, .inr h⟩
    · exact .inl ⟨by simp [hz], hzx⟩

/-- A swap is stable if its new nodes are new. -/
theorem stable_of_swap (F : K.Full o) {K' : Outline} {X : NodeId → Prop}
    {S : NodeId → NodeId → Prop} (W : Swap K.graph K'.graph q X S)
    (hS : ∀ {x z}, X x → S x z → K.next ≤ z) (hnext : K.next ≤ K'.next) (hroot : K'.root = K.root)
    (hknown : ∀ x, K.known x → K'.known x)
    (hkeep : ∀ {y k}, K.graph y = some k → l < k.level → K.dry y → ¬ X y → K'.dry y)
    (hnew : ∀ {y z k}, X y → S y z → K.graph y = some k → l < k.level → K.dry y → K'.dry z) :
    Stable o l K K' where
  next := hnext
  root := .inl hroot
  known := hknown
  old := by
    intro x n hx hn
    rcases W.origin hn with ⟨hne, -⟩ | ⟨y, hX, hz⟩
    · obtain ⟨m, hm⟩ := Option.ne_none_iff_exists'.mp hne
      obtain ⟨hl, hk⟩ := W.old hm hn
      exact ⟨m, hm, hl.symm, hk⟩
    · exact absurd hx (Nat.not_lt_of_ge (hS hX hz))
  clear := by
    intro ho x n hx hn hle hclear
    rcases W.origin hn with ⟨hne, hX⟩ | ⟨y, hX, hz⟩
    · obtain ⟨m, hm⟩ := Option.ne_none_iff_exists'.mp hne
      have hl := (W.old hm hn).1
      rw [Clear, hroot]
      refine ((W.clear F.tree (F.once ho) ?_ ?_) (Graded.Clear.above F.tree hclear hm)).1 hX
      · rintro y ⟨hd, k, hk, hlt⟩ hy
        exact hkeep hk (by omega) hd hy
      · rintro y z hy hz ⟨hd, k, hk, hlt⟩
        exact hnew hy hz hk (by omega) hd
    · exact absurd hx (Nat.not_lt_of_ge (hS hX hz))

/-- The nodes of a swap are known. -/
theorem knows_of_swap (F : K.Full o) {K' : Outline} {X : NodeId → Prop} {S : NodeId → NodeId → Prop}
    (W : Swap K.graph K'.graph q X S) (hS : ∀ {x z}, X x → S x z → K'.known z)
    (hknown : ∀ x, K.known x → K'.known x) {x : NodeId} {m : Knot NodeId}
    (hx : K'.graph x = some m) : K'.known x ∧ ∀ c ∈ m.kids, K'.known c := by
  have hold : ∀ {y k}, K.graph y = some k → K'.known y ∧ ∀ c ∈ k.kids, K'.known c :=
    fun hy => ⟨hknown _ (F.knows hy).1, fun c hc => hknown c ((F.knows hy).2 c hc)⟩
  rcases W.cases hx with rfl | ⟨-, -, hg⟩ | ⟨x₀, n₀, hX, hn₀, hz, -, hsub⟩
  · obtain ⟨n, ks, hn, hks, -, -, -, hnew, -⟩ := W.parent
    obtain rfl := Option.some.inj (hx.symm.trans hks)
    refine ⟨(hold hn).1, fun c hc => ?_⟩
    rcases hnew c hc with hc | ⟨y, hX, hz⟩
    · exact (hold hn).2 c hc
    · exact hS hX hz
  · exact hold hg
  · exact ⟨hS hX hz, fun c hc => (hold hn₀).2 c (hsub.subset hc)⟩

theorem lt_add_two_iff (a b : Nat) : a < b + 2 ↔ a < b ∨ a = b ∨ a = b + 1 := by omega

/-- **A cut below a parent** that then names the halves. -/
theorem cut_link (F : K.Full o) (hx : K.graph x = some ⟨level, lk ++ rk⟩) (hq : K.graph q = some n)
    (hxq : x ∈ n.kids) : ((K.cut x level lk rk).link q x K.next (K.next + 1)).Full o ∧
      Stable o 0 K ((K.cut x level lk rk).link q x K.next (K.next + 1)) := by
  have W := F.cut_swap hx hq hxq
  have T := W.isTree F.tree
  have hroot : x ≠ K.root := F.tree.root_ne hq hxq
  refine ⟨⟨⟨T.toIsGraded, fun ho => W.once (F.once ho), fun y hy => ?_, fun {y m} hy => ?_,
    .inl ⟨F.held, hroot.symm⟩, fun y hy => ?_⟩, T.reach, F.fresh⟩,
    F.stable_of_swap W (fun {_ z} _ hz => ?_) (Nat.le_add_right ..) rfl (fun _ h => .inl h)
      (fun _ _ hd _ => .inl hd) ?_⟩
  · exact (lt_add_two_iff y K.next).mpr (hy.imp_left (F.known y))
  · exact F.knows_of_swap W (fun _ hz => Or.inr hz) (fun _ h => .inl h) hy
  · rcases hy with hy | ⟨-, hy⟩
    · exact .inl (F.dry y hy)
    · exact .inr hy
  · rcases hz with rfl | rfl
    · exact le_rfl
    · exact Nat.le_succ _
  · rintro _ z k rfl hz _ _ hd
    exact .inr ⟨hd, hz⟩

/-- The next identifier after a cut is free. -/
theorem cut_fresh (F : K.Full o) {a b : List NodeId} :
    ¬ (K.cut x l a b).known (K.cut x l a b).next ∧ ¬ (K.cut x l a b).dry (K.cut x l a b).next := by
  have hno : ∀ a : Nat, ¬ (a + 2 < a ∨ a + 2 = a ∨ a + 2 = a + 1) := by omega
  refine ⟨fun h => ?_, fun h => ?_⟩
  · have hk : K.known (K.next + 2) ∨ K.next + 2 = K.next ∨ K.next + 2 = K.next + 1 := h
    exact hno _ (hk.imp_left (F.known _))
  · have hd : K.dry (K.next + 2) ∨ K.dry x ∧ (K.next + 2 = K.next ∨ K.next + 2 = K.next + 1) := h
    exact hno _ (hd.imp (fun h => F.known _ (F.dry _ h)) And.right)

/-- What is in the outline after a cut was there before, or is a half. -/
theorem cut_cases (hx : K.graph x = some ⟨level, lk ++ rk⟩) {y : NodeId} {m : Knot NodeId}
    (hy : (K.cut x level lk rk).graph y = some m) : ∃ y₀ k, K.graph y₀ = some k ∧
      m.level = k.level ∧ m.kids.Sublist k.kids ∧ (y₀ = y ∧ y ≠ x ∨
        y₀ = x ∧ (y = K.next ∨ y = K.next + 1)) := by
  have hy : (if y = x then none else if y = K.next then some ⟨level, lk⟩
    else if y = K.next + 1 then some ⟨level, rk⟩ else K.graph y) = some m := hy
  split at hy
  · cases hy
  rename_i hyx
  split at hy
  · rename_i h
    obtain rfl := Option.some.inj hy
    exact ⟨x, _, hx, rfl, List.sublist_append_left .., .inr ⟨rfl, .inl h⟩⟩
  split at hy
  · rename_i h
    obtain rfl := Option.some.inj hy
    exact ⟨x, _, hx, rfl, List.sublist_append_right .., .inr ⟨rfl, .inr h⟩⟩
  · exact ⟨y, m, hy, rfl, List.Sublist.refl _, .inl ⟨rfl, hyx⟩⟩

/-- **A cut** of a node that is not the root leaves the halves out of reach, but all else as
it should be. -/
theorem cut_loose (F : K.Full o) (hx : K.graph x = some ⟨level, lk ++ rk⟩) (hroot : x ≠ K.root) :
    (K.cut x level lk rk).Loose o := by
  obtain ⟨hxa, hxb⟩ := F.ne_next hx
  have hold : ∀ {y}, y < K.next → ∀ {m}, (K.cut x level lk rk).graph y = some m →
      K.graph y = some m := by
    intro y hlt m hy
    have hy : (if y = x then none else if y = K.next then some ⟨level, lk⟩
      else if y = K.next + 1 then some ⟨level, rk⟩ else K.graph y) = some m := hy
    rw [if_neg hlt.ne, if_neg (hlt.trans (Nat.lt_succ_self _)).ne] at hy
    split at hy
    · cases hy
    · exact hy
  have hl : (K.cut x level lk rk).graph K.next = some ⟨level, lk⟩ := by simp [cut, hxa.symm]
  have hr : (K.cut x level lk rk).graph (K.next + 1) = some ⟨level, rk⟩ := by simp [cut, hxb.symm]
  refine ⟨⟨?_, fun {y m c} hy hc => ?_, fun {y m c k} hy hc hk => ?_, fun {y m} hy => ?_⟩,
    fun ho {y z c m k} hy hz hc hc' => ?_, fun y hy => ?_, fun {y m} hy => ?_, ?_, fun y hy => ?_⟩
  · obtain ⟨r, hr⟩ := F.graded.root
    have hlt := (F.below hr).1
    refine ⟨r, ?_⟩
    show (if K.root = x then none else if K.root = K.next then some ⟨level, lk⟩
      else if K.root = K.next + 1 then some ⟨level, rk⟩ else K.graph K.root) = some r
    rw [if_neg hroot.symm, if_neg hlt.ne, if_neg (hlt.trans (Nat.lt_succ_self _)).ne, hr]
  · obtain ⟨y₀, k, hk, hl, hsub, -⟩ := cut_cases hx hy
    exact hl ▸ F.tree.inner hk (hsub.subset hc)
  · obtain ⟨y₀, k₀, hk₀, hl, hsub, -⟩ := cut_cases hx hy
    have hc := hsub.subset hc
    exact hl ▸ F.tree.level hk₀ hc (hold ((F.below hk₀).2 c hc) hk)
  · obtain ⟨y₀, k₀, hk₀, -, hsub, -⟩ := cut_cases hx hy
    exact hsub.nodup (F.tree.nodup hk₀)
  · obtain ⟨y₀, m₀, hm₀, -, hsub, hcase⟩ := cut_cases hx hy
    obtain ⟨z₀, k₀, hk₀, -, hsub', hcase'⟩ := cut_cases hx hz
    obtain rfl := F.once ho hm₀ hk₀ (hsub.subset hc) (hsub'.subset hc')
    rcases hcase with ⟨rfl, hyx⟩ | ⟨rfl, hy'⟩
    · rcases hcase' with ⟨rfl, -⟩ | ⟨h, -⟩
      · rfl
      · exact absurd h hyx
    · rcases hcase' with ⟨rfl, hzx⟩ | ⟨-, hz'⟩
      · exact absurd rfl hzx
      · exact halves_apart hl hr (F.tree.nodup hx) hy' hz' hy hz hc hc'
  · exact (lt_add_two_iff y K.next).mpr (hy.imp_left (F.known y))
  · obtain ⟨y₀, k₀, hk₀, -, hsub, hcase⟩ := cut_cases hx hy
    refine ⟨?_, fun c hc => .inl ((F.knows hk₀).2 c (hsub.subset hc))⟩
    rcases hcase with ⟨rfl, -⟩ | ⟨-, h⟩
    · exact .inl (F.knows hk₀).1
    · exact .inr h
  · exact .inl ⟨F.held, hroot.symm⟩
  · rcases hy with hy | ⟨-, hy⟩
    · exact .inl (F.dry y hy)
    · exact .inr hy

/-- **A cut of the root** under a new root. -/
theorem cut_grow (F : K.Full o) (hx : K.graph K.root = some ⟨level, lk ++ rk⟩) :
    ((K.cut K.root level lk rk).grow (level + 1) K.next (K.next + 1)).Full o ∧
      Stable o 0 K ((K.cut K.root level lk rk).grow (level + 1) K.next (K.next + 1)) := by
  have hxlt := (F.below hx).1
  -- the tree with the new root over the old one, and then the swap
  have T : IsTree (Function.update K.graph (K.next + 2) (some ⟨level + 1, [K.root]⟩)) (K.next + 2) :=
    F.tree.over hx (F.fresh_graph (Nat.le_add_right ..)) fun z m hz =>
      F.fresh_kid (Nat.le_add_right ..) z m hz
  have hU : ∀ y, y ≠ K.next + 2 →
      Function.update K.graph (K.next + 2) (some ⟨level + 1, [K.root]⟩) y = K.graph y :=
    fun y hy => Function.update_of_ne hy ..
  have hG : ∀ y, ((K.cut K.root level lk rk).grow (level + 1) K.next (K.next + 1)).graph y =
      if y = K.next + 2 then some ⟨level + 1, [K.next, K.next + 1]⟩
      else if y = K.root then none else if y = K.next then some ⟨level, lk⟩
      else if y = K.next + 1 then some ⟨level, rk⟩ else K.graph y := fun y => rfl
  have hra : K.root ≠ K.next := hxlt.ne
  have hrb : K.root ≠ K.next + 1 := (hxlt.trans (Nat.lt_succ_self _)).ne
  have hrc : K.root ≠ K.next + 2 := (hxlt.trans (Nat.lt_add_of_pos_right (by decide))).ne
  have hac : K.next ≠ K.next + 2 := (Nat.lt_add_of_pos_right (by decide)).ne
  have hbc : K.next + 1 ≠ K.next + 2 := (Nat.lt_succ_self _).ne
  have hba : K.next + 1 ≠ K.next := Nat.succ_ne_self _
  have hnew : ∀ z, z = K.next ∨ z = K.next + 1 → K.next ≤ z ∧ z ≠ K.next + 2 := by
    rintro z (rfl | rfl)
    · exact ⟨le_rfl, hac⟩
    · exact ⟨Nat.le_succ _, hbc⟩
  have W : Swap (Function.update K.graph (K.next + 2) (some ⟨level + 1, [K.root]⟩))
      ((K.cut K.root level lk rk).grow (level + 1) K.next (K.next + 1)).graph (K.next + 2)
      (· = K.root) (fun _ z => z = K.next ∨ z = K.next + 1) := by
    refine ⟨⟨_, _, Function.update_self .., by rw [hG, if_pos rfl], ?_, ?_, ?_, ?_, ?_⟩, ?_, ?_, ?_,
      ?_, ?_⟩
    · simp
    · intro c hc hne
      exact absurd (List.mem_singleton.mp hc) hne
    · intro c z _ hz
      exact List.mem_pair.mpr hz
    · intro z hz
      exact .inr ⟨K.root, rfl, List.mem_pair.mp hz⟩
    · rintro c rfl
      exact List.mem_singleton_self _
    · rintro y rfl
      refine ⟨_, (hU _ hrc).trans hx, by rw [hG, if_neg hrc, if_pos rfl], fun c hc => ?_, fun z hz => ?_⟩
      · rcases List.mem_append.mp hc with hc | hc
        · exact ⟨K.next, ⟨level, lk⟩, .inl rfl,
            by rw [hG, if_neg hac, if_neg hra.symm, if_pos rfl], hc⟩
        · exact ⟨K.next + 1, ⟨level, rk⟩, .inr rfl,
            by rw [hG, if_neg hbc, if_neg hrb.symm, if_neg hba, if_pos rfl], hc⟩
      · rcases hz with rfl | rfl
        · exact ⟨⟨level, lk⟩, by rw [hG, if_neg hac, if_neg hra.symm, if_pos rfl], rfl,
            List.sublist_append_left ..⟩
        · exact ⟨⟨level, rk⟩, by rw [hG, if_neg hbc, if_neg hrb.symm, if_neg hba, if_pos rfl], rfl,
            List.sublist_append_right ..⟩
    · intro y z _ hz
      obtain ⟨hle, hne⟩ := hnew z hz
      refine ⟨(hU z hne).trans (F.fresh_graph hle), fun w m hw => ?_⟩
      by_cases hwr : w = K.next + 2
      · rw [hwr, Function.update_self] at hw
        obtain rfl := Option.some.inj hw
        intro hz'
        exact absurd hxlt (Nat.not_lt_of_ge (List.mem_singleton.mp hz' ▸ hle))
      · exact F.fresh_kid hle w m ((hU w hwr).symm.trans hw)
    · intro y hyr hyc hne
      obtain ⟨m, hm⟩ := Option.ne_none_iff_exists'.mp hne
      rw [hU y hyc] at hm ⊢
      obtain ⟨hya, hyb⟩ := F.ne_next hm
      rw [hG, if_neg hyc, if_neg hyr, if_neg hya, if_neg hyb]
    · intro _ y y' z z' m m' c _ _ hz hz'
      exact halves_apart (by rw [hG, if_neg hac, if_neg hra.symm, if_pos rfl])
        (by rw [hG, if_neg hbc, if_neg hrb.symm, if_neg hba, if_pos rfl]) (F.tree.nodup hx) hz hz'
    · intro z m hz
      by_cases hzc : z = K.next + 2
      · exact .inl ⟨by simp [hzc], hzc ▸ hrc.symm⟩
      rw [hU z hzc]
      rw [hG, if_neg hzc] at hz
      split at hz
      · exact nomatch hz
      rename_i hzr
      split at hz
      · rename_i h
        exact .inr ⟨K.root, rfl, .inl h⟩
      split at hz
      · rename_i h
        exact .inr ⟨K.root, rfl, .inr h⟩
      · exact .inl ⟨by simp [hz], hzr⟩
  have hthree : K.next ≤ K.next + 3 := Nat.le_add_right _ 3
  have T' := W.isTree T
  have U : o → Once (Function.update K.graph (K.next + 2) (some ⟨level + 1, [K.root]⟩)) := fun ho =>
    F.tree.over_once (n := ⟨level, lk ++ rk⟩) (F.once ho)
  refine ⟨⟨⟨T'.toIsGraded, fun ho => W.once (U ho), fun y hy => ?_, fun {y m} hy => ?_, .inr rfl,
    fun y hy => ?_⟩, T'.reach, F.fresh⟩, ⟨hthree, .inr (Nat.le_add_right _ 2),
    fun _ hy => .inl (.inl hy), fun {y m} hlt hm => ?_, fun ho y m hlt hm _ hclear => ?_⟩⟩
  · have hiff : ∀ a b : Nat, (a < b ∨ a = b ∨ a = b + 1) ∨ a = b + 2 → a < b + 3 := by omega
    exact hiff y K.next (hy.imp_left fun h => h.imp_left (F.known y))
  · have hkid : ∀ c ∈ lk ++ rk, (K.known c ∨ c = K.next ∨ c = K.next + 1) ∨ c = K.next + 2 :=
      fun c hc => .inl (.inl ((F.knows hx).2 c hc))
    show ((K.known y ∨ y = K.next ∨ y = K.next + 1) ∨ y = K.next + 2) ∧
      ∀ c ∈ m.kids, (K.known c ∨ c = K.next ∨ c = K.next + 1) ∨ c = K.next + 2
    rw [hG] at hy
    split at hy
    · rename_i h
      obtain rfl := Option.some.inj hy
      exact ⟨.inr h, fun c hc => .inl (.inr (List.mem_pair.mp hc))⟩
    split at hy
    · exact nomatch hy
    split at hy
    · rename_i h
      obtain rfl := Option.some.inj hy
      exact ⟨.inl (.inr (.inl h)), fun c hc => hkid c (List.mem_append_left _ hc)⟩
    split at hy
    · rename_i h
      obtain rfl := Option.some.inj hy
      exact ⟨.inl (.inr (.inr h)), fun c hc => hkid c (List.mem_append_right _ hc)⟩
    · exact ⟨.inl (.inl (F.knows hy).1), fun c hc => .inl (.inl ((F.knows hy).2 c hc))⟩
  · rcases hy with (hy | ⟨-, hy⟩) | hy
    · exact .inl (.inl (F.dry y hy))
    · exact .inl (.inr hy)
    · exact .inr hy
  · rw [hG, if_neg (hlt.trans (Nat.lt_add_of_pos_right (by decide))).ne] at hm
    split at hm
    · exact nomatch hm
    rw [if_neg hlt.ne, if_neg (hlt.trans (Nat.lt_succ_self _)).ne] at hm
    exact ⟨m, hm, rfl, fun c hc _ => hc⟩
  · -- the way goes through the new root first
    have hover : Graded.Clear (Function.update K.graph (K.next + 2) (some ⟨level + 1, [K.root]⟩))
        (fun z => K.dry z ∨ z = K.next + 2) (K.next + 2) y :=
      Graded.Clear.over (n := ⟨level, lk ++ rk⟩) (F.fresh_graph (Nat.le_add_right ..)) (fun _ => .inl)
        (.inr rfl) hclear
    refine (W.clear T (U ho) (fun z hz _ => ?_) (fun z z' hz hz' hd => ?_) hover).1 fun hyr => ?_
    · exact hz.imp_left .inl
    · rw [hz] at hd
      exact .inl (.inr ⟨hd.resolve_right hrc, hz'⟩)
    · rw [hG, hyr, if_neg hrc, if_pos rfl] at hm
      cases hm

end Full

end Outline

end GravTree
