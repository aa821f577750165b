import GravTree.Proof.Sound

/-!
# What steps keep

No step invents an entry, and a version only disappears behind one that is at least
as new. Nodes that stay keep their level and their place below their parent, and a
node that is gone does not come back.
-/

namespace GravTree

open Forest

namespace View

theorem holds_iff {v : View} {e : Entry} :
    v.Holds e ↔ ∃ e', v.Stored e' ∧ e'.key = e.key ∧ e.seqNo ≤ e'.seqNo := by
  constructor
  · rintro ⟨x, n, hx, e', he', hk, hs⟩
    exact ⟨e', ⟨x, n, hx, he'⟩, hk, hs⟩
  · rintro ⟨e', ⟨x, n, hx, he'⟩, hk, hs⟩
    exact ⟨x, n, hx, e', he', hk, hs⟩

theorem Stored.holds {v : View} {e : Entry} (h : v.Stored e) : v.Holds e :=
  holds_iff.mpr ⟨e, h, rfl, le_rfl⟩

theorem Holds.trans {v v' : View} {e : Entry} (h : v.Holds e)
    (h' : ∀ e, v.Stored e → v'.Holds e) : v'.Holds e := by
  obtain ⟨e₁, h₁, hk, hs⟩ := holds_iff.mp h
  obtain ⟨e₂, h₂, hk', hs'⟩ := holds_iff.mp (h' e₁ h₁)
  exact holds_iff.mpr ⟨e₂, h₂, hk'.trans hk, hs.trans hs'⟩

end View

/-! ## Entries -/

variable {t t' : Tree}

theorem Revises.stored {x : NodeId} {n n' : SSTNode} (R : Revises t t' x n n') {e : Entry}
    (h : t'.view.Stored e) : t.view.Stored e := by
  obtain ⟨y, m, hy, he⟩ := h
  rw [R.view] at hy
  by_cases hyx : y = x
  · subst hyx
    obtain rfl : n' = m := by simpa using hy
    exact ⟨y, n, R.here, mem_of_mem_sortBuffer (R.buffer ▸ he)⟩
  · exact ⟨y, m, by simpa [hyx] using hy, he⟩

theorem Revises.holds {x : NodeId} {n n' : SSTNode} (R : Revises t t' x n n') {e : Entry}
    (h : t.view.Stored e) : t'.view.Holds e := by
  obtain ⟨y, m, hy, he⟩ := h
  by_cases hyx : y = x
  · subst hyx
    rw [R.here] at hy
    cases hy
    exact ⟨y, n', by simp [R.view], R.buffer ▸ covers_sortBuffer he⟩
  · exact ⟨y, m, by simpa [R.view, hyx] using hy, .of_mem he⟩

theorem View.mem_of_mem_part {v : View} {n : SSTNode} {c : NodeId} {e : Entry}
    (h : e ∈ v.part n c) : e ∈ n.buffer := List.mem_of_mem_filter h

/-- Every buffered entry is routed to some child. -/
theorem View.exists_part (v : View) {n : SSTNode} (hn : n.childIds ≠ []) {e : Entry}
    (he : e ∈ n.buffer) : ∃ c ∈ n.childIds, e ∈ v.part n c := by
  obtain ⟨c, hc, -⟩ := owns_targetChild v.minKey hn e.key
  exact ⟨c, List.mem_of_getElem? hc, List.mem_filter.mpr ⟨he, by simpa using hc⟩⟩

namespace Pushes

variable {p : NodeId} {n n' : SSTNode} {f : NodeId → SSTNode}

theorem kids_ne (P : Pushes t t' p n n' f) (S : t.Sound) : n.childIds ≠ [] := by
  have := (S.shape.fit P.here).1 P.inner
  rintro h
  simp [h] at this

/-- What a child holds after the push it got from the parent or had before. -/
theorem mem_child (P : Pushes t t' p n n' f) {c : NodeId} (hc : c ∈ n.childIds)
    {m : SSTNode} (hm : t.view c = some m) {e : Entry} (he : e ∈ (f c).buffer) :
    e ∈ t.view.part n c ∨ e ∈ m.buffer := by
  by_cases hp : t.view.part n c = []
  · rw [(P.kept c hc m hm hp).2.1] at he
    exact .inr he
  · rw [(P.made c hc m hm hp).2.2.1] at he
    exact mem_of_mem_merge (mem_of_mem_sortBuffer he)

theorem covers_child (P : Pushes t t' p n n' f) {c : NodeId} (hc : c ∈ n.childIds)
    {m : SSTNode} (hm : t.view c = some m) {e : Entry}
    (he : e ∈ t.view.part n c ∨ e ∈ m.buffer) : Covers (f c).buffer e := by
  by_cases hp : t.view.part n c = []
  · rw [(P.kept c hc m hm hp).2.1]
    exact .of_mem (by simpa [hp] using he)
  · rw [(P.made c hc m hm hp).2.2.1]
    exact (covers_merge he).trans fun _ => covers_sortBuffer

theorem stored (P : Pushes t t' p n n' f) (S : t.Sound) {e : Entry} (h : t'.view.Stored e) :
    t.view.Stored e := by
  obtain ⟨z, m', hz, he⟩ := h
  rcases P.origin hz with ⟨-, rfl⟩ | ⟨c, hc, -, rfl⟩ | ⟨-, -, hz⟩
  · simp [P.buffer] at he
  · obtain ⟨m, hm, -, -⟩ := S.shape.child_mem P.here hc
    rcases P.mem_child hc hm he with he | he
    · exact ⟨p, n, P.here, View.mem_of_mem_part he⟩
    · exact ⟨c, m, hm, he⟩
  · exact ⟨z, m', hz, he⟩

theorem holds (P : Pushes t t' p n n' f) (S : t.Sound) {e : Entry} (h : t.view.Stored e) :
    t'.view.Holds e := by
  obtain ⟨y, m, hy, he⟩ := h
  by_cases hyp : y = p
  · subst hyp
    rw [P.here] at hy
    cases hy
    obtain ⟨c, hc, hec⟩ := t.view.exists_part (P.kids_ne S) he
    obtain ⟨k, hk, -, -⟩ := S.shape.child_mem P.here hc
    exact ⟨_, f c, P.at_child c hc, P.covers_child hc hk (.inl hec)⟩
  by_cases hyn : y ∈ n.childIds
  · exact ⟨_, f y, P.at_child y hyn, P.covers_child hyn hy (.inr he)⟩
  · exact ⟨y, m, by rw [P.calm S hyp hyn (S.below hy), hy], .of_mem he⟩

end Pushes

namespace Splits

variable {x a b : NodeId} {n na nb : SSTNode} {L R : List Entry}

theorem mem_half (P : Splits t t' x a b n na nb L R) {e : Entry} :
    e ∈ na.buffer ∨ e ∈ nb.buffer → e ∈ n.buffer := by
  rw [P.buffer_a, P.buffer_b, P.entries]
  exact Or.imp mem_of_mem_sortBuffer mem_of_mem_sortBuffer

theorem stored (P : Splits t t' x a b n na nb L R) {e : Entry} (h : t'.view.Stored e) :
    t.view.Stored e := by
  obtain ⟨z, m', hz, he⟩ := h
  rcases P.origin hz with ⟨-, rfl⟩ | ⟨-, rfl⟩ | ⟨hx, rfl⟩ | ⟨-, m, hm, rfl⟩
  · exact ⟨x, n, P.here, P.mem_half (.inl he)⟩
  · exact ⟨x, n, P.here, P.mem_half (.inr he)⟩
  · rcases P.root with ⟨hne, -⟩ | ⟨-, -, -, -, -, r, hr, -, -, -, hb⟩
    · exact absurd hx hne
    · rw [hr] at hz
      cases hz
      simp [hb] at he
  · exact ⟨z, m, hm, he⟩

theorem holds (P : Splits t t' x a b n na nb L R) (S : t.Sound) {e : Entry}
    (h : t.view.Stored e) : t'.view.Holds e := by
  obtain ⟨y, m, hy, he⟩ := h
  by_cases hyx : y = x
  · subst hyx
    rw [P.here] at hy
    cases hy
    rcases (P.entries e).mp he with he | he
    · exact ⟨a, na, P.at_a, P.buffer_a ▸ covers_sortBuffer he⟩
    · exact ⟨b, nb, P.at_b, P.buffer_b ▸ covers_sortBuffer he⟩
  · exact ⟨y, _, P.at_other S hy hyx, .of_mem he⟩

end Splits

/-- **No step invents an entry.** -/
theorem Step.stored {cs : List SplitCall} (h : Step t cs t') (S : t.Sound) {e : Entry}
    (he : t'.view.Stored e) : t.view.Stored e := by
  cases h with
  | skip => exact he
  | revise h => exact h.stored he
  | push h => exact h.stored S he
  | splitLeaf h => exact h.stored he
  | splitNode h => exact h.stored he

/-- **No step loses a key's newest version.** -/
theorem Step.holds {cs : List SplitCall} (h : Step t cs t') (S : t.Sound) {e : Entry}
    (he : t.view.Stored e) : t'.view.Holds e := by
  cases h with
  | skip => exact he.holds
  | revise h => exact h.holds he
  | push h => exact h.holds S he
  | splitLeaf h => exact h.holds S he
  | splitNode h => exact h.holds S he

theorem Steps.stored {cs : List SplitCall} (h : Steps t cs t') (S : t.Sound) {e : Entry}
    (he : t'.view.Stored e) : t.view.Stored e := by
  induction h with
  | refl => exact he
  | tail hss hs ih => exact ih (hs.stored (hss.sound S) he)

theorem Steps.holds {cs : List SplitCall} (h : Steps t cs t') (S : t.Sound) {e : Entry}
    (he : t.view.Stored e) : t'.view.Holds e := by
  induction h with
  | refl => exact he.holds
  | tail hss hs ih => exact ih.trans fun _ => hs.holds (hss.sound S)

/-! ## Places -/

/-- What a node that stays can rely on. -/
structure Stable (t t' : Tree) : Prop where
  level : ∀ {y m m'}, t.view y = some m → t'.view y = some m' → m'.level = m.level
  kids : ∀ {p y n n' m'}, t.view p = some n → y ∈ n.childIds → t'.view p = some n' →
    t'.view y = some m' → y ∈ n'.childIds
  gone : ∀ {y}, y < t.next → t.view y = none → t'.view y = none
  next : t.next ≤ t'.next

theorem Stable.refl (t : Tree) : Stable t t where
  level h h' := by
    rw [h] at h'
    cases h'
    rfl
  kids h hy h' _ := by
    rw [h] at h'
    cases h'
    exact hy
  gone _ h := h
  next := le_rfl

theorem Stable.trans {t'' : Tree} (S : t.Sound) (h : Stable t t') (h' : Stable t' t'') :
    Stable t t'' := by
  have hmid : ∀ {y : NodeId} {m'' : SSTNode}, y < t.next → t''.view y = some m'' →
      ∃ m', t'.view y = some m' := by
    intro y m'' hy hm''
    cases hm : t'.view y with
    | some m' => exact ⟨m', rfl⟩
    | none => simp [h'.gone (lt_of_lt_of_le hy h.next) hm] at hm''
  refine ⟨?_, ?_, fun hy hn => h'.gone (lt_of_lt_of_le hy h.next) (h.gone hy hn), h.next.trans h'.next⟩
  · intro y m m'' hm hm''
    obtain ⟨m', hm'⟩ := hmid (S.below hm) hm''
    exact (h'.level hm' hm'').trans (h.level hm hm')
  · intro p y n n'' m'' hp hy hp'' hy''
    obtain ⟨n', hn'⟩ := hmid (S.below hp) hp''
    obtain ⟨m', hm'⟩ := hmid (S.kid_lt hp hy) hy''
    exact h'.kids hn' (h.kids hp hy hn' hm') hp'' hy''

theorem Revises.stable {x : NodeId} {n n' : SSTNode} (R : Revises t t' x n n') : Stable t t' := by
  have hcase : ∀ {y m m'}, t.view y = some m → t'.view y = some m' →
      m'.level = m.level ∧ m'.childIds = m.childIds := by
    intro y m m' hm hm'
    rw [R.view] at hm'
    by_cases hyx : y = x
    · subst hyx
      rw [R.here] at hm
      cases hm
      obtain rfl : n' = m' := by simpa using hm'
      exact ⟨R.level, R.kids⟩
    · rw [Function.update_of_ne hyx, hm] at hm'
      cases hm'
      exact ⟨rfl, rfl⟩
  refine ⟨fun hm hm' => (hcase hm hm').1, fun hp hy hp' _ => (hcase hp hp').2 ▸ hy, ?_, R.next⟩
  intro y _ hy
  have hyx : y ≠ x := by
    rintro rfl
    simp [R.here] at hy
  simpa [R.view, hyx] using hy

theorem Pushes.stable {p : NodeId} {n n' : SSTNode} {f : NodeId → SSTNode}
    (P : Pushes t t' p n n' f) (S : t.Sound) : Stable t t' := by
  -- an old identifier that is still there belongs to a node that stayed in its place
  have hold : ∀ {c}, c ∈ n.childIds → (f c).id < t.next → (f c).id = c := fun hc hlt =>
    (P.id_cases S hc).resolve_right (not_le_of_gt hlt)
  refine ⟨?_, ?_, ?_, P.next⟩
  · intro y m m' hm hm'
    rcases P.origin hm' with ⟨rfl, rfl⟩ | ⟨c, hc, rfl, rfl⟩ | ⟨-, -, h⟩
    · rw [P.here] at hm
      cases hm
      exact P.level
    · have hid := hold hc (S.below hm)
      rw [hid] at hm
      exact (P.child c hc m hm).1
    · rw [hm] at h
      cases h
      rfl
  · intro q y m m' k' hq hy hq' hy'
    rcases P.origin hq' with ⟨rfl, rfl⟩ | ⟨c, hc, rfl, rfl⟩ | ⟨-, -, h⟩
    · rw [P.here] at hq
      cases hq
      rw [P.kids]
      rcases P.origin hy' with ⟨rfl, -⟩ | ⟨c, hc, rfl, -⟩ | ⟨-, hyn, -⟩
      · exact absurd hy (P.p_notMem S)
      · exact List.mem_map_of_mem hc
      · exact absurd hy hyn
    · have hid := hold hc (S.below hq)
      rw [hid] at hq
      exact (P.child c hc m hq).2.symm ▸ hy
    · rw [hq] at h
      cases h
      exact hy
  · intro y hlt hy
    rw [P.other y ?_ ?_]
    · split
      · rfl
      · exact hy
    · rintro rfl
      simp [P.here] at hy
    · rintro c hc rfl
      obtain ⟨m, hm, -, -⟩ := S.shape.child_mem P.here hc
      rw [hold hc hlt] at hy
      simp [hm] at hy

theorem Splits.stable {x a b : NodeId} {n na nb : SSTNode} {L R : List Entry}
    (P : Splits t t' x a b n na nb L R) (S : t.Sound) : Stable t t' := by
  have hold : ∀ {y m m'}, t.view y = some m → t'.view y = some m' →
      y ≠ x ∧ m' = relink x a b m := by
    intro y m m' hm hm'
    have hyx : y ≠ x := by
      rintro rfl
      rw [P.gone] at hm'
      cases hm'
    rw [P.at_other S hm hyx] at hm'
    exact ⟨hyx, (Option.some.inj hm').symm⟩
  refine ⟨?_, ?_, ?_, P.next_le⟩
  · intro y m m' hm hm'
    rw [(hold hm hm').2]
    rfl
  · intro p y m m' k' hp hy hp' hy'
    obtain ⟨k, hk, -, -⟩ := S.shape.child_mem hp hy
    rw [(hold hp hp').2]
    exact mem_flatMap_splitAt.mpr (.inl ⟨hy, (hold hk hy').1⟩)
  · intro y hlt hy
    rw [P.other y ?_ (lt_of_lt_of_le hlt P.fresh_a.1).ne (lt_of_lt_of_le hlt P.fresh_b.1).ne ?_, hy]
    · rfl
    · rintro rfl
      simp [P.here] at hy
    · intro hr
      rcases P.root with ⟨hne, -⟩ | ⟨-, hle, -⟩
      · exact absurd hr hne
      · exact (lt_of_lt_of_le hlt hle).ne

theorem Step.stable {cs : List SplitCall} (h : Step t cs t') (S : t.Sound) : Stable t t' := by
  cases h with
  | skip h => exact ⟨(Stable.refl t).level, (Stable.refl t).kids, fun _ h => h, h⟩
  | revise h => exact h.stable
  | push h => exact h.stable S
  | splitLeaf h => exact h.stable S
  | splitNode h => exact h.stable S

theorem Steps.stable {cs : List SplitCall} (h : Steps t cs t') (S : t.Sound) : Stable t t' := by
  induction h with
  | refl => exact .refl _
  | tail hss hs ih => exact .trans S ih (hs.stable (hss.sound S))

end GravTree
