import GravTree.Proof.Read

/-!
# Answers

The walk of `find_path` meets the nodes that may hold a key from the top down, so a
lookup answers with the first version of the topmost node that holds the key. No step
changes that: rewriting a node deduplicates its buffer, a push moves a version down over
older ones only, and a fair split leaves all versions of a key in one half.
-/

namespace GravTree

open Forest Fence

variable {t t' : Tree} {k : Bytes}

/-- `r` is what the topmost node that holds `k` finds. -/
def Tree.Answers (t : Tree) (k : Bytes) : Option Entry → Prop
  | some e => ∃ x n, t.view x = some n ∧ n.get k = some e ∧
      ∀ y m, t.view y = some m → n.level < m.level → m.get k = none
  | none => ∀ y m, t.view y = some m → m.get k = none

/-- What the walk from the root finds. -/
def Tree.answer (t : Tree) (k : Bytes) : Option Entry :=
  t.view.firstVersion k (t.view.route k t.height t.root)

/-! ## The walk answers -/

namespace Tree.Sound

theorem mem_of_get (S : t.Sound) {x : NodeId} {n : SSTNode} {e : Entry} (hx : t.view x = some n)
    (h : n.get k = some e) : e ∈ n.buffer ∧ e.key = k := by
  obtain ⟨he, hk, -⟩ := lookupSorted_eq_some (S.sorted hx) h
  exact ⟨he, hk⟩

theorem get_none (S : t.Sound) {x : NodeId} {n : SSTNode} (hx : t.view x = some n) :
    n.get k = none ↔ ∀ e ∈ n.buffer, e.key ≠ k :=
  lookupSorted_eq_none (S.sorted hx)

end Tree.Sound

/-- Within a level only the owner of a key finds it. -/
theorem Tree.Ordered.get_none (O : t.Ordered) (S : t.Sound) {x y : NodeId} {n m : SSTNode}
    {e : Entry} (hx : t.view x = some n) (hy : t.view y = some m) (hl : n.level = m.level)
    (hne : y ≠ x) (he : n.get k = some e) : m.get k = none := by
  obtain ⟨he, hk⟩ := S.mem_of_get hx he
  refine (S.get_none hy).mpr fun e' he' hk' => hne ?_
  exact (O.holder_unique S hx hy hl he he' (hk.trans hk'.symm)).symm

/-- The walk from an owner finds what the topmost holder at its depth or below does. -/
theorem Tree.Ordered.answers_route (O : t.Ordered) (S : t.Sound) (k : Bytes) :
    ∀ h {d x}, d + h = t.height → Owns t.view.minKey (t.view.row t.root d) k x →
      match t.view.firstVersion k (t.view.route k h x) with
      | some e => ∃ y n, t.view y = some n ∧ n.level ≤ h ∧ n.get k = some e ∧
          ∀ z m, t.view z = some m → n.level < m.level → m.level ≤ h → m.get k = none
      | none => ∀ y m, t.view y = some m → m.level ≤ h → m.get k = none := by
  intro h
  induction h with
  | zero =>
    intro d x hd hx
    obtain ⟨n, hn, -, hl⟩ := S.shape.node hx.mem
    simp only [View.route, View.firstVersion, List.findSome?_singleton, hn, Option.bind_some]
    cases hg : n.get k with
    | some e => exact ⟨x, n, hn, by omega, hg, fun z m _ hlt hle => by omega⟩
    | none =>
      intro y m hm hml
      refine (S.get_none hm).mpr fun e he hk => ?_
      have hyr := (S.shape.mem_row_iff (d := d) hm).mpr (by omega)
      obtain rfl := (hk ▸ O.owns hyr hm e he).unique hx
      obtain rfl : n = m := Option.some.inj (hn.symm.trans hm)
      exact (S.get_none hn).mp hg e he hk
  | succ h ih =>
    intro d x hd hx
    obtain ⟨n, hn, -, hl⟩ := S.shape.node hx.mem
    have hnext := ih (d := d + 1) (by omega) (O.owns_next S hn (by omega) hx)
    rw [View.route, View.kids_some hn, View.firstVersion, List.findSome?_cons]
    simp only [hn, Option.bind_some]
    cases hg : n.get k with
    | some e => exact ⟨x, n, hn, by omega, hg, fun z m _ hlt hle => by omega⟩
    | none =>
      -- only the owner may hold the key at this depth
      have hhere : ∀ y m, t.view y = some m → m.level = h + 1 → m.get k = none := by
        intro y m hm hml
        refine (S.get_none hm).mpr fun e he hk => ?_
        have hyr := (S.shape.mem_row_iff (d := d) hm).mpr (by omega)
        obtain rfl := (hk ▸ O.owns hyr hm e he).unique hx
        obtain rfl : n = m := Option.some.inj (hn.symm.trans hm)
        exact (S.get_none hn).mp hg e he hk
      change match t.view.firstVersion k _ with | some e => _ | none => _
      cases hf : t.view.firstVersion k (t.view.route k h
          (scan t.view.minKey k (n.childIds.headD invalidNodeId) n.childIds)) with
      | some e =>
        rw [hf] at hnext
        obtain ⟨y, m, hm, hml, hme, habove⟩ := hnext
        refine ⟨y, m, hm, by omega, hme, fun z m' hz hlt hle => ?_⟩
        rcases Nat.lt_or_eq_of_le hle with h' | h'
        · exact habove z m' hz hlt (by omega)
        · exact hhere z m' hz h'
      | none =>
        rw [hf] at hnext
        intro y m hm hml
        rcases Nat.lt_or_eq_of_le hml with h' | h'
        · exact hnext y m hm (by omega)
        · exact hhere y m hm h'

/-- **The walk from the root** answers. -/
theorem Tree.Ordered.answers (O : t.Ordered) (S : t.Sound) (k : Bytes) :
    t.Answers k (t.answer k) := by
  have hroot : Owns t.view.minKey (t.view.row t.root 0) k t.root := owns_singleton _
  have := O.answers_route S k t.height (Nat.zero_add _) hroot
  have hlev : ∀ {y m}, t.view y = some m → m.level ≤ t.height := fun hm => (S.shape.mem_row hm).2.1
  unfold Tree.answer
  cases hf : t.view.firstVersion k (t.view.route k t.height t.root) with
  | some e =>
    rw [hf] at this
    obtain ⟨x, n, hn, -, he, habove⟩ := this
    exact ⟨x, n, hn, he, fun y m hm hlt => habove y m hm hlt (hlev hm)⟩
  | none =>
    rw [hf] at this
    exact fun y m hm => this y m hm (hlev hm)

/-- There is one answer. -/
theorem Tree.Answers.unique (O : t.Ordered) (S : t.Sound) {r r' : Option Entry}
    (h : t.Answers k r) (h' : t.Answers k r') : r = r' := by
  cases r with
  | none =>
    cases r' with
    | none => rfl
    | some e =>
      obtain ⟨x, n, hn, he, -⟩ := h'
      rw [h x n hn] at he
      cases he
  | some e =>
    obtain ⟨x, n, hn, he, habove⟩ := h
    cases r' with
    | none =>
      rw [h' x n hn] at he
      cases he
    | some e' =>
      obtain ⟨x', n', hn', he', habove'⟩ := h'
      rcases Nat.lt_trichotomy n.level n'.level with hlt | heq | hlt
      · rw [habove x' n' hn' hlt] at he'
        cases he'
      · by_cases hxx : x' = x
        · subst hxx
          obtain rfl : n = n' := Option.some.inj (hn.symm.trans hn')
          exact he.symm.trans he'
        · rw [O.get_none S hn hn' heq hxx he] at he'
          cases he'
      · rw [habove' x n hn hlt] at he
        cases he

theorem Tree.Answers.eq (O : t.Ordered) (S : t.Sound) {r : Option Entry} (h : t.Answers k r) :
    t.answer k = r := (O.answers S k).unique O S h

/-- **In a layered tree** the answer is the newest version. -/
theorem Tree.Ordered.newest (O : t.Ordered) (S : t.Sound) (V : t.Layered) (k : Bytes) :
    t.view.Newest k (t.answer k) := by
  have h := O.answers S k
  cases hr : t.answer k with
  | none =>
    rw [hr] at h
    rintro e ⟨y, m, hm, he⟩
    exact (S.get_none hm).mp (h y m hm) e he
  | some e =>
    rw [hr] at h
    obtain ⟨x, n, hn, he, habove⟩ := h
    obtain ⟨hmem, hk, hmax⟩ := lookupSorted_eq_some (S.sorted hn) he
    refine ⟨⟨x, n, hn, hmem⟩, hk, ?_⟩
    rintro e' ⟨y, m, hm, he'⟩ hk'
    rcases Nat.lt_trichotomy n.level m.level with hlt | heq | hlt
    · exact absurd hk' ((S.get_none hm).mp (habove y m hm hlt) e' he')
    · by_cases hyx : y = x
      · subst hyx
        obtain rfl : n = m := Option.some.inj (hn.symm.trans hm)
        exact hmax e' he' hk'
      · exact absurd hk' ((S.get_none hm).mp (O.get_none S hn hm heq hyx he) e' he')
    · exact (V hn hm hlt e hmem e' he' (hk.trans hk'.symm)).le

/-! ## The steps -/

/-- An answer survives if its node does, and no higher node takes the key up. -/
theorem Tree.Answers.transfer {r : Option Entry} (h : t.Answers k r)
    (hto : ∀ x n e, t.view x = some n → n.get k = some e →
      ∃ x' n', t'.view x' = some n' ∧ n'.get k = some e ∧ n'.level = n.level)
    (hfrom : ∀ y m', t'.view y = some m' → m'.get k ≠ none →
      ∃ y' m, t.view y' = some m ∧ m.get k ≠ none ∧ m.level = m'.level) : t'.Answers k r := by
  cases r with
  | none =>
    intro y m' hm'
    by_contra hne
    obtain ⟨y', m, hm, hmk, -⟩ := hfrom y m' hm' hne
    exact hmk (h y' m hm)
  | some e =>
    obtain ⟨x, n, hn, he, habove⟩ := h
    obtain ⟨x', n', hn', he', hl⟩ := hto x n e hn he
    refine ⟨x', n', hn', he', fun y m' hm' hlt => ?_⟩
    by_contra hne
    obtain ⟨y', m, hm, hmk, hl'⟩ := hfrom y m' hm' hne
    exact hmk (habove y' m hm (by omega))

theorem Revises.answers {x : NodeId} {n n' : SSTNode} (R : Revises t t' x n n') (S : t.Sound)
    {r : Option Entry} (h : t.Answers k r) : t'.Answers k r := by
  have hget : n'.get k = n.get k := by
    rw [SSTNode.get, SSTNode.get, R.buffer, lookupSorted_sortBuffer (S.sorted R.here)]
  refine h.transfer (fun y m e hm he => ?_) fun y m' hm' hne => ?_
  · by_cases hyx : y = x
    · subst hyx
      obtain rfl : n = m := Option.some.inj (R.here.symm.trans hm)
      exact ⟨y, n', by rw [R.view, Function.update_self], hget.trans he, R.level⟩
    · exact ⟨y, m, by rw [R.view, Function.update_of_ne hyx, hm], he, rfl⟩
  · rw [R.view] at hm'
    by_cases hyx : y = x
    · subst hyx
      rw [Function.update_self] at hm'
      cases hm'
      exact ⟨y, n, R.here, hget ▸ hne, R.level.symm⟩
    · rw [Function.update_of_ne hyx] at hm'
      exact ⟨y, m', hm', hne, rfl⟩

/-- Sorting out entries by key keeps or drops all versions of a key. -/
theorem find?_filter_key (p : Bytes → Bool) (es : List Entry) (k : Bytes) :
    (es.filter fun e => p e.key).find? (·.key = k) =
      if p k then es.find? (·.key = k) else none := by
  induction es with
  | nil => simp
  | cons e es ih =>
    rw [List.filter_cons, List.find?_cons]
    by_cases hk : e.key = k
    · subst hk
      cases hp : p e.key <;> simp [hp, ih]
    · cases hp : p e.key <;> simp [hk, ih]

namespace Splits

variable {x a b : NodeId} {n na nb : SSTNode} {L R : List Entry}

theorem get_a (P : Splits t t' x a b n na nb L R) (hL : Sorted L) :
    na.get k = L.find? (·.key = k) := by
  rw [SSTNode.get, P.buffer_a, lookupSorted_sortBuffer hL, lookupSorted_eq_find? hL]

theorem get_b (P : Splits t t' x a b n na nb L R) (hR : Sorted R) :
    nb.get k = R.find? (·.key = k) := by
  rw [SSTNode.get, P.buffer_b, lookupSorted_sortBuffer hR, lookupSorted_eq_find? hR]

theorem sorted_halves (P : Splits t t' x a b n na nb L R) (S : t.Sound) : Sorted L ∧ Sorted R := by
  have hs := S.sorted P.here
  by_cases hl : n.level = 0
  · rw [← (P.leaf hl).1] at hs
    exact ⟨(List.pairwise_append.mp hs).1, (List.pairwise_append.mp hs).2.1⟩
  · rw [(P.dealt hl).1, (P.dealt hl).2]
    exact ⟨hs.sublist List.filter_sublist, hs.sublist List.filter_sublist⟩

/-- A fair split leaves all versions of a key in one half. -/
theorem get_half (P : Splits t t' x a b n na nb L R) (S : t.Sound) (hF : Splits.Fair t x n nb L) :
    n.get k = (na.get k).or (nb.get k) ∧ (na.get k = none ∨ nb.get k = none) := by
  obtain ⟨hsL, hsR⟩ := P.sorted_halves S
  rw [P.get_a hsL, P.get_b hsR, SSTNode.get, lookupSorted_eq_find? (S.sorted P.here)]
  by_cases hl : n.level = 0
  · obtain ⟨hLR, -, -, hfb⟩ := P.leaf hl
    refine ⟨by rw [← hLR, List.find?_append], ?_⟩
    by_contra hboth
    obtain ⟨h₁, h₂⟩ := not_or.mp hboth
    obtain ⟨e₁, he₁⟩ := Option.ne_none_iff_exists'.mp h₁
    obtain ⟨e₂, he₂⟩ := Option.ne_none_iff_exists'.mp h₂
    have hk₁ : e₁.key = k := by simpa using List.find?_some he₁
    have hk₂ : e₂.key = k := by simpa using List.find?_some he₂
    -- the fence of the right half lies between the two
    have hlt := hF.apart hl e₁ (List.mem_of_find?_eq_some he₁)
    obtain ⟨e₃, he₃, hk₃, -⟩ := covers_sortBuffer (List.mem_of_find?_eq_some he₂)
    have hle := hfb.le_key (P.buffer_b ▸ (uniqueKeys_sortBuffer R).sorted)
      (P.buffer_b.symm ▸ he₃)
    rw [hk₃, hk₂, ← hk₁] at hle
    exact absurd hlt (not_lt_of_ge hle)
  · obtain ⟨hL, hR⟩ := P.dealt hl
    have h₁ := find?_filter_key (fun q => decide (q < t.view.headMin nb)) n.buffer k
    have h₂ := find?_filter_key (fun q => decide (¬ q < t.view.headMin nb)) n.buffer k
    rw [hL, hR]
    by_cases hk : k < t.view.headMin nb
    · simp only [hk, not_true_eq_false, decide_true, decide_false, if_true] at h₁ h₂
      rw [h₁, h₂]
      simp
    · simp only [hk, not_false_eq_true, decide_true, decide_false, if_true] at h₁ h₂
      rw [h₁, h₂]
      simp

theorem answers (P : Splits t t' x a b n na nb L R) (S : t.Sound) (hF : Splits.Fair t x n nb L)
    {r : Option Entry} (h : t.Answers k r) : t'.Answers k r := by
  obtain ⟨hget, hone⟩ := P.get_half S hF (k := k)
  refine h.transfer (fun y m e hm he => ?_) fun y m' hm' hne => ?_
  · by_cases hyx : y = x
    · subst hyx
      obtain rfl : n = m := Option.some.inj (P.here.symm.trans hm)
      rw [hget] at he
      cases ha : na.get k with
      | some e' =>
        rw [ha] at he
        exact ⟨a, na, P.at_a, ha.trans he, P.level_a⟩
      | none =>
        rw [ha, Option.none_or] at he
        exact ⟨b, nb, P.at_b, he, P.level_b⟩
    · exact ⟨y, _, P.at_other S hm hyx, he, rfl⟩
  · rcases P.origin hm' with ⟨-, rfl⟩ | ⟨-, rfl⟩ | ⟨hx, rfl⟩ | ⟨-, m, hm, rfl⟩
    · refine ⟨x, n, P.here, ?_, P.level_a.symm⟩
      obtain ⟨e, he⟩ := Option.ne_none_iff_exists'.mp hne
      simp [hget, he]
    · refine ⟨x, n, P.here, ?_, P.level_b.symm⟩
      obtain ⟨e, he⟩ := Option.ne_none_iff_exists'.mp hne
      rw [hget, hone.resolve_right hne, he]
      simp
    · rcases P.root with ⟨hxr, -⟩ | ⟨-, -, -, -, -, r', hr, -, -, -, hb⟩
      · exact absurd hx hxr
      · rw [hr] at hm'
        cases hm'
        exact absurd (by rw [SSTNode.get, hb]; rfl) hne
    · exact ⟨y, m, hm, hne, rfl⟩

end Splits

namespace Pushes

variable {p : NodeId} {n n' : SSTNode} {f : NodeId → SSTNode}

/-- What a child finds after the push: what the parent sent it, or what it had. -/
theorem get_child (P : Pushes t t' p n n' f) (S : t.Sound) (V : t.Layered) {c : NodeId}
    (hc : c ∈ n.childIds) {m : SSTNode} (hm : t.view c = some m) :
    (f c).get k =
      (if n.childIds[targetChild (n.childIds.map t.view.minKey) k]? = some c then n.get k
        else none).or (m.get k) := by
  have hs := S.sorted P.here
  have hpart : (t.view.part n c).find? (·.key = k) =
      if n.childIds[targetChild (n.childIds.map t.view.minKey) k]? = some c then n.get k
      else none := by
    have := find?_filter_key (fun q => decide
      (n.childIds[targetChild (n.childIds.map t.view.minKey) q]? = some c)) n.buffer k
    rw [View.part, this, SSTNode.get, lookupSorted_eq_find? hs]
    simp
  rw [← hpart]
  by_cases hp : t.view.part n c = []
  · rw [SSTNode.get, (P.kept c hc m hm hp).2.1, hp]
    rfl
  · have hps : Sorted (t.view.part n c) := hs.sublist List.filter_sublist
    obtain ⟨m', hm', -, hl⟩ := S.shape.child_mem P.here hc
    obtain rfl : m = m' := Option.some.inj (hm.symm.trans hm')
    rw [SSTNode.get, (P.made c hc m hm hp).2.2.1, lookupSorted_merge hps (S.sorted hm),
      lookupSorted_eq_find? hps, SSTNode.get]
    intro e he e' he' hk hk'
    exact (V P.here hm (by omega) e (View.mem_of_mem_part he) e' he' (hk.trans hk'.symm)).le

theorem answers (P : Pushes t t' p n n' f) (S : t.Sound) (O : t.Ordered) (V : t.Layered)
    {r : Option Entry} (h : t.Answers k r) : t'.Answers k r := by
  have hkids : ∀ c ∈ n.childIds, ∃ m, t.view c = some m ∧ m.level + 1 = n.level ∧
      (f c).level = m.level := fun c hc => by
    obtain ⟨m, hm, -, hl⟩ := S.shape.child_mem P.here hc
    exact ⟨m, hm, hl, (P.child c hc m hm).1⟩
  have hempty : n'.get k = none := by rw [SSTNode.get, P.buffer]; rfl
  by_cases hp : n.get k = none
  · -- nothing of the key moves
    have hsame : ∀ c ∈ n.childIds, ∀ m, t.view c = some m → (f c).get k = m.get k := by
      intro c hc m hm
      rw [P.get_child S V hc hm, hp]
      simp
    refine h.transfer (fun y m e hm he => ?_) fun y m' hm' hne => ?_
    · by_cases hyp : y = p
      · subst hyp
        obtain rfl : n = m := Option.some.inj (P.here.symm.trans hm)
        rw [hp] at he
        cases he
      by_cases hyn : y ∈ n.childIds
      · exact ⟨_, f y, P.at_child y hyn, (hsame y hyn m hm).trans he, (P.child y hyn m hm).1⟩
      · exact ⟨y, m, by rw [P.calm S hyp hyn (S.below hm), hm], he, rfl⟩
    · rcases P.origin hm' with ⟨-, rfl⟩ | ⟨c, hc, -, rfl⟩ | ⟨-, -, hy⟩
      · exact absurd hempty hne
      · obtain ⟨m, hm, -, hl⟩ := hkids c hc
        exact ⟨c, m, hm, hsame c hc m hm ▸ hne, hl.symm⟩
      · exact ⟨y, m', hy, hne, rfl⟩
  · obtain ⟨e₀, he₀⟩ := Option.ne_none_iff_exists'.mp hp
    -- above the node nothing changes; at its level nobody else has the key
    have habove : ∀ y m', t'.view y = some m' → n.level ≤ m'.level → y ≠ p → t.view y = some m' := by
      intro y m' hm' hle hyp
      rcases P.origin hm' with ⟨rfl, -⟩ | ⟨c, hc, -, rfl⟩ | ⟨-, -, hy⟩
      · exact absurd rfl hyp
      · obtain ⟨m, hm, hl, hl'⟩ := hkids c hc
        omega
      · exact hy
    cases r with
    | none =>
      rw [h p n P.here] at he₀
      cases he₀
    | some e =>
      obtain ⟨x, m, hm, he, htop⟩ := h
      rcases Nat.lt_trichotomy m.level n.level with hlt | heq | hlt
      · rw [htop p n P.here hlt] at he₀
        cases he₀
      · -- the node itself answered, and its version goes to a child
        by_cases hxp : x = p
        · subst hxp
          obtain rfl : n = m := Option.some.inj (P.here.symm.trans hm)
          obtain ⟨c, hc, hown⟩ := owns_targetChild t.view.minKey (P.kids_ne S) k
          have hcn := List.mem_of_getElem? hc
          obtain ⟨m, hm, hl, hl'⟩ := hkids c hcn
          refine ⟨_, f c, P.at_child c hcn, ?_, fun y m' hm' hlt => ?_⟩
          · rw [P.get_child S V hcn hm, if_pos hc, he, Option.some_or]
          · by_cases hyp : y = x
            · subst hyp
              rw [P.at_p] at hm'
              cases hm'
              exact hempty
            · have hy := habove y m' hm' (by omega) hyp
              rcases Nat.lt_or_eq_of_le (show n.level ≤ m'.level by omega) with h' | h'
              · exact htop y m' hy h'
              · exact O.get_none S P.here hy h' hyp he
        · rw [O.get_none S P.here hm heq.symm hxp he₀] at he
          cases he
      · have hxp : x ≠ p := by
          rintro rfl
          obtain rfl : n = m := Option.some.inj (P.here.symm.trans hm)
          omega
        have hxn : x ∉ n.childIds := fun hxn => by
          obtain ⟨m', hm', hl, -⟩ := hkids x hxn
          obtain rfl : m = m' := Option.some.inj (hm.symm.trans hm')
          omega
        refine ⟨x, m, by rw [P.calm S hxp hxn (S.below hm), hm], he, fun y m' hm' hlt' => ?_⟩
        by_cases hyp : y = p
        · subst hyp
          rw [P.at_p] at hm'
          cases hm'
          exact hempty
        · exact htop y m' (habove y m' hm' (by omega) hyp) hlt'

end Pushes

/-- **A step keeps the answers** if the call of `split_leaf` it makes is fair. -/
theorem Step.answers {cs : List SplitCall} (h : Step t cs t') (S : t.Sound) (O : t.Ordered)
    (V : t.Layered) (hF : ∀ c ∈ cs, c.Fair) {r : Option Entry} (hr : t.Answers k r) :
    t'.Answers k r := by
  cases h with
  | skip => exact hr
  | revise h => exact h.answers S hr
  | push h => exact h.answers S O V hr
  | splitLeaf h hl hL hc => exact h.answers S (hc.fair S h hl hL (hF _ (by simp))) hr
  | splitNode h hl => exact h.answers S ⟨fun h0 => absurd h0 hl, fun h0 => absurd h0 hl⟩ hr

/-- **Steps do not change what a lookup answers.** -/
theorem Steps.answer {cs : List SplitCall} (h : Steps t cs t') (S : t.Sound) (O : t.Ordered)
    (V : t.Layered) (hF : ∀ c ∈ cs, c.Fair) (k : Bytes) : t'.answer k = t.answer k := by
  refine Tree.Answers.eq (h.ordered S O hF) (h.sound S) ?_
  induction h with
  | refl => exact O.answers S k
  | tail hss hs ih =>
    have hF' := fun c hc => hF c (List.mem_append_right _ hc)
    exact hs.answers (hss.sound S) (hss.ordered S O hF') (hss.layered S O V hF')
      (fun c hc => hF c (List.mem_append_left _ hc)) (ih hF')

end GravTree
