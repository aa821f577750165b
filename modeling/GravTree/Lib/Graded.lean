import Mathlib.Data.List.Nodup
import Mathlib.Logic.Relation

/-!
# Graded trees

Nodes with a level and a list of children. In a graded tree a child that is there lies
one level below its parent, and every node is reached from the root. A child may be
missing: then whoever looks for it does not find it.

A tree changes by swaps: some children of one node give way to new nodes of their level
that share out their children. A swap may take nodes from under a parent that is not told,
but it leaves every node within reach of the root.
-/

namespace Graded

variable {ι : Type*}

/-- What a node says of its place in the tree. -/
structure Knot (ι : Type*) where
  level : ℕ
  kids : List ι

abbrev Graph (ι : Type*) := ι → Option (Knot ι)

def Edge (G : Graph ι) (x c : ι) : Prop := ∃ n, G x = some n ∧ c ∈ n.kids

abbrev Reach (G : Graph ι) : ι → ι → Prop := Relation.ReflTransGen (Edge G)

/-- The levels fit, also of what is not within reach. -/
structure IsGraded (G : Graph ι) (r : ι) : Prop where
  root : ∃ n, G r = some n
  inner : ∀ {x n c}, G x = some n → c ∈ n.kids → n.level ≠ 0
  level : ∀ {x n c m}, G x = some n → c ∈ n.kids → G c = some m → m.level + 1 = n.level
  nodup : ∀ {x n}, G x = some n → n.kids.Nodup

structure IsTree (G : Graph ι) (r : ι) : Prop extends IsGraded G r where
  reach : ∀ {x n}, G x = some n → Reach G r x

/-- No node is a child of two. -/
def Once (G : Graph ι) : Prop :=
  ∀ {x y c n m}, G x = some n → G y = some m → c ∈ n.kids → c ∈ m.kids → x = y

variable {G H : Graph ι} {r p : ι}

namespace IsTree

/-- Whatever lies on the way to a node lies above it. -/
theorem above (T : IsTree G r) {x y : ι} {n : Knot ι} (h : Reach G y x) (hx : G x = some n) :
    ∃ m, G y = some m ∧ (y = x ∨ n.level < m.level) := by
  induction h using Relation.ReflTransGen.head_induction_on with
  | refl => exact ⟨n, hx, .inl rfl⟩
  | head hyc _ ih =>
    obtain ⟨m, hm, hc⟩ := hyc
    obtain ⟨k, hk, hlt⟩ := ih
    have hlev := T.level hm hc hk
    refine ⟨m, hm, .inr ?_⟩
    rcases hlt with rfl | hlt
    · obtain rfl := Option.some.inj (hx.symm.trans hk)
      omega
    · omega

theorem level_le (T : IsTree G r) {x : ι} {n m : Knot ι} (hr : G r = some m)
    (hx : G x = some n) : n.level ≤ m.level := by
  obtain ⟨k, hk, hlt⟩ := T.above (T.reach hx) hx
  obtain rfl := Option.some.inj (hr.symm.trans hk)
  rcases hlt with rfl | hlt
  · obtain rfl := Option.some.inj (hr.symm.trans hx)
    exact Nat.le_refl _
  · exact Nat.le_of_lt hlt

/-- The root is nobody's child. -/
theorem root_ne (T : IsTree G r) {x c : ι} {n : Knot ι} (hx : G x = some n) (hc : c ∈ n.kids) :
    c ≠ r := by
  rintro rfl
  obtain ⟨m, hm⟩ := T.root
  have := T.level hx hc hm
  have := T.level_le hm hx
  omega

theorem kid_ne (T : IsTree G r) {x c : ι} {n : Knot ι} (hx : G x = some n) (hc : c ∈ n.kids) :
    c ≠ x := by
  rintro rfl
  have := T.level hx hc hx
  omega

end IsTree

/-! ## What is within reach -/

section Trim

open Classical in
/-- The part of a graph that is within reach. -/
noncomputable def trim (G : Graph ι) (r : ι) : Graph ι := fun x => if Reach G r x then G x else none

theorem trim_some {x : ι} {n : Knot ι} : trim G r x = some n ↔ Reach G r x ∧ G x = some n := by
  unfold trim
  split <;> simp_all

theorem IsGraded.trim (T : IsGraded G r) : IsTree (trim G r) r where
  root := by
    obtain ⟨n, hn⟩ := T.root
    exact ⟨n, trim_some.mpr ⟨.refl, hn⟩⟩
  inner hx := T.inner (trim_some.mp hx).2
  level hx hc hm := T.level (trim_some.mp hx).2 hc (trim_some.mp hm).2
  nodup hx := T.nodup (trim_some.mp hx).2
  reach := by
    intro x n hx
    have hreach := (trim_some.mp hx).1
    clear hx
    induction hreach with
    | refl => exact .refl
    | tail hy hyc ih =>
      obtain ⟨m, hm, hc⟩ := hyc
      exact ih.tail ⟨m, trim_some.mpr ⟨hy, hm⟩, hc⟩

theorem Once.trim (U : Once G) : Once (trim G r) :=
  fun hx hy => U (trim_some.mp hx).2 (trim_some.mp hy).2

end Trim

/-! ## Clear ways -/

/-- There is a way down from `r` to `x` on which every node above `x` is in `D`. -/
abbrev Clear (G : Graph ι) (D : ι → Prop) : ι → ι → Prop :=
  Relation.ReflTransGen fun y c => D y ∧ Edge G y c

section Clear

variable {D D' : ι → Prop} {x y : ι}

/-- The nodes above `x` on a way to it are on higher levels. -/
theorem Clear.above (T : IsTree G r) {n : Knot ι} (h : Clear G D y x) (hx : G x = some n) :
    Clear G (fun z => D z ∧ ∃ m, G z = some m ∧ n.level < m.level) y x := by
  induction h using Relation.ReflTransGen.head_induction_on with
  | refl => exact .refl
  | @head y z hyz hz ih =>
    obtain ⟨hD, m, hm, hc⟩ := hyz
    have hreach : Reach G z x := Relation.ReflTransGen.mono (fun _ _ h => h.2) _ _ hz
    obtain ⟨k, hk, hlt⟩ := T.above hreach hx
    have hl := T.level hm hc hk
    refine .head ⟨⟨hD, m, hm, ?_⟩, m, hm, hc⟩ ih
    rcases hlt with rfl | hlt
    · obtain rfl := Option.some.inj (hx.symm.trans hk)
      omega
    · omega

/-- A clear way to a node comes through its parent. -/
theorem Clear.parent (T : IsTree G r) (U : Once G) (h : Clear G D r x) (hy : Edge G y x) :
    D y ∧ Clear G D r y := by
  obtain ⟨n, hn, hx⟩ := hy
  cases h with
  | refl => exact absurd rfl (T.root_ne hn hx)
  | @tail z _ hz hzx =>
    obtain ⟨hD, m, hm, hx'⟩ := hzx
    obtain rfl := U hn hm hx hx'
    exact ⟨hD, hz⟩

end Clear

/-! ## Paths -/

/-- The list is a path from the first node down to the second. -/
inductive Leads (G : Graph ι) (t : ι) : ι → List ι → Prop
  | here : Leads G t t [t]
  | down {x c path} (hx : Edge G x c) (h : Leads G t c path) : Leads G t x (x :: path)

namespace Leads

variable {t x : ι} {path : List ι}

theorem ne_nil (L : Leads G t x path) : path ≠ [] := by cases L <;> simp

/-- A path of one node stays where it is; on a longer one the last node but one is a parent. -/
theorem last_but_one (L : Leads G t x path) (d : ι) :
    path.length = 1 ∧ x = t ∨ path.length ≠ 1 ∧ Edge G (path.getD (path.length - 2) d) t := by
  induction L with
  | here => exact .inl ⟨rfl, rfl⟩
  | @down x c path hx h ih =>
    refine .inr ⟨by simpa using h.ne_nil, ?_⟩
    obtain ⟨hlen, rfl⟩ | ⟨hlen, hedge⟩ := ih
    · simpa [hlen] using hx
    · have hpos := List.length_pos_iff.mpr h.ne_nil
      obtain ⟨k, hk⟩ : ∃ k, path.length = k + 2 := ⟨path.length - 2, by omega⟩
      simpa [hk] using hedge

end Leads

/-! ## Swaps -/

/-- Below `p` the nodes `X` give way to the new nodes `S`. -/
structure Swap (G H : Graph ι) (p : ι) (X : ι → Prop) (S : ι → ι → Prop) : Prop where
  parent : ∃ n ks, G p = some n ∧ H p = some ⟨n.level, ks⟩ ∧ ks.Nodup ∧
    (∀ c ∈ n.kids, ¬ X c → c ∈ ks) ∧ (∀ c z, X c → S c z → z ∈ ks) ∧
    (∀ z ∈ ks, z ∈ n.kids ∨ ∃ c, X c ∧ S c z) ∧ ∀ c, X c → c ∈ n.kids
  moved : ∀ {x}, X x → ∃ n, G x = some n ∧ H x = none ∧
    (∀ c ∈ n.kids, ∃ z m, S x z ∧ H z = some m ∧ c ∈ m.kids) ∧
    ∀ z, S x z → ∃ m, H z = some m ∧ m.level = n.level ∧ m.kids.Sublist n.kids
  fresh : ∀ {x z}, X x → S x z → G z = none ∧ ∀ y n, G y = some n → z ∉ n.kids
  kept : ∀ {x}, ¬ X x → x ≠ p → G x ≠ none → H x = G x
  apart : Once G → ∀ {x y z z' m m' c}, X x → X y → S x z → S y z' → H z = some m →
    H z' = some m' → c ∈ m.kids → c ∈ m'.kids → z = z'
  origin : ∀ {z m}, H z = some m → (G z ≠ none ∧ ¬ X z) ∨ ∃ x, X x ∧ S x z

namespace Swap

variable {X : ι → Prop} {S : ι → ι → Prop}

theorem self (W : Swap G H p X S) (T : IsTree G r) : ¬ X p := by
  intro h
  obtain ⟨n, ks, hn, -, -, -, -, -, hX⟩ := W.parent
  exact T.kid_ne hn (hX p h) rfl

theorem root (W : Swap G H p X S) (T : IsTree G r) : ¬ X r := by
  intro h
  obtain ⟨n, ks, hn, -, -, -, -, -, hX⟩ := W.parent
  exact T.root_ne hn (hX r h) rfl

/-- A node that was there keeps its level and its children that stay. -/
theorem old (W : Swap G H p X S) {x : ι} {n m : Knot ι} (hx : G x = some n) (hm : H x = some m) :
    m.level = n.level ∧ ∀ c ∈ n.kids, H c ≠ none → c ∈ m.kids := by
  have hX : ¬ X x := fun h => by
    obtain ⟨-, -, hnone, -⟩ := W.moved h
    exact nomatch hm.symm.trans hnone
  by_cases hxp : x = p
  · obtain ⟨n', ks, hn', hks, -, hin, -⟩ := W.parent
    rw [← hxp] at hn' hks
    obtain rfl := Option.some.inj (hx.symm.trans hn')
    obtain rfl := Option.some.inj (hm.symm.trans hks)
    refine ⟨rfl, fun c hc hne => hin c hc fun hXc => hne ?_⟩
    obtain ⟨-, -, hnone, -⟩ := W.moved hXc
    exact hnone
  · rw [W.kept hX hxp (by simp [hx]), hx] at hm
    obtain rfl := Option.some.inj hm
    exact ⟨rfl, fun c hc _ => hc⟩

/-- What is there now is the parent, an old node, or a new node with a share of the children
of an old one. -/
theorem cases (W : Swap G H p X S) {x : ι} {m : Knot ι} (hx : H x = some m) :
    x = p ∨ (¬ X x ∧ x ≠ p ∧ G x = some m) ∨
      ∃ x₀ n₀, X x₀ ∧ G x₀ = some n₀ ∧ S x₀ x ∧ m.level = n₀.level ∧ m.kids.Sublist n₀.kids := by
  rcases W.origin hx with ⟨hne, hX⟩ | ⟨x₀, hX, hS⟩
  · by_cases hxp : x = p
    · exact .inl hxp
    · exact .inr (.inl ⟨hX, hxp, (W.kept hX hxp hne).symm.trans hx⟩)
  · obtain ⟨n₀, hn₀, -, -, hnew⟩ := W.moved hX
    obtain ⟨m', hm', hl, hsub⟩ := hnew x hS
    obtain rfl := Option.some.inj (hx.symm.trans hm')
    exact .inr (.inr ⟨x₀, n₀, hX, hn₀, hS, hl, hsub⟩)

/-- A child of an old node has its old level. -/
theorem kid_level (W : Swap G H p X S) {x c : ι} {n m : Knot ι} (hx : G x = some n)
    (hc : c ∈ n.kids) (hm : H c = some m) : ∃ k, G c = some k ∧ k.level = m.level := by
  rcases W.origin hm with ⟨hne, -⟩ | ⟨x₀, hX, hS⟩
  · obtain ⟨k, hk⟩ := Option.ne_none_iff_exists'.mp hne
    exact ⟨k, hk, (W.old hk hm).1.symm⟩
  · exact absurd hc ((W.fresh hX hS).2 x n hx)

/-- The parent is still within reach: nothing above it moves. -/
theorem reach_parent (W : Swap G H p X S) (T : IsTree G r) : Reach H r p := by
  obtain ⟨n, ks, hn, -, -, -, -, -, hkid⟩ := W.parent
  have hdown : ∀ {y}, Reach G y p → Reach H y p := by
    intro y hy
    induction hy using Relation.ReflTransGen.head_induction_on with
    | refl => exact .refl
    | @head y c hyc hc ih =>
      obtain ⟨m, hm, hcm⟩ := hyc
      obtain ⟨m', hm', hlt⟩ := T.above (.head ⟨m, hm, hcm⟩ hc) hn
      obtain rfl := Option.some.inj (hm.symm.trans hm')
      rcases hlt with rfl | hlt
      · exact .refl
      have hyp : y ≠ p := fun h => by
        obtain rfl := Option.some.inj (hm.symm.trans (h ▸ hn))
        exact Nat.lt_irrefl _ hlt
      have hX : ¬ X y := fun h => by
        have := T.level hn (hkid y h) hm
        omega
      exact .head ⟨m, by rw [W.kept hX hyp (by simp [hm]), hm], hcm⟩ ih
  exact hdown (T.reach hn)

/-- Every node that was within reach is so still, or its successors are. -/
theorem reach (W : Swap G H p X S) (T : IsTree G r) {x : ι} (h : Reach G r x) :
    (¬ X x → Reach H r x) ∧ (X x → ∀ z, S x z → Reach H r z) := by
  obtain ⟨n, ks, hn, hks, -, hin, hnew, -, hkid⟩ := W.parent
  have hp := W.reach_parent T
  have hsucc : ∀ {c}, X c → ∀ z, S c z → Reach H r z := fun hc z hz =>
    hp.tail ⟨_, hks, hnew _ z hc hz⟩
  induction h with
  | refl => exact ⟨fun _ => .refl, fun h => absurd h (W.root T)⟩
  | @tail y c _ hyc ih =>
    refine ⟨fun hc => ?_, hsucc⟩
    obtain ⟨m, hm, hcm⟩ := hyc
    by_cases hyp : y = p
    · obtain rfl := Option.some.inj (hn.symm.trans (hyp ▸ hm))
      exact hp.tail ⟨_, hks, hin c hcm hc⟩
    by_cases hX : X y
    · obtain ⟨m', hm', -, hshare, -⟩ := W.moved hX
      obtain rfl := Option.some.inj (hm.symm.trans hm')
      obtain ⟨z, k, hS, hk, hck⟩ := hshare c hcm
      exact (hsucc hX z hS).tail ⟨k, hk, hck⟩
    · exact (ih.1 hX).tail ⟨m, by rw [W.kept hX hyp (by simp [hm]), hm], hcm⟩

/-- **A swap keeps the tree.** -/
theorem isTree (W : Swap G H p X S) (T : IsTree G r) : IsTree H r := by
  obtain ⟨n, ks, hn, hks, hnd, -, -, horig, hkid⟩ := W.parent
  -- below the parent there are old children and successors of children
  have hpar : ∀ {c m}, c ∈ ks → H c = some m → n.level ≠ 0 ∧ m.level + 1 = n.level := by
    intro c m hc hm
    rcases horig c hc with hc | ⟨x, hX, hS⟩
    · obtain ⟨k, hk, hl⟩ := W.kid_level hn hc hm
      exact ⟨T.inner hn hc, hl ▸ T.level hn hc hk⟩
    · obtain ⟨k, hk, -, -, hnew⟩ := W.moved hX
      obtain ⟨m', hm', hl, -⟩ := hnew c hS
      obtain rfl := Option.some.inj (hm.symm.trans hm')
      exact ⟨T.inner hn (hkid x hX), hl ▸ T.level hn (hkid x hX) hk⟩
  have hold : ∀ {x k}, G x = some k → ∀ {c m}, c ∈ k.kids → H c = some m →
      m.level + 1 = k.level := by
    intro x k hx c m hc hm
    obtain ⟨k', hk', hl⟩ := W.kid_level hx hc hm
    exact hl ▸ T.level hx hc hk'
  refine ⟨⟨?_, fun {x m c} hx hc => ?_, fun {x m c k} hx hc hk => ?_, fun {x m} hx => ?_⟩,
    fun {x m} hx => ?_⟩
  · obtain ⟨m, hm⟩ := T.root
    by_cases hrp : r = p
    · exact ⟨_, hrp ▸ hks⟩
    · exact ⟨m, by rw [W.kept (W.root T) hrp (by simp [hm]), hm]⟩
  · rcases W.cases hx with rfl | ⟨-, -, hg⟩ | ⟨x₀, n₀, -, hn₀, -, hl, hsub⟩
    · obtain rfl := Option.some.inj (hx.symm.trans hks)
      show n.level ≠ 0
      rcases horig c hc with hc | ⟨x, hX, -⟩
      · exact T.inner hn hc
      · exact T.inner hn (hkid x hX)
    · exact T.inner hg hc
    · exact hl ▸ T.inner hn₀ (hsub.subset hc)
  · rcases W.cases hx with rfl | ⟨-, -, hg⟩ | ⟨x₀, n₀, -, hn₀, -, hl, hsub⟩
    · obtain rfl := Option.some.inj (hx.symm.trans hks)
      exact (hpar hc hk).2
    · exact hold hg hc hk
    · exact hl ▸ hold hn₀ (hsub.subset hc) hk
  · rcases W.cases hx with rfl | ⟨-, -, hg⟩ | ⟨x₀, n₀, -, hn₀, -, -, hsub⟩
    · obtain rfl := Option.some.inj (hx.symm.trans hks)
      exact hnd
    · exact T.nodup hg
    · exact hsub.nodup (T.nodup hn₀)
  · rcases W.origin hx with ⟨hne, hX⟩ | ⟨x₀, hX, hS⟩
    · obtain ⟨k, hk⟩ := Option.ne_none_iff_exists'.mp hne
      exact (W.reach T (T.reach hk)).1 hX
    · obtain ⟨n₀, hn₀, -⟩ := W.moved hX
      exact (W.reach T (T.reach hn₀)).2 hX x hS

/-- A child of a node is new, and the node is the parent, or it was a child of the node or
of the node in whose place the node is. -/
theorem kid_cases (W : Swap G H p X S) {x c : ι} {m : Knot ι} (hx : H x = some m) (hc : c ∈ m.kids) :
    x = p ∧ (∃ y, X y ∧ S y c) ∨
      ∃ y k, G y = some k ∧ c ∈ k.kids ∧ (y = x ∧ ¬ X x ∨ X y ∧ S y x) := by
  obtain ⟨n, ks, hn, hks, -, -, -, horig, -⟩ := W.parent
  rcases W.origin hx with ⟨hne, hX⟩ | ⟨x₀, hX, hS⟩
  · by_cases hxp : x = p
    · rw [hxp] at hx
      obtain rfl := Option.some.inj (hx.symm.trans hks)
      rcases horig c hc with hc | hnew
      · exact .inr ⟨p, n, hn, hc, .inl ⟨hxp.symm, hX⟩⟩
      · exact .inl ⟨hxp, hnew⟩
    · exact .inr ⟨x, m, (W.kept hX hxp hne).symm.trans hx, hc, .inl ⟨rfl, hX⟩⟩
  · obtain ⟨n₀, hn₀, -, -, hnew⟩ := W.moved hX
    obtain ⟨m', hm', -, hsub⟩ := hnew x hS
    obtain rfl := Option.some.inj (hx.symm.trans hm')
    exact .inr ⟨x₀, n₀, hn₀, hsub.subset hc, .inr ⟨hX, hS⟩⟩

/-- **A swap gives no node a second parent.** -/
theorem once (W : Swap G H p X S) (U : Once G) : Once H := by
  intro x y c n m hx hy hcn hcm
  rcases W.kid_cases hx hcn with ⟨hxp, x₁, hX, hS⟩ | ⟨x₁, k, hk, hck, hx₁⟩
  · rcases W.kid_cases hy hcm with ⟨hyp, -⟩ | ⟨y₁, k, hk, hck, -⟩
    · exact hxp.trans hyp.symm
    · exact absurd hck ((W.fresh hX hS).2 y₁ k hk)
  · rcases W.kid_cases hy hcm with ⟨-, y₁, hX, hS⟩ | ⟨y₁, k', hk', hck', hy₁⟩
    · exact absurd hck ((W.fresh hX hS).2 x₁ k hk)
    · obtain rfl := U hk hk' hck hck'
      rcases hx₁ with ⟨rfl, hX⟩ | ⟨hX, hS⟩
      · rcases hy₁ with ⟨rfl, -⟩ | ⟨hX', -⟩
        · rfl
        · exact absurd hX' hX
      · rcases hy₁ with ⟨rfl, hX'⟩ | ⟨-, hS'⟩
        · exact absurd hX hX'
        · exact W.apart U hX hX hS hS' hx hy hcn hcm

/-- **A clear way stays clear** if the nodes on it that stay do, and the new ones in the place
of the others. -/
theorem clear (W : Swap G H p X S) (T : IsTree G r) (U : Once G) {D D' : ι → Prop}
    (hkeep : ∀ y, D y → ¬ X y → D' y) (hnew : ∀ y z, X y → S y z → D y → D' z) {x : ι}
    (h : Clear G D r x) :
    (¬ X x → Clear H D' r x) ∧ (X x → ∀ z, S x z → Clear H D' r z) := by
  obtain ⟨n, ks, hn, hks, -, hin, hsucc, -, hkid⟩ := W.parent
  induction h with
  | refl => exact ⟨fun _ => .refl, fun h => absurd h (W.root T)⟩
  | @tail y c _ hyc ih =>
    obtain ⟨hD, m, hm, hcm⟩ := hyc
    by_cases hyp : y = p
    · have hX := W.self T
      rw [hyp] at hm hD ih
      obtain rfl := Option.some.inj (hn.symm.trans hm)
      have hp := ih.1 hX
      exact ⟨fun hc => hp.tail ⟨hkeep p hD hX, _, hks, hin c hcm hc⟩,
        fun hc z hz => hp.tail ⟨hkeep p hD hX, _, hks, hsucc c z hc hz⟩⟩
    refine ⟨fun hc => ?_, fun hc => absurd (U hm hn hcm (hkid c hc)) hyp⟩
    by_cases hX : X y
    · obtain ⟨m', hm', -, hshare, -⟩ := W.moved hX
      obtain rfl := Option.some.inj (hm.symm.trans hm')
      obtain ⟨z, k, hS, hk, hck⟩ := hshare c hcm
      exact (ih.2 hX z hS).tail ⟨hnew y z hX hS hD, k, hk, hck⟩
    · exact (ih.1 hX).tail ⟨hkeep y hD hX, m, by rw [W.kept hX hyp (by simp [hm]), hm], hcm⟩

end Swap

/-- A new root over the old one. -/
theorem IsTree.over [DecidableEq ι] (T : IsTree G r) {n : Knot ι} {r' : ι} (hr : G r = some n)
    (hfresh : G r' = none) (hkid : ∀ x k, G x = some k → r' ∉ k.kids) :
    IsTree (Function.update G r' (some ⟨n.level + 1, [r]⟩)) r' := by
  have hrr : r ≠ r' := fun h => by simp [h, hfresh] at hr
  have hcase : ∀ {x m}, Function.update G r' (some ⟨n.level + 1, [r]⟩) x = some m →
      x = r' ∧ m = ⟨n.level + 1, [r]⟩ ∨ x ≠ r' ∧ G x = some m := by
    intro x m hx
    rw [Function.update_apply] at hx
    split at hx
    · rename_i h
      exact .inl ⟨h, (Option.some.inj hx).symm⟩
    · rename_i h
      exact .inr ⟨h, hx⟩
  refine ⟨⟨⟨_, Function.update_self ..⟩, fun {x m c} hx hc => ?_, fun {x m c k} hx hc hk => ?_,
    fun {x m} hx => ?_⟩, fun {x m} hx => ?_⟩
  · rcases hcase hx with ⟨-, rfl⟩ | ⟨-, hx⟩
    · exact Nat.succ_ne_zero _
    · exact T.inner hx hc
  · rcases hcase hk with ⟨rfl, -⟩ | ⟨-, hk⟩
    · rcases hcase hx with ⟨-, rfl⟩ | ⟨-, hx⟩
      · exact absurd (List.mem_singleton.mp hc) hrr.symm
      · exact absurd hc (hkid x m hx)
    · rcases hcase hx with ⟨-, rfl⟩ | ⟨-, hx⟩
      · rw [List.mem_singleton.mp hc, hr] at hk
        obtain rfl := Option.some.inj hk
        rfl
      · exact T.level hx hc hk
  · rcases hcase hx with ⟨-, rfl⟩ | ⟨-, hx⟩
    · exact List.nodup_singleton r
    · exact T.nodup hx
  · have hroot : Reach (Function.update G r' (some ⟨n.level + 1, [r]⟩)) r' r :=
      .single ⟨_, Function.update_self .., List.mem_singleton_self r⟩
    rcases hcase hx with ⟨rfl, -⟩ | ⟨-, hx⟩
    · exact .refl
    · refine hroot.trans (Relation.ReflTransGen.mono (fun y c hyc => ?_) _ _ (T.reach hx))
      obtain ⟨k, hk, hc⟩ := hyc
      have hyr : y ≠ r' := fun h => by simp [h, hfresh] at hk
      exact ⟨k, by rw [Function.update_of_ne hyr, hk], hc⟩

section Over

variable [DecidableEq ι] {n : Knot ι} {r' : ι}

theorem IsTree.over_once (T : IsTree G r) (U : Once G) :
    Once (Function.update G r' (some ⟨n.level + 1, [r]⟩)) := by
  intro x y c k m hx hy hcx hcy
  rw [Function.update_apply] at hx hy
  split at hx
  · rename_i hxr
    split at hy
    · rename_i hyr
      exact hxr.trans hyr.symm
    · obtain rfl := Option.some.inj hx
      exact absurd (List.mem_singleton.mp hcx) (T.root_ne hy hcy)
  · split at hy
    · obtain rfl := Option.some.inj hy
      exact absurd (List.mem_singleton.mp hcy) (T.root_ne hx hcx)
    · exact U hx hy hcx hcy

theorem Clear.over {D D' : ι → Prop} (hfresh : G r' = none) (hD : ∀ y, D y → D' y) (hr : D' r')
    {x : ι} (h : Clear G D r x) : Clear (Function.update G r' (some ⟨n.level + 1, [r]⟩)) D' r' x := by
  refine .head ⟨hr, _, Function.update_self .., List.mem_singleton_self r⟩ ?_
  refine Relation.ReflTransGen.mono (fun y c hyc => ?_) _ _ h
  obtain ⟨hy, k, hk, hc⟩ := hyc
  have hyr : y ≠ r' := fun h => by simp [h, hfresh] at hk
  exact ⟨hD y hy, k, by rw [Function.update_of_ne hyr, hk], hc⟩

end Over

end Graded
