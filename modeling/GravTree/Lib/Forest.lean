import Mathlib.Algebra.Order.Ring.Nat
import Mathlib.Data.List.Nodup
import Mathlib.Data.List.Induction
import Mathlib.Data.List.Pairwise
import Mathlib.Tactic.Common

/-!
# Levels of a rooted forest

A tree given only by a function from nodes to lists of children. Level `d` is the
list of nodes `d` steps below the root, left to right; it is what an operation
that replaces nodes by nodes acts on. Replacing every node `x` by a list `σ x`
replaces it in every level, as long as the children of the replacements are the
replacements of the children.
-/

namespace Forest

variable {ι : Type*} {kids kids' : ι → List ι} {root root' : ι}

/-- The nodes `d` steps below the root, left to right. -/
def level (kids : ι → List ι) (root : ι) : Nat → List ι
  | 0 => [root]
  | d + 1 => (level kids root d).flatMap kids

@[simp] theorem level_zero : level kids root 0 = [root] := rfl

theorem level_succ (d : Nat) : level kids root (d + 1) = (level kids root d).flatMap kids := rfl

theorem mem_level_succ {d : Nat} {x : ι} :
    x ∈ level kids root (d + 1) ↔ ∃ y ∈ level kids root d, x ∈ kids y := by
  rw [level_succ, List.mem_flatMap]

/-- A level of a tree is a level of the subtrees. -/
theorem mem_level_succ_iff_kids {d : Nat} {x : ι} :
    x ∈ level kids root (d + 1) ↔ ∃ c ∈ kids root, x ∈ level kids c d := by
  induction d generalizing x with
  | zero => simp [level_succ]
  | succ d ih =>
    rw [mem_level_succ]
    simp only [ih, mem_level_succ]
    constructor
    · rintro ⟨y, ⟨c, hc, hy⟩, hx⟩
      exact ⟨c, hc, y, hy, hx⟩
    · rintro ⟨c, hc, y, hy, hx⟩
      exact ⟨y, ⟨c, hc, hy⟩, hx⟩

/-- **Substitution.** -/
theorem level_flatMap {σ : ι → List ι} (hroot : σ root = [root'])
    (hkids : ∀ d, ∀ x ∈ level kids root d, (σ x).flatMap kids' = (kids x).flatMap σ) (d : Nat) :
    level kids' root' d = (level kids root d).flatMap σ := by
  induction d with
  | zero => simp [hroot]
  | succ d ih =>
    rw [level_succ, level_succ, ih, List.flatMap_assoc, List.flatMap_assoc]
    exact List.flatMap_congr fun x hx => hkids d x hx

/-- Substitution below nodes that stay. -/
theorem level_flatMap_kids {σ : ι → List ι} {n : Nat}
    (hkids : ∀ x, kids' x = (kids x).flatMap σ) (hroot : σ root = [root])
    (hstay : ∀ d < n, ∀ x ∈ level kids root d, σ x = [x]) :
    ∀ d ≤ n, level kids' root d = (level kids root d).flatMap σ := by
  intro d
  induction d with
  | zero =>
    intro _
    simp [hroot]
  | succ d ih =>
    intro hd
    have hlevel : level kids' root d = level kids root d := by
      rw [ih (by omega)]
      refine (List.flatMap_congr fun x hx => ?_).trans (List.flatMap_pure_eq_map id _ |>.trans ?_)
      · exact hstay d (by omega) x hx
      · exact List.map_id _
    rw [level_succ, level_succ, hlevel, List.flatMap_assoc]
    exact List.flatMap_congr fun x _ => hkids x

/-- Substitution under a new root. -/
theorem level_grow {σ : ι → List ι} (hroot : kids' root' = σ root)
    (hkids : ∀ d, ∀ x ∈ level kids root d, (σ x).flatMap kids' = (kids x).flatMap σ) (d : Nat) :
    level kids' root' (d + 1) = (level kids root d).flatMap σ := by
  induction d with
  | zero => simp [level_succ, hroot]
  | succ d ih =>
    rw [level_succ, ih, level_succ, List.flatMap_assoc, List.flatMap_assoc]
    exact List.flatMap_congr fun x hx => hkids d x hx

theorem length_mul_le_flatMap {m : Nat} {f : ι → List ι} : ∀ {l : List ι},
    (∀ x ∈ l, m ≤ (f x).length) → l.length * m ≤ (l.flatMap f).length
  | [], _ => by simp
  | x :: l, h => by
    obtain ⟨hx, hl⟩ := List.forall_mem_cons.mp h
    have ih := length_mul_le_flatMap hl
    rw [List.flatMap_cons, List.length_append, List.length_cons, Nat.succ_mul]
    omega

/-- Where every node has at least `m` children, the levels grow by that factor. -/
theorem pow_le_length_level {m h : Nat}
    (hkids : ∀ d < h, ∀ x ∈ level kids root d, m ≤ (kids x).length) :
    ∀ d ≤ h, m ^ d ≤ (level kids root d).length := by
  intro d
  induction d with
  | zero => simp
  | succ d ih =>
    intro hd
    rw [level_succ, pow_succ]
    exact (Nat.mul_le_mul_right m (ih (by omega))).trans (length_mul_le_flatMap (hkids d hd))

/-! ## Paths -/

/-- Follow child positions down from a node. -/
def descend (kids : ι → List ι) : ι → List Nat → Option ι
  | x, [] => some x
  | x, i :: is => (kids x)[i]?.bind fun y => descend kids y is

theorem descend_append (x : ι) (p q : List Nat) :
    descend kids x (p ++ q) = (descend kids x p).bind fun y => descend kids y q := by
  induction p generalizing x with
  | nil => rfl
  | cons i is ih =>
    simp only [List.cons_append, descend, Option.bind_assoc]
    exact congrArg _ (funext fun y => ih y)

theorem descend_mem_level {x : ι} : ∀ {p : List Nat}, descend kids root p = some x →
    x ∈ level kids root p.length := by
  intro p
  induction p using List.reverseRecOn generalizing x with
  | nil =>
    intro h
    simp only [descend, Option.some.injEq] at h
    simp [h]
  | append_singleton p i ih =>
    intro h
    rw [descend_append] at h
    obtain ⟨y, hy, hx⟩ := Option.bind_eq_some_iff.mp h
    rw [List.length_append, List.length_singleton, mem_level_succ]
    refine ⟨y, ih hy, ?_⟩
    simp only [descend, Option.bind_eq_some_iff] at hx
    obtain ⟨z, hz, hzx⟩ := hx
    cases hzx
    exact List.mem_of_getElem? hz

theorem exists_descend {d : Nat} {x : ι} (h : x ∈ level kids root d) :
    ∃ p, p.length = d ∧ descend kids root p = some x := by
  induction d generalizing x with
  | zero => exact ⟨[], rfl, by simpa [descend, eq_comm] using h⟩
  | succ d ih =>
    obtain ⟨y, hy, hx⟩ := mem_level_succ.mp h
    obtain ⟨p, hp, hpy⟩ := ih hy
    obtain ⟨i, hi⟩ := List.mem_iff_getElem?.mp hx
    refine ⟨p ++ [i], by simp [hp], ?_⟩
    rw [descend_append, hpy]
    simp [descend, hi]

/-- A node that occurs once in its level is reached by one path of that length. -/
theorem descend_injective (hnd : ∀ d, (level kids root d).Nodup) {x : ι} :
    ∀ {p q : List Nat}, p.length = q.length → descend kids root p = some x →
      descend kids root q = some x → p = q := by
  intro p
  induction p using List.reverseRecOn generalizing x with
  | nil =>
    intro q hlen _ _
    exact (List.length_eq_zero_iff.mp hlen.symm).symm
  | append_singleton p i ih =>
    intro q hlen hp hq
    obtain rfl | ⟨q, j, rfl⟩ := List.eq_nil_or_concat' q
    · simp at hlen
    have hlen' : p.length = q.length := by simpa using hlen
    rw [descend_append] at hp hq
    obtain ⟨y, hy, hyx⟩ := Option.bind_eq_some_iff.mp hp
    obtain ⟨z, hz, hzx⟩ := Option.bind_eq_some_iff.mp hq
    replace hyx : (kids y)[i]? = some x := by simpa [descend] using hyx
    replace hzx : (kids z)[j]? = some x := by simpa [descend] using hzx
    have hl := hnd (p.length + 1)
    rw [level_succ, List.nodup_flatMap] at hl
    have hym := descend_mem_level hy
    have hzm := descend_mem_level hz
    rw [← hlen'] at hzm
    have hyz : y = z := by
      by_contra hne
      have hsymm : Std.Symm (Function.onFun List.Disjoint kids) :=
        ⟨fun _ _ h _ hx hy => h hy hx⟩
      exact hl.2.forall hym hzm hne (List.mem_of_getElem? hyx) (List.mem_of_getElem? hzx)
    subst hyz
    rw [ih hlen' hy hz]
    have hij : i = j := by
      obtain ⟨hi, hix⟩ := List.getElem?_eq_some_iff.mp hyx
      obtain ⟨hj, hjx⟩ := List.getElem?_eq_some_iff.mp hzx
      exact (hl.1 y hym).getElem_inj_iff.mp (hix.trans hjx.symm)
    rw [hij]

/-- With disjoint levels free of repetitions, every node below the root is
reached by exactly one path. -/
theorem existsUnique_descend (hnd : ∀ d, (level kids root d).Nodup)
    (hdisj : ∀ d e x, x ∈ level kids root d → x ∈ level kids root e → d = e)
    {d : Nat} {x : ι} (h : x ∈ level kids root d) : ∃! p, descend kids root p = some x := by
  obtain ⟨p, -, hp⟩ := exists_descend h
  refine ⟨p, hp, fun q hq => ?_⟩
  refine descend_injective hnd (hdisj _ _ x ?_ ?_) hq hp
  · exact descend_mem_level hq
  · exact descend_mem_level hp

/-! ## Replacing one node by two -/

section Split

variable [DecidableEq ι]

/-- Replace `x` by `a` and `b`. -/
def splitAt (x a b : ι) (y : ι) : List ι := if y = x then [a, b] else [y]

@[simp] theorem splitAt_self (x a b : ι) : splitAt x a b x = [a, b] := if_pos rfl

theorem splitAt_ne {x y : ι} (a b : ι) (h : y ≠ x) : splitAt x a b y = [y] := if_neg h

theorem flatMap_splitAt_of_notMem {x a b : ι} {l : List ι} (h : x ∉ l) :
    l.flatMap (splitAt x a b) = l := by
  induction l with
  | nil => rfl
  | cons y ys ih =>
    simp only [List.mem_cons, not_or] at h
    rw [List.flatMap_cons, splitAt_ne a b (Ne.symm h.1), ih h.2, List.singleton_append]

theorem mem_flatMap_splitAt {x a b z : ι} {l : List ι} :
    z ∈ l.flatMap (splitAt x a b) ↔ (z ∈ l ∧ z ≠ x) ∨ (x ∈ l ∧ (z = a ∨ z = b)) := by
  rw [List.mem_flatMap]
  constructor
  · rintro ⟨y, hy, hz⟩
    by_cases hyx : y = x
    · subst hyx
      rw [splitAt_self] at hz
      exact .inr ⟨hy, by simpa using hz⟩
    · rw [splitAt_ne a b hyx, List.mem_singleton] at hz
      subst hz
      exact .inl ⟨hy, hyx⟩
  · rintro (⟨hz, hne⟩ | ⟨hx, hz⟩)
    · exact ⟨z, hz, by simp [splitAt_ne a b hne]⟩
    · exact ⟨x, hx, by simpa using hz⟩

end Split

end Forest
