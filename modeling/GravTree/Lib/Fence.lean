import Mathlib.Order.Lattice
import Mathlib.Data.List.Pairwise
import Mathlib.Data.List.Nodup
import Mathlib.Tactic.Common

/-!
# Routing by fences

A row of nodes, each with a fence key. A key belongs to the last node whose fence
is at most the key, or to the first node if there is none: the first node's own
fence does not matter. `Owns` says which node that is by splitting the row around
it, so it survives the replacement of nodes by rows of nodes.
-/

namespace Fence

variable {ι κ : Type*} [LinearOrder κ] {fence : ι → κ}

/-- The fences of a row ascend. -/
def Ascending (fence : ι → κ) (row : List ι) : Prop :=
  row.Pairwise fun x y => fence x ≤ fence y

/-- `x` is the node of the row that `k` belongs to. -/
def Owns (fence : ι → κ) (row : List ι) (k : κ) (x : ι) : Prop :=
  ∃ A B, row = A ++ x :: B ∧ (A ≠ [] → fence x ≤ k) ∧ ∀ y ∈ B, k < fence y

theorem Owns.mem {row : List ι} {k : κ} {x : ι} (h : Owns fence row k x) : x ∈ row := by
  obtain ⟨A, B, rfl, -, -⟩ := h
  simp

/-- **A key belongs to one node.** -/
theorem Owns.unique {row : List ι} {k : κ} {x y : ι} (hx : Owns fence row k x)
    (hy : Owns fence row k y) : x = y := by
  obtain ⟨A, B, hrow, hA, hB⟩ := hx
  obtain ⟨C, D, hrow', hC, hD⟩ := hy
  rw [hrow, List.append_eq_append_iff] at hrow'
  rcases hrow' with ⟨E, rfl, hE⟩ | ⟨E, rfl, hE⟩
  · cases E with
    | nil => simpa using congrArg List.head? hE
    | cons z E =>
      simp only [List.cons_append, List.cons.injEq] at hE
      obtain ⟨rfl, rfl⟩ := hE
      exact absurd (hC (by simp)) (not_le_of_gt (hB y (by simp)))
  · cases E with
    | nil => simpa using (congrArg List.head? hE).symm
    | cons z E =>
      simp only [List.cons_append, List.cons.injEq] at hE
      obtain ⟨rfl, rfl⟩ := hE
      exact absurd (hA (by simp)) (not_le_of_gt (hD x (by simp)))

/-- The fence of an owner other than the first node is at most the key. -/
theorem Owns.fence_le {row : List ι} {k : κ} {x : ι} (hnd : row.Nodup)
    (h : Owns fence row k x) (hx : x ∈ row.tail) : fence x ≤ k := by
  obtain ⟨A, B, rfl, hA, -⟩ := h
  cases A with
  | nil => exact absurd hx (List.nodup_cons.mp hnd).1
  | cons a A => exact hA (by simp)

theorem mem_tail_of_pair {x y : ι} {row : List ι} (h : [x, y].Sublist row) : y ∈ row.tail := by
  cases row with
  | nil => exact absurd h (by simp)
  | cons a row =>
    rcases List.sublist_cons_iff.mp h with h | ⟨r, hr, h⟩
    · exact h.subset (by simp)
    · cases hr
      exact h.subset (by simp)

theorem pair_sublist_of_lt {x y : ι} : ∀ {row : List ι} {i j : Nat}, i < j → row[i]? = some x →
    row[j]? = some y → [x, y].Sublist row := by
  intro row
  induction row with
  | nil => exact fun _ h => nomatch h
  | cons a row ih =>
    intro i j hij hi hj
    obtain _ | j := j
    · omega
    · have hj : row[j]? = some y := by simpa using hj
      obtain _ | i := i
      · obtain rfl : a = x := by simpa using hi
        exact (List.singleton_sublist.mpr (List.mem_of_getElem? hj)).cons_cons a
      · exact (ih (Nat.lt_of_succ_lt_succ hij) (by simpa using hi) hj).cons a

/-- A key is below the fences of all later nodes. -/
theorem Owns.lt_of_pair {row : List ι} {k : κ} {x y : ι} (hnd : row.Nodup)
    (h : Owns fence row k x) (hxy : [x, y].Sublist row) : k < fence y := by
  obtain ⟨A, B, rfl, -, hB⟩ := h
  obtain ⟨l₁, l₂, hl, h₁, h₂⟩ := List.sublist_append_iff.mp hxy
  cases l₁ with
  | nil =>
    rw [List.nil_append] at hl
    exact hB y (mem_tail_of_pair (hl ▸ h₂))
  | cons z l₁ =>
    obtain rfl : x = z := by simpa using congrArg List.head? hl
    exact absurd rfl ((List.nodup_append.mp hnd).2.2 x (h₁.subset (by simp)) x (by simp))

/-! ## Finding the owner -/

/-- The scan from the left: go on while the fence is at most the key. -/
def scan (fence : ι → κ) (k : κ) : ι → List ι → ι
  | next, [] => next
  | next, y :: ys => if fence y ≤ k then scan fence k y ys else next

/-- The scan looks at the fences of the row only. -/
theorem scan_congr {fence' : ι → κ} {k : κ} : ∀ {ys : List ι} {next : ι},
    (∀ y ∈ ys, fence' y = fence y) → scan fence' k next ys = scan fence k next ys := by
  intro ys
  induction ys with
  | nil => exact fun _ => rfl
  | cons y ys ih =>
    intro next h
    obtain ⟨hy, hys⟩ := List.forall_mem_cons.mp h
    rw [scan, scan, hy, ih hys]

theorem scan_mem {k : κ} : ∀ (ys : List ι) (next : ι), scan fence k next ys ∈ next :: ys
  | [], next => List.mem_singleton_self next
  | y :: ys, next => by
    rw [scan]
    split
    · exact List.mem_cons_of_mem _ (scan_mem ys y)
    · exact List.mem_cons_self

theorem owns_scan_aux {k : κ} : ∀ (ys A : List ι) (next : ι),
    Ascending fence (A ++ next :: ys) → (A ≠ [] → fence next ≤ k) →
    Owns fence (A ++ next :: ys) k (scan fence k next ys) := by
  intro ys
  induction ys with
  | nil => exact fun A next _ hA => ⟨A, [], rfl, hA, by simp⟩
  | cons y ys ih =>
    intro A next hasc hA
    rw [scan]
    split
    · rename_i hy
      have := ih (A ++ [next]) y (by simpa using hasc) (fun _ => hy)
      simpa using this
    · rename_i hy
      refine ⟨A, y :: ys, rfl, hA, ?_⟩
      intro z hz
      have hyz : fence y ≤ fence z := by
        rcases List.mem_cons.mp hz with rfl | hz
        · exact le_rfl
        · have h2 := (List.pairwise_append.mp hasc).2.1
          exact (List.pairwise_cons.mp (List.pairwise_cons.mp h2).2).1 z hz
      exact lt_of_lt_of_le (not_le.mp hy) hyz

/-- With ascending fences the scan from the left finds the owner. -/
theorem owns_scan {k : κ} {x : ι} {xs : List ι} (hasc : Ascending fence (x :: xs)) :
    Owns fence (x :: xs) k (scan fence k x (x :: xs)) := by
  rw [scan]
  split
  · exact owns_scan_aux xs [] x hasc (by simp)
  · rename_i hx
    refine ⟨[], xs, rfl, by simp, ?_⟩
    exact fun y hy => lt_of_lt_of_le (not_le.mp hx) ((List.pairwise_cons.mp hasc).1 y hy)

/-! ## Positions -/

/-- `i` is the position of the last fence that is at most `k`, or the first position if
there is none. -/
def Position (fences : List κ) (k : κ) (i : Nat) : Prop :=
  (∃ a, fences[i]? = some a ∧ a ≤ k ∧ ∀ j b, i < j → fences[j]? = some b → k < b) ∨
    i = 0 ∧ ∀ b ∈ fences, k < b

namespace Position

variable {fences : List κ} {k k' : κ} {i j : Nat}

theorem lt_of_later (h : Position fences k i) {b : κ} (hij : i < j) (hb : fences[j]? = some b) :
    k < b := by
  rcases h with ⟨a, -, -, hlater⟩ | ⟨-, hall⟩
  · exact hlater j b hij hb
  · exact hall b (List.mem_of_getElem? hb)

/-- Larger keys have later positions. -/
theorem mono (h : Position fences k i) (h' : Position fences k' j) (hk : k ≤ k') : i ≤ j := by
  by_contra hji
  rcases h with ⟨a, ha, hak, -⟩ | ⟨rfl, -⟩
  · exact absurd (h'.lt_of_later (not_le.mp hji) ha) (not_lt_of_ge (hak.trans hk))
  · exact hji (Nat.zero_le j)

theorem unique (h : Position fences k i) (h' : Position fences k j) : i = j :=
  le_antisymm (h.mono h' le_rfl) (h'.mono h le_rfl)

theorem lt_length (h : Position fences k i) (hne : fences ≠ []) : i < fences.length := by
  rcases h with ⟨a, ha, -, -⟩ | ⟨rfl, -⟩
  · exact (List.getElem?_eq_some_iff.mp ha).1
  · exact List.length_pos_iff.mpr hne

/-- The node at the position owns the key. -/
theorem owns {row : List ι} (h : Position (row.map fence) k i) {x : ι} (hx : row[i]? = some x) :
    Owns fence row k x := by
  obtain ⟨hi, rfl⟩ := List.getElem?_eq_some_iff.mp hx
  refine ⟨row.take i, row.drop (i + 1), by simp, fun hne => ?_, fun y hy => ?_⟩
  · rcases h with ⟨a, ha, hak, -⟩ | ⟨rfl, -⟩
    · obtain rfl : fence row[i] = a := by simpa [hi] using ha
      exact hak
    · exact absurd rfl hne
  · obtain ⟨j, hj, rfl⟩ := List.getElem_of_mem hy
    rw [List.length_drop] at hj
    rw [List.getElem_drop]
    exact h.lt_of_later (j := i + 1 + j) (by omega) (by simp [show i + 1 + j < row.length by omega])

end Position

/-! ## Buckets -/

/-- Where the bucket numbers ascend, the buckets in order are the list. -/
theorem flatMap_buckets {f : ι → Nat} : ∀ {n : Nat} {l : List ι}, l.Pairwise (f · ≤ f ·) →
    (∀ x ∈ l, f x < n) → (List.range n).flatMap (fun i => l.filter (f · = i)) = l := by
  intro n
  induction n with
  | zero =>
    intro l _ h
    cases l with
    | nil => rfl
    | cons x l => exact absurd (h x (by simp)) (Nat.not_lt_zero _)
  | succ n ih =>
    intro l hl h
    -- the last bucket is the end of the list
    have hcut : l.filter (f · < n) ++ l.filter (f · = n) = l := by
      clear ih
      induction l with
      | nil => rfl
      | cons x l ih =>
        obtain ⟨hx, hl⟩ := List.pairwise_cons.mp hl
        obtain ⟨hxn, h⟩ := List.forall_mem_cons.mp h
        by_cases hlt : f x < n
        · simpa [hlt, hlt.ne] using ih hl h
        · have hnone : l.filter (f · < n) = [] :=
            List.filter_eq_nil_iff.mpr fun y hy => by
              simpa using (not_lt.mp hlt).trans (hx y hy)
          have := ih hl h
          rw [hnone, List.nil_append] at this
          simp [show f x = n by omega, hnone, this]
    have hlow : ∀ i ∈ List.range n, l.filter (f · = i) = (l.filter (f · < n)).filter (f · = i) := by
      intro i hi
      rw [List.filter_filter]
      refine List.filter_congr fun x _ => ?_
      have := List.mem_range.mp hi
      simp only [← Bool.decide_and, decide_eq_decide]
      omega
    rw [List.range_succ, List.flatMap_append, List.flatMap_singleton, List.flatMap_congr hlow,
      ih (hl.filter _) (fun x hx => by simpa using (List.mem_filter.mp hx).2), hcut]

/-! ## Replacing every node by a row -/

section Subst

variable {ι' : Type*} {fence' : ι' → κ} {σ : ι → List ι'}

/-- **Ownership under replacement**: the key stays with the replacement of its
owner, as long as the replacements of later nodes start no lower than the nodes
did, and the owner's own replacement starts no higher. -/
theorem Owns.subst {row : List ι} {k : κ} {x : ι} {z : ι'} (h : Owns fence row k x)
    (hz : Owns fence' (σ x) k z)
    (hhead : x ∈ row.tail → ∀ c, (σ x).head? = some c → fence' c ≤ fence x)
    (hlow : ∀ y ∈ row.tail, ∀ c ∈ σ y, fence y ≤ fence' c) :
    Owns fence' (row.flatMap σ) k z := by
  obtain ⟨A, B, rfl, hA, hB⟩ := h
  obtain ⟨C, D, hσ, hC, hD⟩ := hz
  refine ⟨A.flatMap σ ++ C, D ++ B.flatMap σ, by simp [hσ], ?_, ?_⟩
  · intro hne
    by_cases hC0 : C = []
    · subst hC0
      have hA0 : A ≠ [] := by
        rintro rfl
        simp at hne
      have hx : x ∈ (A ++ x :: B).tail := by
        cases A with
        | nil => exact absurd rfl hA0
        | cons a A => simp
      exact le_trans (hhead hx z (by simp [hσ])) (hA hA0)
    · exact hC hC0
  · intro y hy
    rcases List.mem_append.mp hy with hy | hy
    · exact hD y hy
    · obtain ⟨u, hu, hyu⟩ := List.mem_flatMap.mp hy
      have hut : u ∈ (A ++ x :: B).tail := by
        cases A with
        | nil => exact hu
        | cons a A => simp [hu]
      exact lt_of_lt_of_le (hB u hu) (hlow u hut y hyu)

/-- **Ascent under replacement.** -/
theorem Ascending.subst {row : List ι}
    (hloc : ∀ x ∈ row, Ascending fence' (σ x))
    (hup : row.Pairwise fun x y => ∀ a ∈ σ x, fence' a ≤ fence y)
    (hlow : ∀ y ∈ row.tail, ∀ c ∈ σ y, fence y ≤ fence' c) :
    Ascending fence' (row.flatMap σ) := by
  refine List.pairwise_flatMap.mpr ⟨hloc, ?_⟩
  cases row with
  | nil => exact List.Pairwise.nil
  | cons x xs =>
    rw [List.pairwise_cons] at hup ⊢
    refine ⟨fun y hy a ha b hb => le_trans (hup.1 y hy a ha) (hlow y hy b hb), ?_⟩
    exact hup.2.imp_of_mem fun {u y} _ hy h a ha b hb => le_trans (h a ha) (hlow y hy b hb)

end Subst

end Fence
