import Mathlib.Data.List.Nodup
import Mathlib.Tactic.Common

/-!
# Linked lists

The nodes visited by following a `next` pointer. A node is spliced in by changing the
pointers of its predecessor and of the node itself, and everything else stays.
-/

namespace Links

variable {α : Type*} {next next' : α → Option α} {p x : α} {A B qs : List α}

/-- Following `next` from `p` visits exactly these nodes. -/
def Path (next : α → Option α) : α → List α → Prop
  | p, [] => next p = none
  | p, q :: qs => next p = some q ∧ Path next q qs

theorem Path.head? (h : Path next p qs) : next p = qs.head? := by
  cases qs with
  | nil => exact h
  | cons q qs => exact h.1

/-- Only the pointers of the visited nodes matter. -/
theorem Path.congr : ∀ {qs : List α} {p : α}, (∀ y ∈ p :: qs, next' y = next y) →
    Path next p qs → Path next' p qs := by
  intro qs
  induction qs with
  | nil => exact fun h hp => (h _ (by simp)).trans hp
  | cons q qs ih =>
    intro p h hp
    obtain ⟨hpq, hqs⟩ := List.forall_mem_cons.mp h
    exact ⟨hpq.trans hp.1, ih hqs hp.2⟩

/-- The last of the nodes, or the start if there is none. -/
def last (p : α) (A : List α) : α := A.getLastD p

@[simp] theorem last_nil (p : α) : last p [] = p := rfl

@[simp] theorem last_cons (p q : α) (A : List α) : last p (q :: A) = last q A :=
  List.getLastD_cons ..

theorem last_append (p : α) (A B : List α) : last p (A ++ B) = last (last p A) B := by
  induction A generalizing p with
  | nil => rfl
  | cons a A ih => rw [List.cons_append, last_cons, last_cons, ih]

theorem last_mem (p : α) (A : List α) : last p A ∈ p :: A := by
  induction A generalizing p with
  | nil => simp
  | cons a A ih =>
    rw [last_cons]
    exact List.mem_cons_of_mem _ (ih a)

/-- A path can be taken up at any of its nodes. -/
theorem Path.drop : ∀ {A : List α} {p : α}, Path next p (A ++ B) → Path next (last p A) B := by
  intro A
  induction A with
  | nil => exact id
  | cons a A ih =>
    intro p h
    rw [last_cons]
    exact ih h.2

/-- **A node is spliced in** behind the last node of `A`. -/
theorem Path.splice [DecidableEq α] : ∀ {A : List α} {p : α}, Path next p (A ++ B) →
    (p :: (A ++ B)).Nodup → x ∉ p :: (A ++ B) →
    (∀ q, next' q = if q = last p A then some x else if q = x then B.head? else next q) →
    Path next' p (A ++ x :: B) := by
  intro A
  induction A with
  | nil =>
    intro p h hnd hx hnext
    have hB : ∀ y ∈ B, next' y = next y := by
      intro y hy
      have hyp : y ≠ p := fun h => (List.nodup_cons.mp hnd).1 (h ▸ hy)
      have hyx : y ≠ x := fun h => hx (List.mem_cons_of_mem _ (h ▸ hy))
      rw [hnext, last_nil, if_neg hyp, if_neg hyx]
    have hxp : x ≠ p := fun h => hx (h ▸ List.mem_cons_self)
    have hstart : next' x = B.head? := by rw [hnext, last_nil, if_neg hxp, if_pos rfl]
    refine ⟨by rw [hnext, last_nil, if_pos rfl], ?_⟩
    cases B with
    | nil => exact hstart
    | cons b B => exact ⟨hstart, h.2.congr hB⟩
  | cons a A ih =>
    intro p h hnd hx hnext
    obtain ⟨hp, hnd'⟩ := List.nodup_cons.mp hnd
    rw [last_cons] at hnext
    have hlast : p ≠ last a A := by
      intro h
      have := last_mem a A
      rw [← h] at this
      exact hp (by simpa using List.mem_append_left B this)
    have hpx : p ≠ x := fun h => hx (h ▸ List.mem_cons_self)
    refine ⟨by rw [hnext, if_neg hlast, if_neg hpx]; exact h.1, ?_⟩
    exact ih h.2 hnd' (fun h => hx (List.mem_cons_of_mem _ h)) hnext

/-- Every node is the last one of some first part. -/
theorem exists_last_eq {y : α} : ∀ {A : List α} {p : α}, y ∈ p :: A →
    ∃ X Y, A = X ++ Y ∧ last p X = y := by
  intro A
  induction A with
  | nil =>
    intro p h
    obtain rfl := List.mem_singleton.mp h
    exact ⟨[], [], rfl, rfl⟩
  | cons a A ih =>
    intro p h
    rcases List.mem_cons.mp h with rfl | h
    · exact ⟨[], a :: A, rfl, rfl⟩
    · obtain ⟨X, Y, rfl, hlast⟩ := ih h
      exact ⟨a :: X, Y, rfl, by rwa [last_cons]⟩

/-- In a list in which whatever has `r` comes first, a scan while `r` holds sees all of it. -/
theorem scan_eq_filter {r : α → Bool} : ∀ {l : List α},
    l.Pairwise (fun a b => r b = true → r a = true) →
    l.takeWhile r = l.filter r ∧ l.dropWhile r = l.filter (fun a => !r a) := by
  intro l
  induction l with
  | nil => exact fun _ => ⟨rfl, rfl⟩
  | cons a l ih =>
    intro h
    obtain ⟨ha, hl⟩ := List.pairwise_cons.mp h
    obtain ⟨htake, hdrop⟩ := ih hl
    cases hr : r a with
    | true => simp [hr, htake, hdrop]
    | false =>
      have hnone : ∀ b ∈ l, r b = false := by
        intro b hb
        by_contra hrb
        simp [ha b hb (by simpa using hrb)] at hr
      have hyes : l.filter r = [] := List.filter_eq_nil_iff.mpr fun b hb => by simp [hnone b hb]
      have hno : l.filter (fun a => !r a) = l := List.filter_eq_self.mpr fun b hb => by simp [hnone b hb]
      simp [hr, hyes, hno]

end Links
