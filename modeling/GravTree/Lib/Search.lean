import Mathlib.Data.List.Pairwise
import Mathlib.Tactic.Common

/-!
# Binary search

The loop of a lower bound halves the places that are still in question. Where a list
is cut into the places below the target and the rest, the loop ends at the cut, which is
where a scan from the left ends as well.
-/

namespace Search

variable {α : Type*} {es : List α} {below : α → Bool}

/-- The loop: the answer is one of the `len` places after `first`, or the place behind them. -/
def lowerBoundFrom (es : List α) (below : α → Bool) (first len : Nat) : Nat :=
  if len = 0 then first
  else
    let half := len / 2
    if es[first + half]?.any below then
      lowerBoundFrom es below (first + half + 1) (len - half - 1)
    else lowerBoundFrom es below first half
termination_by len

/-- The first place that is not below the target. -/
def lowerBound (es : List α) (below : α → Bool) : Nat := lowerBoundFrom es below 0 es.length

/-- The places before `cut` are below the target, and the others are not. -/
def CutAt (es : List α) (below : α → Bool) (cut : Nat) : Prop :=
  ∀ {i x}, es[i]? = some x → (below x = true ↔ i < cut)

/-- The loop keeps the cut among its places. -/
theorem lowerBoundFrom_eq {cut : Nat} (hcut : CutAt es below cut) (first len : Nat)
    (hfirst : first ≤ cut) (hlast : cut ≤ first + len) (hlen : first + len ≤ es.length) :
    lowerBoundFrom es below first len = cut := by
  induction first, len using lowerBoundFrom.induct es below with
  | case1 first =>
    rw [lowerBoundFrom, if_pos rfl]
    omega
  | case2 first len hne half hbelow ih =>
    rw [lowerBoundFrom, if_neg hne]
    simp only
    rw [if_pos hbelow]
    have hlt : first + half < es.length := by omega
    rw [List.getElem?_eq_getElem hlt, Option.any_some] at hbelow
    have := (hcut (List.getElem?_eq_getElem hlt)).mp hbelow
    exact ih (by omega) (by omega) (by omega)
  | case3 first len hne half hbelow ih =>
    rw [lowerBoundFrom, if_neg hne]
    simp only
    rw [if_neg hbelow]
    have hlt : first + half < es.length := by omega
    rw [List.getElem?_eq_getElem hlt, Option.any_some] at hbelow
    have := mt (hcut (List.getElem?_eq_getElem hlt)).mpr hbelow
    exact ih hfirst (by omega) (by omega)

/-- Where nothing that is below follows something that is not, the list has a cut. -/
theorem cutAt_findIdx (h : es.Pairwise fun a b => below b = true → below a = true) :
    CutAt es below (es.findIdx fun x => !below x) := by
  intro i x hi
  obtain ⟨hlt, rfl⟩ := List.getElem?_eq_some_iff.mp hi
  constructor
  · intro hbelow
    by_contra hge
    have hcut : es.findIdx (fun x => !below x) < es.length := by omega
    have hnot : below es[es.findIdx fun x => !below x] = false := by
      simpa using List.findIdx_getElem (w := hcut)
    rcases Nat.eq_or_lt_of_le (Nat.le_of_not_lt hge) with heq | hgt
    · simp only [heq] at hnot
      simp [hnot] at hbelow
    · have := List.pairwise_iff_getElem.mp h _ _ hcut hlt hgt hbelow
      simp [hnot] at this
  · intro hbefore
    simpa using List.not_of_lt_findIdx hbefore

/-- **A lower bound ends where a scan from the left ends.** -/
theorem drop_lowerBound (h : es.Pairwise fun a b => below b = true → below a = true) :
    es.drop (lowerBound es below) = es.dropWhile below := by
  have hle : es.findIdx (fun x => !below x) ≤ es.length := List.findIdx_le_length
  rw [lowerBound, lowerBoundFrom_eq (cutAt_findIdx h) 0 es.length (Nat.zero_le _) (by omega)
    (by omega), List.dropWhile_eq_drop_findIdx_not]

end Search
