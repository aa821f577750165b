import GravTree.Proof.Buffer

/-!
# The streaming merge

`merge_sorted_entries` walks two sorted buffers with one cursor each. On equal keys it
keeps the newer entry and steps over the other one, so with several versions of a key
on either side later steps compare versions that do not belong together. What it is
for still holds: sorted and deduplicated, its output is the sorted and deduplicated
concatenation.
-/

namespace GravTree

/-- The merge may drop versions, but never the newest one of a key. -/
theorem sortBuffer_merge {as bs : List Entry} (ha : Sorted as) (hb : Sorted bs) :
    sortBuffer (mergeSortedEntries as bs) = sortBuffer (as ++ bs) := by
  refine eq_of_find? (uniqueKeys_sortBuffer _) (uniqueKeys_sortBuffer _) fun k => ?_
  calc (sortBuffer (mergeSortedEntries as bs)).find? (·.key = k)
      = (mergeSortedEntries as bs).find? (·.key = k) := by
        rw [find?_sortBuffer, find?_eq_newest (sorted_merge ha hb)]
    _ = newer (newest k as) (newest k bs) := by
        rw [find?_mergeSortedEntries ha hb, find?_eq_newest ha, find?_eq_newest hb]
    _ = (sortBuffer (as ++ bs)).find? (·.key = k) := by
        rw [find?_sortBuffer, newest_append]

/-- What survives of a key is the newest of all its versions, and comes from the first
list if that has one as new. -/
theorem survivor_newest {as bs : List Entry} {e : Entry} (he : e ∈ sortBuffer (as ++ bs)) :
    (∀ x ∈ as ++ bs, x.key = e.key → x.seqNo ≤ e.seqNo) ∧
      (newest e.key as = some e ∨
        newest e.key bs = some e ∧ ∀ x ∈ as, x.key = e.key → x.seqNo < e.seqNo) := by
  have hfind := (uniqueKeys_sortBuffer (as ++ bs)).find?.mpr ⟨he, rfl⟩
  rw [find?_sortBuffer] at hfind
  refine ⟨(newest_mem hfind).2.2, ?_⟩
  rw [newest_append] at hfind
  cases ha : newest e.key as with
  | none =>
    rw [ha, newer_none_left] at hfind
    exact .inr ⟨hfind, fun x hx hk => absurd hk (newest_eq_none ha x hx)⟩
  | some a =>
    cases hb : newest e.key bs with
    | none =>
      rw [ha, hb, newer_none_right] at hfind
      exact .inl hfind
    | some b =>
      rw [ha, hb, newer] at hfind
      split at hfind
      · exact .inl hfind
      · rename_i hlt
        obtain rfl := Option.some.inj hfind
        exact .inr ⟨rfl, fun x hx hk =>
          lt_of_le_of_lt ((newest_mem ha).2.2 x hx hk) (not_le.mp hlt)⟩

/-- **The merge is sort-and-deduplicate.** -/
theorem merge_sorts {as bs : List Entry} (ha : Sorted as) (hb : Sorted bs) :
    Sorted (mergeSortedEntries as bs) ∧
      sortBuffer (mergeSortedEntries as bs) = sortBuffer (as ++ bs) ∧
      (∀ e ∈ sortBuffer (as ++ bs), (∀ x ∈ as ++ bs, x.key = e.key → x.seqNo ≤ e.seqNo) ∧
        (newest e.key as = some e ∨
          newest e.key bs = some e ∧ ∀ x ∈ as, x.key = e.key → x.seqNo < e.seqNo)) ∧
      (UniqueKeys as → UniqueKeys bs → UniqueKeys (mergeSortedEntries as bs)) :=
  ⟨sorted_merge ha hb, sortBuffer_merge ha hb, fun _ => survivor_newest, uniqueKeys_merge⟩

/-- Two versions on each side. -/
theorem merge_sorts_versions :
    Sorted (mergeSortedEntries
      [{ key := .byte 1, seqNo := 5 }, { key := .byte 1, seqNo := 3 }]
      [{ key := .byte 1, seqNo := 4 }, { key := .byte 1, seqNo := 2 }]) :=
  (merge_sorts (by unfold Sorted; decide) (by unfold Sorted; decide)).1

end GravTree
