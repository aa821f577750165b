import GravTree.Lib.Search
import GravTree.Proof.Buffer

/-!
# Normalising a buffer

`SSTNode::get` searches a sorted buffer with a probe that sorts before every version of its
key, and `sort_buffer` sorts a buffer and keeps the first entry of every key. Both rest on
newer versions standing first, so they agree: what a sorted buffer answers does not change
when it is normalised, in whatever order its entries come to the sort.
-/

namespace GravTree

namespace SSTNode

/-- `sort_buffer`, on the node it is called on. -/
def withSortedBuffer (n : SSTNode) : SSTNode := { n with buffer := sortBuffer n.buffer }

/-- `get` as it is written: the place `std::lower_bound` ends at, and the test there. -/
def search (n : SSTNode) (key : Bytes) : Option Entry :=
  match n.buffer[Search.lowerBound n.buffer fun e => e < probe key]? with
  | some e => if e.key = key then some e else none
  | none => none

end SSTNode

/-- `e` is the first entry listed among the newest of key `k`. -/
def FirstNewest (es : List Entry) (k : Bytes) (e : Entry) : Prop :=
  ∃ as bs, es = as ++ e :: bs ∧ e.key = k ∧ (∀ a ∈ as, a.key = k → a.seqNo < e.seqNo) ∧
    ∀ b ∈ bs, b.key = k → b.seqNo ≤ e.seqNo

/-! ## Lookups -/

theorem lt_probe_of_le {k : Bytes} {a b : Entry} (hab : Entry.le a b) (hb : b < probe k) :
    a < probe k := by
  rw [Entry.lt_iff] at hb ⊢
  rcases hb with hb | ⟨-, hb⟩
  · rcases Entry.le_iff.mp hab with h | ⟨h, -⟩
    · exact .inl (h.trans hb)
    · exact .inl (h ▸ hb)
  · exact absurd hb (not_lt_of_ge (Fin.le_last _))

/-- The binary search finds what a scan for the probe finds. -/
theorem SSTNode.search_eq_get {n : SSTNode} (h : Sorted n.buffer) (k : Bytes) :
    n.search k = n.get k := by
  have hcut : n.buffer.Pairwise fun a b =>
      decide (b < probe k) = true → decide (a < probe k) = true := by
    refine h.imp fun {a b} hab hb => ?_
    exact decide_eq_true (lt_probe_of_le hab (of_decide_eq_true hb))
  have hdrop := Search.drop_lowerBound hcut
  rw [search, get, lookupSorted, ← hdrop, ← List.head?_drop]
  cases n.buffer.drop (Search.lowerBound n.buffer fun e => decide (e < probe k)) with
  | nil => rfl
  | cons e es => rfl

theorem firstNewest_iff {es : List Entry} (h : Sorted es) {k : Bytes} {e : Entry} :
    lookupSorted es k = some e ↔ FirstNewest es k e := by
  rw [lookupSorted_eq_find? h]
  constructor
  · intro he
    obtain ⟨hk, as, bs, rfl, hno⟩ := List.find?_eq_some_iff_append.mp he
    have hk : e.key = k := by simpa using hk
    refine ⟨as, bs, rfl, hk, fun a ha hak => absurd hak (by simpa using hno a ha), ?_⟩
    intro b hb hbk
    have hle := (List.pairwise_cons.mp (List.pairwise_append.mp h).2.1).1 b hb
    rcases Entry.le_iff.mp hle with hlt | ⟨-, hs⟩
    · exact absurd (hk.trans hbk.symm) hlt.ne
    · exact hs
  · rintro ⟨as, bs, rfl, hk, has, -⟩
    refine List.find?_eq_some_iff_append.mpr ⟨by simpa using hk, as, bs, rfl, fun a ha => ?_⟩
    -- an older version cannot stand before a newer one
    have hne : a.key ≠ k := by
      intro hak
      rcases Entry.le_iff.mp ((List.pairwise_append.mp h).2.2 a ha e (by simp)) with hlt | ⟨-, hs⟩
      · exact hlt.ne (hak.trans hk.symm)
      · exact absurd (has a ha hak) (not_lt_of_ge hs)
    simpa using hne

/-! ## The order of the entries -/

/-- Distinct versions sort in one way only. -/
theorem stableSort_eq_of_perm {es ps : List Entry} (h : Sorted es) (hp : ps.Perm es)
    (hnd : (ps.map fun e => (e.key, e.seqNo)).Nodup) : stableSort ps = es := by
  refine ((stableSort_perm ps).trans hp).eq_of_pairwise ?_ (sorted_stableSort ps) h
  intro a b ha hb hab hba
  have hpair : (a.key, a.seqNo) = (b.key, b.seqNo) := by
    rcases Entry.le_iff.mp hab with hlt | ⟨hk, hs⟩
    · rcases Entry.le_iff.mp hba with hlt' | ⟨hk, -⟩
      · exact absurd hlt (lt_asymm hlt')
      · exact absurd hk.symm hlt.ne
    · rcases Entry.le_iff.mp hba with hlt | ⟨-, hs'⟩
      · exact absurd hk.symm hlt.ne
      · exact Prod.ext hk (le_antisymm hs' hs)
  exact List.inj_on_of_nodup_map hnd (mem_stableSort.mp ha) (hp.mem_iff.mpr hb) hpair

theorem sortBuffer_eq_of_perm {es ps : List Entry} (h : Sorted es) (hp : ps.Perm es)
    (hnd : (ps.map fun e => (e.key, e.seqNo)).Nodup) : sortBuffer ps = sortBuffer es := by
  rw [sortBuffer, stableSort_eq_of_perm h hp hnd, sortBuffer_of_sorted h]

theorem UniqueKeys.eq_of_lookup {as bs : List Entry} (ha : UniqueKeys as) (hb : UniqueKeys bs)
    (h : ∀ k, lookupSorted as k = lookupSorted bs k) : as = bs := by
  refine eq_of_find? ha hb fun k => ?_
  rw [← lookupSorted_eq_find? ha.sorted, ← lookupSorted_eq_find? hb.sorted, h k]

/-! ## Normalising keeps the answers -/

/-- **Normalising a buffer never changes what it answers.** -/
theorem normalising_keeps_answers (n : SSTNode) (h : Sorted n.buffer) :
    (∀ k, n.search k = n.get k ∧ (∀ e, n.get k = some e ↔ FirstNewest n.buffer k e) ∧
      (n.get k = none ↔ ∀ e ∈ n.buffer, e.key ≠ k)) ∧
    ∀ m : SSTNode, m.buffer.Perm n.buffer → (m.buffer.map fun e => (e.key, e.seqNo)).Nodup →
      UniqueKeys m.withSortedBuffer.buffer ∧ (∀ k, m.withSortedBuffer.get k = n.get k) ∧
      (∀ p : SSTNode, UniqueKeys p.buffer → (∀ k, p.get k = n.get k) →
        p.buffer = m.withSortedBuffer.buffer) ∧
      m.withSortedBuffer.withSortedBuffer = m.withSortedBuffer := by
  refine ⟨fun k => ⟨SSTNode.search_eq_get h k, fun e => firstNewest_iff h,
    lookupSorted_eq_none h⟩, fun m hp hnd => ?_⟩
  have hunique : UniqueKeys m.withSortedBuffer.buffer := uniqueKeys_sortBuffer m.buffer
  have hget : ∀ k, m.withSortedBuffer.get k = n.get k := by
    intro k
    show lookupSorted (sortBuffer m.buffer) k = lookupSorted n.buffer k
    rw [sortBuffer_eq_of_perm h hp hnd, lookupSorted_sortBuffer h]
  refine ⟨hunique, hget, fun p hpu hpk => ?_, ?_⟩
  · exact hpu.eq_of_lookup hunique fun k => (hpk k).trans (hget k).symm
  · exact congrArg (fun es => { m with buffer := es }) (sortBuffer_eq_self hunique)

/-- Two versions of one key, the newer one with the largest number there is. -/
def twoVersions : SSTNode where
  id := 1
  level := 0
  buffer := [{ key := .byte 1, seqNo := Fin.last _ }, { key := .byte 1, seqNo := 1 },
    { key := .byte 2, seqNo := 2 }]

theorem normalising_twoVersions :
    UniqueKeys { twoVersions with buffer := twoVersions.buffer.reverse }.withSortedBuffer.buffer ∧
    ∀ k, { twoVersions with buffer := twoVersions.buffer.reverse }.withSortedBuffer.get k =
      twoVersions.get k := by
  have hsorted : Sorted twoVersions.buffer := by
    unfold Sorted
    decide
  obtain ⟨hunique, hget, -⟩ := (normalising_keeps_answers twoVersions hsorted).2
    { twoVersions with buffer := twoVersions.buffer.reverse } (List.reverse_perm _) (by decide)
  exact ⟨hunique, hget⟩

end GravTree
