import GravTree.Flush
import GravTree.Lib.Fence

/-!
# Buffers

What the operations on entry lists do, as far as the tree needs it: which entries
come out, that every entry that goes in is covered by one that comes out, and that
a lookup finds the newest version.

`Covers es e` is the currency of the whole proof: a version may only disappear
behind a version of the same key that is at least as new.
-/

namespace GravTree

/-- Some entry of the list is a version of `e`'s key at least as new as `e`. -/
def Covers (es : List Entry) (e : Entry) : Prop :=
  ∃ e' ∈ es, e'.key = e.key ∧ e.seqNo ≤ e'.seqNo

theorem Covers.of_mem {es : List Entry} {e : Entry} (h : e ∈ es) : Covers es e :=
  ⟨e, h, rfl, le_rfl⟩

theorem Covers.trans {es es' : List Entry} {e : Entry} (h : Covers es e)
    (h' : ∀ e ∈ es, Covers es' e) : Covers es' e := by
  obtain ⟨e₁, h₁, hk, hs⟩ := h
  obtain ⟨e₂, h₂, hk', hs'⟩ := h' e₁ h₁
  exact ⟨e₂, h₂, hk'.trans hk, hs.trans hs'⟩

theorem Covers.mono {es es' : List Entry} {e : Entry} (h : Covers es e) (hsub : es ⊆ es') :
    Covers es' e := h.trans fun _ he => .of_mem (hsub he)

theorem Covers.cons {es : List Entry} {e a : Entry} (h : Covers es e) : Covers (a :: es) e :=
  h.mono (List.subset_cons_self ..)

/-! ## Sorting and deduplication -/

/-- Strictly ascending keys: one version of each. -/
def UniqueKeys (es : List Entry) : Prop := es.Pairwise fun a b => a.key < b.key

theorem UniqueKeys.sorted {es : List Entry} (h : UniqueKeys es) : Sorted es :=
  h.imp fun hab => Entry.le_iff.mpr (.inl hab)

theorem Sorted.key_le {e : Entry} {es : List Entry} (h : Sorted (e :: es)) :
    ∀ a ∈ e :: es, e.key ≤ a.key := by
  intro a ha
  rcases List.mem_cons.mp ha with rfl | ha
  · exact le_rfl
  · rcases Entry.le_iff.mp ((List.pairwise_cons.mp h).1 a ha) with h | ⟨h, -⟩
    · exact h.le
    · exact h.le

/-- Two lists with strictly ascending keys and the same entries are equal. -/
theorem eq_of_ascending {as bs : List Entry} (ha : as.Pairwise (·.key < ·.key))
    (hb : bs.Pairwise (·.key < ·.key)) (h : ∀ e, e ∈ as ↔ e ∈ bs) : as = bs := by
  have hnd : ∀ {es : List Entry}, es.Pairwise (·.key < ·.key) → es.Nodup :=
    fun h => h.imp fun {a b} hlt (he : a = b) => lt_irrefl _ (he ▸ hlt)
  refine ((List.perm_ext_iff_of_nodup (hnd ha) (hnd hb)).mpr h).eq_of_pairwise ?_ ha hb
  exact fun a b _ _ hab hba => absurd hab (lt_asymm hba)

theorem UniqueKeys.find? {es : List Entry} (h : UniqueKeys es) {e : Entry} {k : Bytes} :
    es.find? (·.key = k) = some e ↔ e ∈ es ∧ e.key = k := by
  constructor
  · intro he
    exact ⟨List.mem_of_find?_eq_some he, by simpa using List.find?_some he⟩
  · rintro ⟨he, hk⟩
    obtain ⟨as, bs, rfl⟩ := List.append_of_mem he
    refine List.find?_eq_some_iff_append.mpr ⟨by simpa using hk, as, bs, rfl, fun a ha => ?_⟩
    have := (List.pairwise_append.mp h).2.2 a ha e (by simp)
    simpa using (hk ▸ this).ne

/-- Lists with one version of each key are equal if every lookup finds the same. -/
theorem eq_of_find? {as bs : List Entry} (ha : UniqueKeys as) (hb : UniqueKeys bs)
    (h : ∀ k, as.find? (·.key = k) = bs.find? (·.key = k)) : as = bs := by
  refine eq_of_ascending ha hb fun e => ?_
  have ha' := ha.find? (e := e) (k := e.key)
  rw [h, hb.find?] at ha'
  simpa using ha'.symm

theorem mem_of_mem_dedup {es : List Entry} {e : Entry} (h : e ∈ dedup es) : e ∈ es :=
  (List.destutter_sublist _ es).subset h

theorem uniqueKeys_dedup {es : List Entry} (h : Sorted es) : UniqueKeys (dedup es) := by
  have hs : Sorted (dedup es) := h.sublist (List.destutter_sublist _ es)
  have hc : (dedup es).IsChain fun a b => a.key ≠ b.key := List.isChain_destutter _ es
  have hlt : (dedup es).IsChain fun a b => a.key < b.key := by
    refine List.isChain_iff_getElem.mpr fun i hi => ?_
    have hle := List.isChain_iff_getElem.mp hs.isChain i hi
    rcases Entry.le_iff.mp hle with h | ⟨h, -⟩
    · exact h
    · exact absurd h (List.isChain_iff_getElem.mp hc i hi)
  have : IsTrans Entry fun a b => a.key < b.key := ⟨fun _ _ _ => lt_trans⟩
  exact List.isChain_iff_pairwise.mp hlt

theorem dedup_eq_self {es : List Entry} (h : UniqueKeys es) : dedup es = es :=
  List.destutter_of_isChain _ es (h.imp fun hab => hab.ne).isChain

theorem head?_dedup (es : List Entry) : (dedup es).head? = es.head? := by
  cases es with
  | nil => rfl
  | cons a es =>
    show (List.destutter' _ a es).head? = some a
    induction es with
    | nil => rfl
    | cons b es ih =>
      rw [List.destutter'_cons]
      split
      · rfl
      · exact ih

/-- In a sorted list, the entry kept of each key is its newest. -/
theorem covers_dedup {es : List Entry} (h : Sorted es) {e : Entry} (he : e ∈ es) :
    Covers (dedup es) e := by
  cases es with
  | nil => simp at he
  | cons a es =>
    show Covers (List.destutter' _ a es) e
    -- the last entry kept covers everything of its key that is skipped
    induction es generalizing a e with
    | nil => exact .of_mem he
    | cons b es ih =>
      have hab := (List.pairwise_cons.mp h).1 b (by simp)
      have hb := (List.pairwise_cons.mp h).2
      rw [List.destutter'_cons]
      split
      · rcases List.mem_cons.mp he with rfl | he
        · exact .of_mem (by simp)
        · exact (ih b hb he).cons
      · rename_i hkey
        have hkey : a.key = b.key := by simpa using hkey
        have ha : Sorted (a :: es) := h.sublist (by simp)
        rcases List.mem_cons.mp he with heq | he
        · exact ih a ha (by simp [heq])
        · rcases List.mem_cons.mp he with rfl | he
          · have hle : e.seqNo ≤ a.seqNo := by
              rcases Entry.le_iff.mp hab with h | ⟨-, h⟩
              · exact absurd hkey h.ne
              · exact h
            obtain ⟨e', he', hk, hs⟩ := ih a ha (List.mem_cons_self ..)
            exact ⟨e', he', hk.trans hkey, hle.trans hs⟩
          · exact ih a ha (by simp [he])

theorem uniqueKeys_sortBuffer (es : List Entry) : UniqueKeys (sortBuffer es) :=
  uniqueKeys_dedup (sorted_stableSort es)

theorem mem_of_mem_sortBuffer {es : List Entry} {e : Entry} (h : e ∈ sortBuffer es) : e ∈ es :=
  mem_stableSort.mp (mem_of_mem_dedup h)

theorem covers_sortBuffer {es : List Entry} {e : Entry} (h : e ∈ es) : Covers (sortBuffer es) e :=
  covers_dedup (sorted_stableSort es) (mem_stableSort.mpr h)

theorem sortBuffer_eq_self {es : List Entry} (h : UniqueKeys es) : sortBuffer es = es := by
  rw [sortBuffer, stableSort_eq_self h.sorted, dedup_eq_self h]

theorem sortBuffer_of_sorted {es : List Entry} (h : Sorted es) : sortBuffer es = dedup es := by
  rw [sortBuffer, stableSort_eq_self h]

@[simp] theorem sortBuffer_nil : sortBuffer [] = [] := rfl

theorem sortBuffer_eq_nil {es : List Entry} : sortBuffer es = [] ↔ es = [] := by
  rw [sortBuffer, dedup, List.destutter_eq_nil]
  constructor
  · intro h
    simpa [h] using (stableSort_perm es).symm
  · rintro rfl
    rfl

/-! ## Merging -/

theorem mem_of_mem_merge : ∀ {as bs : List Entry} {e : Entry},
    e ∈ mergeSortedEntries as bs → e ∈ as ∨ e ∈ bs := by
  intro as bs
  induction as, bs using mergeSortedEntries.induct with
  | case1 bs => intro e h; exact .inr (by simpa [mergeSortedEntries] using h)
  | case2 a as => intro e h; exact .inl (by simpa [mergeSortedEntries] using h)
  | case3 a as b bs h1 ih => intro e h; grind [mergeSortedEntries]
  | case4 a as b bs h1 h2 ih => intro e h; grind [mergeSortedEntries]
  | case5 a as b bs h1 h2 h3 ih => intro e h; grind [mergeSortedEntries]
  | case6 a as b bs h1 h2 h3 ih => intro e h; grind [mergeSortedEntries]

/-- Of two versions of one key the merge drops the older. -/
theorem covers_merge : ∀ {as bs : List Entry} {e : Entry}, e ∈ as ∨ e ∈ bs →
    Covers (mergeSortedEntries as bs) e := by
  intro as bs
  induction as, bs using mergeSortedEntries.induct with
  | case1 bs =>
    rintro e (h | h)
    · simp at h
    · exact .of_mem (by simpa [mergeSortedEntries] using h)
  | case2 a as =>
    rintro e (h | h)
    · exact .of_mem (by simpa [mergeSortedEntries] using h)
    · simp at h
  | case3 a as b bs h1 ih =>
    intro e h
    rw [mergeSortedEntries, if_pos h1]
    by_cases hea : e = a
    · exact hea ▸ .of_mem (by simp)
    · exact (ih (by simpa [hea] using h)).cons
  | case4 a as b bs h1 h2 ih =>
    intro e h
    rw [mergeSortedEntries, if_neg h1, if_pos h2]
    by_cases heb : e = b
    · exact heb ▸ .of_mem (by simp)
    · exact (ih (by simpa [heb] using h)).cons
  | case5 a as b bs h1 h2 h3 ih =>
    intro e h
    rw [mergeSortedEntries, if_neg h1, if_neg h2, if_pos h3]
    have hkey : a.key = b.key := le_antisymm (not_lt.mp h2) (not_lt.mp h1)
    by_cases hea : e = a
    · exact hea ▸ .of_mem (by simp)
    by_cases heb : e = b
    · exact heb ▸ ⟨a, by simp, hkey, h3⟩
    · exact (ih (by simpa [hea, heb] using h)).cons
  | case6 a as b bs h1 h2 h3 ih =>
    intro e h
    rw [mergeSortedEntries, if_neg h1, if_neg h2, if_neg h3]
    have hkey : b.key = a.key := le_antisymm (not_lt.mp h1) (not_lt.mp h2)
    by_cases hea : e = a
    · exact hea ▸ ⟨b, by simp, hkey, (not_le.mp h3).le⟩
    by_cases heb : e = b
    · exact heb ▸ .of_mem (by simp)
    · exact (ih (by simpa [hea, heb] using h)).cons

/-! ## Lookups -/

/-- The lookup by binary search finds the first entry of the key. -/
theorem lookupSorted_eq_find? {es : List Entry} (h : Sorted es) (k : Bytes) :
    lookupSorted es k = es.find? (·.key = k) := by
  have hprobe : ∀ e : Entry, e < probe k ↔ e.key < k := by
    intro e
    have hlast : ¬ (probe k).seqNo < e.seqNo := not_lt_of_ge (Fin.le_last e.seqNo)
    rw [Entry.lt_iff]
    constructor
    · rintro (h | ⟨-, h⟩)
      · exact h
      · exact absurd h hlast
    · exact .inl
  induction es with
  | nil => rfl
  | cons e es ih =>
    rw [lookupSorted, List.dropWhile_cons]
    by_cases hlt : e.key < k
    · rw [if_pos (by simpa using (hprobe e).mpr hlt), List.find?_cons_of_neg (by simpa using hlt.ne)]
      exact ih (List.pairwise_cons.mp h).2
    · rw [if_neg (by simpa [hprobe] using hlt)]
      by_cases hk : e.key = k
      · simp [hk]
      · have hgt : k < e.key := lt_of_le_of_ne (not_lt.mp hlt) (Ne.symm hk)
        have hnone : ∀ a ∈ e :: es, ¬ a.key = k := fun a ha hak =>
          absurd (h.key_le a ha) (not_le_of_gt (hak ▸ hgt))
        rw [List.find?_eq_none.mpr (by simpa using hnone)]
        simp [hk]

theorem lookupSorted_eq_none {es : List Entry} (h : Sorted es) {k : Bytes} :
    lookupSorted es k = none ↔ ∀ e ∈ es, e.key ≠ k := by
  rw [lookupSorted_eq_find? h, List.find?_eq_none]
  simp

/-- What a lookup finds is the newest version in the buffer. -/
theorem lookupSorted_eq_some {es : List Entry} (h : Sorted es) {k : Bytes} {e : Entry}
    (he : lookupSorted es k = some e) :
    e ∈ es ∧ e.key = k ∧ ∀ a ∈ es, a.key = k → a.seqNo ≤ e.seqNo := by
  rw [lookupSorted_eq_find? h] at he
  obtain ⟨hk, as, bs, rfl, hno⟩ := List.find?_eq_some_iff_append.mp he
  have hk : e.key = k := by simpa using hk
  refine ⟨by simp, hk, fun a ha hak => ?_⟩
  rcases List.mem_append.mp ha with ha | ha
  · exact absurd hak (by simpa using hno a ha)
  · rcases List.mem_cons.mp ha with rfl | ha
    · exact le_rfl
    · have hle := (List.pairwise_cons.mp (List.pairwise_append.mp h).2.1).1 a ha
      rcases Entry.le_iff.mp hle with hlt | ⟨-, hs⟩
      · exact absurd (hk.trans hak.symm) hlt.ne
      · exact hs

/-- Deduplication keeps the first entry of each key. -/
theorem find?_dedup (es : List Entry) (k : Bytes) :
    (dedup es).find? (·.key = k) = es.find? (·.key = k) := by
  cases es with
  | nil => rfl
  | cons a es =>
    show (List.destutter' _ a es).find? _ = _
    induction es generalizing a with
    | nil => rfl
    | cons b es ih =>
      rw [List.destutter'_cons]
      split
      · rw [List.find?_cons, List.find?_cons, ih]
      · rename_i hkey
        have hkey : a.key = b.key := by simpa using hkey
        rw [ih, List.find?_cons, List.find?_cons, List.find?_cons, hkey]
        split <;> rfl

/-- Deduplication does not change what a lookup finds. -/
theorem lookupSorted_sortBuffer {es : List Entry} (h : Sorted es) (k : Bytes) :
    lookupSorted (sortBuffer es) k = lookupSorted es k := by
  rw [lookupSorted_eq_find? (uniqueKeys_sortBuffer es).sorted, lookupSorted_eq_find? h,
    sortBuffer_of_sorted h, find?_dedup]

theorem sorted_merge : ∀ {as bs : List Entry}, Sorted as → Sorted bs →
    Sorted (mergeSortedEntries as bs) := by
  intro as bs
  induction as, bs using mergeSortedEntries.induct with
  | case1 bs => intro _ h; simpa [mergeSortedEntries] using h
  | case2 a as => intro h _; simpa [mergeSortedEntries] using h
  | case3 a as b bs h1 ih =>
    intro ha hb
    rw [mergeSortedEntries, if_pos h1]
    refine List.pairwise_cons.mpr ⟨fun e he => ?_, ih (List.pairwise_cons.mp ha).2 hb⟩
    rcases mem_of_mem_merge he with he | he
    · exact (List.pairwise_cons.mp ha).1 e he
    · exact Entry.le_iff.mpr (.inl (lt_of_lt_of_le h1 (hb.key_le e he)))
  | case4 a as b bs h1 h2 ih =>
    intro ha hb
    rw [mergeSortedEntries, if_neg h1, if_pos h2]
    refine List.pairwise_cons.mpr ⟨fun e he => ?_, ih ha (List.pairwise_cons.mp hb).2⟩
    rcases mem_of_mem_merge he with he | he
    · exact Entry.le_iff.mpr (.inl (lt_of_lt_of_le h2 (ha.key_le e he)))
    · exact (List.pairwise_cons.mp hb).1 e he
  | case5 a as b bs h1 h2 h3 ih =>
    intro ha hb
    have hkey : a.key = b.key := le_antisymm (not_lt.mp h2) (not_lt.mp h1)
    have hab : Entry.le a b := Entry.le_iff.mpr (.inr ⟨hkey, h3⟩)
    rw [mergeSortedEntries, if_neg h1, if_neg h2, if_pos h3]
    refine List.pairwise_cons.mpr ⟨fun e he => ?_,
      ih (List.pairwise_cons.mp ha).2 (List.pairwise_cons.mp hb).2⟩
    rcases mem_of_mem_merge he with he | he
    · exact (List.pairwise_cons.mp ha).1 e he
    · exact IsTrans.trans _ _ _ hab ((List.pairwise_cons.mp hb).1 e he)
  | case6 a as b bs h1 h2 h3 ih =>
    intro ha hb
    have hkey : b.key = a.key := le_antisymm (not_lt.mp h1) (not_lt.mp h2)
    have hba : Entry.le b a := Entry.le_iff.mpr (.inr ⟨hkey, (not_le.mp h3).le⟩)
    rw [mergeSortedEntries, if_neg h1, if_neg h2, if_neg h3]
    refine List.pairwise_cons.mpr ⟨fun e he => ?_,
      ih (List.pairwise_cons.mp ha).2 (List.pairwise_cons.mp hb).2⟩
    rcases mem_of_mem_merge he with he | he
    · exact IsTrans.trans _ _ _ hba ((List.pairwise_cons.mp ha).1 e he)
    · exact (List.pairwise_cons.mp hb).1 e he

theorem uniqueKeys_merge : ∀ {as bs : List Entry}, UniqueKeys as → UniqueKeys bs →
    UniqueKeys (mergeSortedEntries as bs) := by
  intro as bs
  induction as, bs using mergeSortedEntries.induct with
  | case1 bs => intro _ h; simpa [mergeSortedEntries] using h
  | case2 a as => intro h _; simpa [mergeSortedEntries] using h
  | case3 a as b bs h1 ih =>
    intro ha hb
    rw [mergeSortedEntries, if_pos h1]
    refine List.pairwise_cons.mpr ⟨fun e he => ?_, ih (List.pairwise_cons.mp ha).2 hb⟩
    rcases mem_of_mem_merge he with he | he
    · exact (List.pairwise_cons.mp ha).1 e he
    · exact lt_of_lt_of_le h1 (hb.sorted.key_le e he)
  | case4 a as b bs h1 h2 ih =>
    intro ha hb
    rw [mergeSortedEntries, if_neg h1, if_pos h2]
    refine List.pairwise_cons.mpr ⟨fun e he => ?_, ih ha (List.pairwise_cons.mp hb).2⟩
    rcases mem_of_mem_merge he with he | he
    · exact lt_of_lt_of_le h2 (ha.sorted.key_le e he)
    · exact (List.pairwise_cons.mp hb).1 e he
  | case5 a as b bs h1 h2 h3 ih =>
    intro ha hb
    have hkey : a.key = b.key := le_antisymm (not_lt.mp h2) (not_lt.mp h1)
    rw [mergeSortedEntries, if_neg h1, if_neg h2, if_pos h3]
    refine List.pairwise_cons.mpr ⟨fun e he => ?_,
      ih (List.pairwise_cons.mp ha).2 (List.pairwise_cons.mp hb).2⟩
    rcases mem_of_mem_merge he with he | he
    · exact (List.pairwise_cons.mp ha).1 e he
    · exact hkey ▸ (List.pairwise_cons.mp hb).1 e he
  | case6 a as b bs h1 h2 h3 ih =>
    intro ha hb
    have hkey : b.key = a.key := le_antisymm (not_lt.mp h1) (not_lt.mp h2)
    rw [mergeSortedEntries, if_neg h1, if_neg h2, if_neg h3]
    refine List.pairwise_cons.mpr ⟨fun e he => ?_,
      ih (List.pairwise_cons.mp ha).2 (List.pairwise_cons.mp hb).2⟩
    rcases mem_of_mem_merge he with he | he
    · exact hkey ▸ (List.pairwise_cons.mp ha).1 e he
    · exact (List.pairwise_cons.mp hb).1 e he

/-! ## The newest version -/

/-- The newer of two versions, the first one if they are equally new. -/
def newer : Option Entry → Option Entry → Option Entry
  | none, y => y
  | some x, none => some x
  | some x, some y => if y.seqNo ≤ x.seqNo then some x else some y

@[simp] theorem newer_none_left (y : Option Entry) : newer none y = y := rfl

@[simp] theorem newer_none_right (x : Option Entry) : newer x none = x := by
  cases x <;> rfl

theorem newer_assoc (x y z : Option Entry) : newer (newer x y) z = newer x (newer y z) := by
  cases x with
  | none => rfl
  | some x =>
    cases y with
    | none => simp
    | some y =>
      cases z with
      | none => simp
      | some z =>
        by_cases hxy : y.seqNo ≤ x.seqNo <;> by_cases hyz : z.seqNo ≤ y.seqNo
        · simp [newer, hxy, hyz, hyz.trans hxy]
        · simp [newer, hxy, hyz]
        · simp [newer, hxy, hyz]
        · have hxz : ¬ z.seqNo ≤ x.seqNo := not_le.mpr ((not_le.mp hxy).trans (not_le.mp hyz))
          simp [newer, hxy, hyz, hxz]

theorem newer_eq_or {x y : Option Entry} (h : ∀ a ∈ x, ∀ b ∈ y, b.seqNo ≤ a.seqNo) :
    newer x y = x.or y := by
  cases x with
  | none => rfl
  | some a =>
    cases y with
    | none => rfl
    | some b => exact if_pos (h a rfl b rfl)

/-- The newest version of a key in an unsorted list, the first one of equally new ones. -/
def newest (k : Bytes) (es : List Entry) : Option Entry :=
  (es.filter (·.key = k)).foldr (fun e r => newer (some e) r) none

theorem newest_append (k : Bytes) (as bs : List Entry) :
    newest k (as ++ bs) = newer (newest k as) (newest k bs) := by
  unfold newest
  rw [List.filter_append, List.foldr_append]
  induction as.filter (·.key = k) with
  | nil => rfl
  | cons a as ih => rw [List.foldr_cons, List.foldr_cons, ih, newer_assoc]

/-- Inserting an entry compares it with the first version of its key only. -/
theorem find?_orderedInsert (k : Bytes) (a : Entry) : ∀ {l : List Entry}, Sorted l →
    (l.orderedInsert Entry.le a).find? (·.key = k) =
      if a.key = k then newer (some a) (l.find? (·.key = k)) else l.find? (·.key = k) := by
  intro l
  induction l with
  | nil =>
    intro _
    by_cases hk : a.key = k <;> simp [hk]
  | cons b l ih =>
    intro hl
    obtain ⟨hb, hl'⟩ := List.pairwise_cons.mp hl
    rw [List.orderedInsert_cons]
    by_cases hab : Entry.le a b
    · rw [if_pos hab]
      by_cases hk : a.key = k
      · rw [if_pos hk, List.find?_cons_of_pos (by simpa using hk), newer_eq_or, Option.some_or]
        intro x hx c hc
        obtain rfl := Option.some.inj hx
        have hck : c.key = k := by simpa using List.find?_some hc
        have hac : Entry.le a c := by
          rcases List.mem_cons.mp (List.mem_of_find?_eq_some hc) with h | h
          · exact h ▸ hab
          · exact IsTrans.trans _ _ _ hab (hb c h)
        rcases Entry.le_iff.mp hac with h | ⟨-, h⟩
        · exact absurd (hk.trans hck.symm) h.ne
        · exact h
      · rw [if_neg hk, List.find?_cons_of_neg (by simpa using hk)]
    · rw [if_neg hab, List.find?_cons, ih hl', List.find?_cons]
      by_cases hk : b.key = k
      · by_cases hak : a.key = k
        · have hlt : ¬ b.seqNo ≤ a.seqNo := fun h =>
            hab (Entry.le_iff.mpr (.inr ⟨hak.trans hk.symm, h⟩))
          simp [hk, hak, newer, hlt]
        · simp [hk, hak]
      · simp [hk]

/-- Sorting puts the newest version of a key first. -/
theorem find?_stableSort (k : Bytes) (es : List Entry) :
    (stableSort es).find? (·.key = k) = newest k es := by
  induction es with
  | nil => rfl
  | cons a es ih =>
    have hcons : stableSort (a :: es) = (stableSort es).orderedInsert Entry.le a := rfl
    rw [hcons, find?_orderedInsert k a (sorted_stableSort es), ih]
    by_cases hk : a.key = k <;> simp [newest, hk]

theorem find?_eq_newest {es : List Entry} (h : Sorted es) (k : Bytes) :
    es.find? (·.key = k) = newest k es := by
  rw [← find?_stableSort, stableSort_eq_self h]

theorem find?_sortBuffer (k : Bytes) (es : List Entry) :
    (sortBuffer es).find? (·.key = k) = newest k es := by
  rw [sortBuffer, find?_dedup, find?_stableSort]

theorem newest_mem {k : Bytes} {es : List Entry} {e : Entry} (h : newest k es = some e) :
    e ∈ es ∧ e.key = k ∧ ∀ x ∈ es, x.key = k → x.seqNo ≤ e.seqNo := by
  rw [← find?_stableSort, ← lookupSorted_eq_find? (sorted_stableSort es)] at h
  simpa using lookupSorted_eq_some (sorted_stableSort es) h

theorem newest_eq_none {k : Bytes} {es : List Entry} (h : newest k es = none) :
    ∀ x ∈ es, x.key ≠ k := by
  rw [← find?_stableSort, List.find?_eq_none] at h
  simpa using h

/-- **The first version of a key after a merge** is the newer of the two first versions. -/
theorem find?_mergeSortedEntries {k : Bytes} : ∀ {as bs : List Entry}, Sorted as → Sorted bs →
    (mergeSortedEntries as bs).find? (·.key = k) =
      newer (as.find? (·.key = k)) (bs.find? (·.key = k)) := by
  have hnone : ∀ {a : Entry} {as : List Entry}, Sorted (a :: as) → k < a.key →
      (a :: as).find? (·.key = k) = none := by
    intro a as ha hk
    refine List.find?_eq_none.mpr fun e he => ?_
    simpa using (lt_of_lt_of_le hk (ha.key_le e he)).ne'
  intro as bs
  induction as, bs using mergeSortedEntries.induct with
  | case1 bs => intro _ _; simp [mergeSortedEntries]
  | case2 a as => intro _ _; simp [mergeSortedEntries]
  | case3 a as b bs h1 ih =>
    intro ha hb
    rw [mergeSortedEntries, if_pos h1, List.find?_cons, ih (List.pairwise_cons.mp ha).2 hb]
    by_cases hk : a.key = k
    · simp [hk, hnone hb (hk ▸ h1)]
    · simp [hk]
  | case4 a as b bs h1 h2 ih =>
    intro ha hb
    rw [mergeSortedEntries, if_neg h1, if_pos h2, List.find?_cons, ih ha (List.pairwise_cons.mp hb).2]
    by_cases hk : b.key = k
    · simp [hk, hnone ha (hk ▸ h2)]
    · simp [hk]
  | case5 a as b bs h1 h2 h3 ih =>
    intro ha hb
    have hkey : a.key = b.key := le_antisymm (not_lt.mp h2) (not_lt.mp h1)
    rw [mergeSortedEntries, if_neg h1, if_neg h2, if_pos h3, List.find?_cons,
      ih (List.pairwise_cons.mp ha).2 (List.pairwise_cons.mp hb).2]
    by_cases hk : a.key = k
    · simp [hk, hkey ▸ hk, newer, h3]
    · simp [hk, hkey ▸ hk]
  | case6 a as b bs h1 h2 h3 ih =>
    intro ha hb
    have hkey : a.key = b.key := le_antisymm (not_lt.mp h2) (not_lt.mp h1)
    rw [mergeSortedEntries, if_neg h1, if_neg h2, if_neg h3, List.find?_cons,
      ih (List.pairwise_cons.mp ha).2 (List.pairwise_cons.mp hb).2]
    by_cases hk : a.key = k
    · simp [hk, hkey ▸ hk, newer, h3]
    · simp [hk, hkey ▸ hk]

/-- What a lookup finds in a merged buffer. -/
theorem lookupSorted_merge {as bs : List Entry} (ha : Sorted as) (hb : Sorted bs) {k : Bytes}
    (h : ∀ e ∈ as, ∀ e' ∈ bs, e.key = k → e'.key = k → e'.seqNo ≤ e.seqNo) :
    lookupSorted (sortBuffer (mergeSortedEntries as bs)) k =
      (lookupSorted as k).or (lookupSorted bs k) := by
  rw [lookupSorted_sortBuffer (sorted_merge ha hb), lookupSorted_eq_find? (sorted_merge ha hb),
    find?_mergeSortedEntries ha hb, lookupSorted_eq_find? ha, lookupSorted_eq_find? hb, newer_eq_or]
  intro e he e' he'
  have hmem : ∀ {es : List Entry} {e : Entry}, e ∈ es.find? (·.key = k) → e ∈ es ∧ e.key = k :=
    fun he => ⟨List.mem_of_find?_eq_some he, by simpa using List.find?_some he⟩
  exact h e (hmem he).1 e' (hmem he').1 (hmem he).2 (hmem he').2

/-! ## Partitions -/

theorem partitionEntries_fold (mins : List Bytes) (es : List Entry) :
    ∀ (bs : List (List Entry)),
    (es.foldl (fun bs e => bs.modify (targetChild mins e.key) (· ++ [e])) bs).length = bs.length ∧
    ∀ i, (es.foldl (fun bs e => bs.modify (targetChild mins e.key) (· ++ [e])) bs)[i]? =
      bs[i]?.map (· ++ es.filter fun e => targetChild mins e.key = i) := by
  induction es with
  | nil => intro bs; simp
  | cons e es ih =>
    intro bs
    obtain ⟨hlen, hget⟩ := ih (bs.modify (targetChild mins e.key) (· ++ [e]))
    refine ⟨by simpa using hlen, fun i => ?_⟩
    rw [List.foldl_cons, hget i, List.getElem?_modify, List.filter_cons]
    by_cases hi : targetChild mins e.key = i
    · cases bs[i]? <;> simp [hi]
    · simp [hi]

theorem length_partitionEntries (es : List Entry) (cs : List SSTNode) :
    (partitionEntries es cs).length = cs.length := by
  simpa [partitionEntries] using (partitionEntries_fold _ es (List.replicate cs.length [])).1

/-- The bucket of a child holds the entries whose target it is. -/
theorem getElem?_partitionEntries (es : List Entry) (cs : List SSTNode) {i : Nat}
    (hi : i < cs.length) : (partitionEntries es cs)[i]? =
      some (es.filter fun e => targetChild (cs.map (·.keyRange.minKey)) e.key = i) := by
  have := (partitionEntries_fold (cs.map (·.keyRange.minKey)) es (List.replicate cs.length [])).2 i
  rw [partitionEntries, this, List.getElem?_replicate, if_pos hi]
  simp

/-- The scan from the right ends at the position of the key. -/
theorem position_targetChild (mins : List Bytes) (k : Bytes) :
    Fence.Position mins k (targetChild mins k) := by
  have hget : ∀ {i m}, mins[i]? = some m → mins.getD i .empty = m := fun h => by simp [h]
  unfold targetChild
  cases hf : (List.range mins.length).reverse.find? fun i => mins.getD i .empty ≤ k with
  | none =>
    refine .inr ⟨rfl, fun m hm => ?_⟩
    obtain ⟨i, hi, rfl⟩ := List.getElem_of_mem hm
    simpa [hi] using List.find?_eq_none.mp hf i (by simpa using hi)
  | some i =>
    obtain ⟨hle, as, bs, hrev, hno⟩ := List.find?_eq_some_iff_append.mp hf
    have hle : mins.getD i .empty ≤ k := by simpa using hle
    have hi : i < mins.length := by
      have : i ∈ (List.range mins.length).reverse := hrev ▸ by simp
      simpa using this
    show Fence.Position mins k i
    refine .inl ⟨mins[i], by simp [hi], by simpa [hi] using hle, fun j m hij hm => ?_⟩
    -- the larger positions come first in the scan from the right
    have hmem : j ∈ as := by
      have hj : j ∈ as ++ i :: bs :=
        hrev ▸ by simpa using (List.getElem?_eq_some_iff.mp hm).1
      have hdesc : (as ++ i :: bs).Pairwise (· > ·) := by
        rw [← hrev, List.pairwise_reverse]
        exact List.pairwise_lt_range
      rcases List.mem_append.mp hj with h | h
      · exact h
      · rcases List.mem_cons.mp h with rfl | h
        · omega
        · have := (List.pairwise_cons.mp (List.pairwise_append.mp hdesc).2.1).1 j h
          omega
    have := hno j hmem
    rw [hget hm] at this
    simpa using this

/-- **Write routing**: the target of a key is the child the key belongs to. -/
theorem owns_targetChild {ι : Type*} (fence : ι → Bytes) {row : List ι} (hne : row ≠ [])
    (k : Bytes) : ∃ x, row[targetChild (row.map fence) k]? = some x ∧ Fence.Owns fence row k x := by
  have hpos := position_targetChild (row.map fence) k
  have hlt : targetChild (row.map fence) k < row.length := by
    simpa using hpos.lt_length (by simpa using hne)
  exact ⟨_, List.getElem?_eq_getElem hlt, hpos.owns (List.getElem?_eq_getElem hlt)⟩

end GravTree
