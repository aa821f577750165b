import GravTree.Session
import GravTree.Proof.Serve

/-!
# What a range scan returns

`range_scan` sorts what it collects and skips an entry when it has just returned one
of its key, or when it is a tombstone. So it returns the newest live version of every
key in the range, whether or not a newer tombstone was collected as well.
-/

namespace GravTree

/-- The later of `e` and an entry that comes after it, `e` if they are equally new. -/
def Entry.newer (e : Entry) : Option Entry → Entry
  | some f => if f.seqNo ≤ e.seqNo then e else f
  | none => e

/-- The live version of `key` with the largest sequence number, the first of several. -/
def newestLive (key : Bytes) : List Entry → Option Entry
  | [] => none
  | e :: es =>
    if e.key = key ∧ e.deleted = false then some (e.newer (newestLive key es))
    else newestLive key es

section NewestLive

variable {k : Bytes} {e : Entry} {es : List Entry}

theorem newestLive_live (h : e.key = k ∧ e.deleted = false) :
    newestLive k (e :: es) = some (e.newer (newestLive k es)) := if_pos h

theorem newestLive_skip (h : ¬ (e.key = k ∧ e.deleted = false)) :
    newestLive k (e :: es) = newestLive k es := if_neg h

theorem Entry.le_newer (e : Entry) (r : Option Entry) : e.seqNo ≤ (e.newer r).seqNo := by
  cases r with
  | none => exact le_rfl
  | some f =>
    simp only [Entry.newer]
    split
    · exact le_rfl
    · rename_i h
      exact le_of_not_ge h

theorem Entry.newer_le (e : Entry) {f : Entry} : f.seqNo ≤ (e.newer (some f)).seqNo := by
  simp only [Entry.newer]
  split
  · assumption
  · exact le_rfl

theorem Entry.newer_eq_self {r : Option Entry} (h : ∀ f ∈ r, f.seqNo ≤ e.seqNo) :
    e.newer r = e := by
  cases r with
  | none => rfl
  | some f => exact if_pos (h f rfl)

/-- An older entry gives way, wherever it stands. -/
theorem Entry.newer_comm {a b : Entry} (h : a.seqNo < b.seqNo) (r : Option Entry) :
    b.newer (some (a.newer r)) = a.newer (some (b.newer r)) := by
  cases r with
  | none => simp only [Entry.newer]; grind
  | some f => simp only [Entry.newer]; grind

theorem newestLive_mem (h : newestLive k es = some e) :
    e ∈ es ∧ e.key = k ∧ e.deleted = false := by
  induction es with
  | nil => exact nomatch h
  | cons a es ih =>
    by_cases ha : a.key = k ∧ a.deleted = false
    · rw [newestLive_live ha] at h
      cases hr : newestLive k es with
      | none =>
        rw [hr] at h
        cases h
        exact ⟨List.mem_cons_self .., ha⟩
      | some f =>
        rw [hr, Option.some.injEq, Entry.newer] at h
        split at h
        · cases h
          exact ⟨List.mem_cons_self .., ha⟩
        · cases h
          obtain ⟨hf, hk⟩ := ih hr
          exact ⟨List.mem_cons_of_mem _ hf, hk⟩
    · rw [newestLive_skip ha] at h
      obtain ⟨he, hk⟩ := ih h
      exact ⟨List.mem_cons_of_mem _ he, hk⟩

/-- It is there if there is a live version, and no live version is newer. -/
theorem newestLive_of_mem {f : Entry} (hf : f ∈ es) (hk : f.key = k) (hd : f.deleted = false) :
    ∃ e, newestLive k es = some e ∧ f.seqNo ≤ e.seqNo := by
  induction es with
  | nil => cases hf
  | cons a es ih =>
    by_cases ha : a.key = k ∧ a.deleted = false
    · rw [newestLive_live ha]
      refine ⟨_, rfl, ?_⟩
      rcases List.mem_cons.mp hf with rfl | hf
      · exact Entry.le_newer ..
      · obtain ⟨e, he, hle⟩ := ih hf
        exact he ▸ hle.trans (Entry.newer_le a)
    · rw [newestLive_skip ha]
      rcases List.mem_cons.mp hf with rfl | hf
      · exact absurd ⟨hk, hd⟩ ha
      · exact ih hf

theorem newestLive_filter (p : Entry → Bool) (hp : ∀ e, e.key = k → p e = true) :
    newestLive k (es.filter p) = newestLive k es := by
  induction es with
  | nil => rfl
  | cons a es ih =>
    by_cases ha : a.key = k ∧ a.deleted = false
    · rw [List.filter_cons_of_pos (hp a ha.1), newestLive_live ha, newestLive_live ha, ih]
    · rw [newestLive_skip ha, ← ih]
      by_cases hpa : p a = true
      · rw [List.filter_cons_of_pos hpa, newestLive_skip ha]
      · rw [List.filter_cons_of_neg hpa]

/-- Sorting is stable, so it does not change which version comes first. -/
theorem newestLive_orderedInsert (a : Entry) :
    newestLive k (es.orderedInsert Entry.le a) = newestLive k (a :: es) := by
  induction es with
  | nil => rfl
  | cons b es ih =>
    by_cases hab : Entry.le a b
    · rw [List.orderedInsert_cons_of_le _ _ hab]
    · rw [List.orderedInsert_of_not_le _ _ hab]
      have hba : b < a := not_not.mp hab
      by_cases hb : b.key = k ∧ b.deleted = false
      · rw [newestLive_live hb, ih]
        by_cases ha : a.key = k ∧ a.deleted = false
        · -- both are versions of the key, and `b` sorts first: it is newer
          have hlt : a.seqNo < b.seqNo := by
            rcases Entry.lt_iff.mp hba with h | ⟨-, h⟩
            · exact absurd (hb.1.trans ha.1.symm) (ne_of_lt h)
            · exact h
          rw [newestLive_live ha, newestLive_live ha, newestLive_live hb, Entry.newer_comm hlt]
        · rw [newestLive_skip ha, newestLive_skip ha, newestLive_live hb]
      · rw [newestLive_skip hb, ih]
        by_cases ha : a.key = k ∧ a.deleted = false
        · rw [newestLive_live ha, newestLive_live ha, newestLive_skip hb]
        · rw [newestLive_skip ha, newestLive_skip ha, newestLive_skip hb]

theorem newestLive_stableSort (k : Bytes) (es : List Entry) :
    newestLive k (stableSort es) = newestLive k es := by
  induction es with
  | nil => rfl
  | cons a es ih =>
    rw [stableSort, List.insertionSort_cons, newestLive_orderedInsert]
    by_cases ha : a.key = k ∧ a.deleted = false
    · rw [newestLive_live ha, newestLive_live ha, ← ih, stableSort]
    · rw [newestLive_skip ha, newestLive_skip ha, ← ih, stableSort]

end NewestLive

/-! ## The skip rule -/

/-- In a sorted list the first live version of a key is the newest. -/
theorem newestLive_head {e : Entry} {es : List Entry} (h : Sorted (e :: es))
    (hd : e.deleted = false) : newestLive e.key (e :: es) = some e := by
  rw [newestLive_live ⟨rfl, hd⟩, Entry.newer_eq_self]
  intro f hf
  obtain ⟨hm, hk, -⟩ := newestLive_mem hf
  rcases Entry.le_iff.mp (List.rel_of_pairwise_cons h hm) with hlt | ⟨-, hle⟩
  · exact absurd hk.symm (ne_of_lt hlt)
  · exact hle

/-- **The skip rule** keeps the newest live version of each key but the last one's. -/
theorem mem_skipOlder {e : Entry} : ∀ {es : List Entry} {last : Option Bytes}, Sorted es →
    (∀ k ∈ last, ∀ f ∈ es, k ≤ f.key) →
    (e ∈ skipOlder last es ↔ last ≠ some e.key ∧ newestLive e.key es = some e) := by
  intro es
  induction es with
  | nil => simp [skipOlder, newestLive]
  | cons a es ih =>
    intro last hs hlast
    have hs' : Sorted es := hs.of_cons
    have hlast' : ∀ k ∈ last, ∀ f ∈ es, k ≤ f.key :=
      fun k hk f hf => hlast k hk f (List.mem_cons_of_mem _ hf)
    rw [skipOlder]
    split
    · rename_i hla
      rw [ih hs' hlast']
      refine and_congr_right fun hne => ?_
      rw [newestLive_skip fun h => hne (hla.trans (congrArg some h.1))]
    · rename_i hla
      split
      · rename_i hd
        rw [ih hs' hlast', newestLive_skip (by simp [hd])]
      · rename_i hd
        have hd : a.deleted = false := by simpa using hd
        have hle : ∀ f ∈ es, a.key ≤ f.key := fun f hf => hs.key_le f (List.mem_cons_of_mem _ hf)
        rw [List.mem_cons, ih hs' fun k hk f hf => Option.some.inj hk ▸ hle f hf]
        constructor
        · rintro (rfl | ⟨hne, he⟩)
          · exact ⟨hla, newestLive_head hs hd⟩
          · refine ⟨fun h => ?_, ?_⟩
            · have h1 := hlast _ h a (List.mem_cons_self ..)
              have h2 := hle e (newestLive_mem he).1
              exact hne (congrArg some (le_antisymm h2 h1))
            · rwa [newestLive_skip fun h => hne (congrArg some h.1)]
        · rintro ⟨hne, he⟩
          by_cases hk : a.key = e.key
          · rw [← hk, newestLive_head hs hd] at he
            exact .inl (Option.some.inj he).symm
          · refine .inr ⟨fun h => hk (Option.some.inj h), ?_⟩
            rwa [newestLive_skip fun h => hk h.1] at he

/-- What is returned has strictly ascending keys, all after the last one's. -/
theorem ascending_skipOlder : ∀ {es : List Entry} {last : Option Bytes}, Sorted es →
    (skipOlder last es).Pairwise (·.key < ·.key) := by
  intro es
  induction es with
  | nil => exact fun _ => List.Pairwise.nil
  | cons a es ih =>
    intro last hs
    rw [skipOlder]
    split
    · exact ih hs.of_cons
    · split
      · exact ih hs.of_cons
      · refine List.pairwise_cons.mpr ⟨fun f hf => ?_, ih hs.of_cons⟩
        have hle : ∀ g ∈ es, a.key ≤ g.key := fun g hg => hs.key_le g (List.mem_cons_of_mem _ hg)
        have hmem := (mem_skipOlder hs.of_cons fun k hk g hg =>
          Option.some.inj hk ▸ hle g hg).mp hf
        refine lt_of_le_of_ne (hle f (newestLive_mem hmem.2).1) fun h => hmem.1 (congrArg some h)

/-! ## The scan -/

/-- What `range_scan` can see of the tree. -/
def World.cachedEntries (w : World) : List Entry :=
  w.cache.keys.flatMap fun x => (w.cache.lookup x).elim [] (·.buffer)

/-- What `range_scan` collects, before it looks at the range. -/
def Db.scanned (db : Db) : List Entry := db.writeBuf.entries ++ db.world.cachedEntries

/-- Every cached node has its entries. -/
def World.Loaded (w : World) : Prop :=
  ∀ x n, w.cache.lookup x = some n → n.entriesLoaded = true

theorem scanCache_reads {w : World} (hw : w.Loaded) (start stop : Bytes) :
    ∀ {ids : List NodeId}, (∀ x ∈ ids, w.cache.lookup x ≠ none) →
      Act.Reads (scanCache start stop ids) w
        ((ids.flatMap fun x => (w.cache.lookup x).elim [] (·.buffer)).filter
          fun e => start ≤ e.key ∧ e.key ≤ stop) := by
  intro ids
  induction ids with
  | nil => exact fun _ => Act.Runs.pure _ w
  | cons x ids ih =>
    intro h
    obtain ⟨hx, hids⟩ := List.forall_mem_cons.mp h
    obtain ⟨n, hn⟩ := Option.ne_none_iff_exists'.mp hx
    have hl := hw x n hn
    have hload : Act.Reads n.loadEntries w n := by
      unfold SSTNode.loadEntries
      rw [if_pos hl]
      exact Act.Runs.pure n w
    refine Act.Reads.bind (getNode_reads hn) (Act.Reads.bind hload ?_)
    rw [hl]
    refine Act.Reads.bind (ih hids) ?_
    rw [List.flatMap_cons, List.filter_append, hn]
    exact Act.Runs.pure _ w

/-- **`range_scan`** sorts what is in the write buffer and in the cache and applies the
skip rule. -/
theorem Db.rangeScan_eq (db : Db) (hw : db.world.Loaded) (start stop : Bytes) :
    db.rangeScan start stop = .ok (skipOlder none
      (stableSort (db.scanned.filter fun e => start ≤ e.key ∧ e.key ≤ stop))) := by
  have hkeys : ∀ x ∈ db.world.cache.keys, db.world.cache.lookup x ≠ none := by
    intro x hx
    exact Option.isSome_iff_ne_none.mp (AList.lookup_isSome.mpr (AList.mem_keys.mpr hx))
  have h : Act.Reads (rangeScanTree db.writeBuf.entries start stop) db.world
      (skipOlder none (stableSort (db.writeBuf.entries.filter
        (fun e => start ≤ e.key ∧ e.key ≤ stop) ++
          db.world.cachedEntries.filter fun e => start ≤ e.key ∧ e.key ≤ stop))) :=
    Act.Runs.world_bind (Act.Reads.bind (scanCache_reads hw start stop hkeys) (Act.Runs.pure _ _))
  rw [Db.rangeScan, h.eval_eq, Db.scanned, List.filter_append]

/-- **Who is returned**: the newest live versions in the range. -/
theorem Db.mem_rangeScan (db : Db) (hw : db.world.Loaded) (start stop : Bytes) :
    ∃ es, db.rangeScan start stop = .ok es ∧ es.Pairwise (·.key < ·.key) ∧
      ∀ e, e ∈ es ↔ start ≤ e.key ∧ e.key ≤ stop ∧ newestLive e.key db.scanned = some e := by
  refine ⟨_, db.rangeScan_eq hw start stop, ascending_skipOlder (sorted_stableSort _), fun e => ?_⟩
  rw [mem_skipOlder (sorted_stableSort _) (by simp), newestLive_stableSort]
  simp only [ne_eq, reduceCtorEq, not_false_eq_true, true_and]
  constructor
  · intro h
    obtain ⟨hm, -⟩ := newestLive_mem h
    have hr := (List.mem_filter.mp hm).2
    simp only [decide_eq_true_eq] at hr
    refine ⟨hr.1, hr.2, ?_⟩
    rwa [newestLive_filter] at h
    intro f hf
    simpa [hf] using hr
  · rintro ⟨h1, h2, h⟩
    rw [newestLive_filter]
    · exact h
    · intro f hf
      simp [hf, h1, h2]

end GravTree
