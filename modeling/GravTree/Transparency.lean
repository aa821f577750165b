import GravTree.Agreement
import GravTree.Proof.Scan

/-!
# Which nodes are cached

`get_node` loads what it needs, so `get` does not depend on which nodes happen to be
cached. `range_scan` is commented as collecting "from on-disk nodes", and takes the
nodes of `cache_` only: what nobody has loaded yet is left out.

Two states with the same files are told apart by a range scan exactly if, for some
key, the newest live version among what they have in memory is not the same.
-/

namespace GravTree

/-! ## The walk of `get` in two worlds -/

section Alike

variable {R : World → World → Prop}

theorem nextChild_alike (hR : ∀ x, Act.Alike R (getNode x)) (k : Bytes) (ids : List NodeId) :
    ∀ next, Act.Alike R (nextChild k next ids) := by
  induction ids with
  | nil => exact fun next => Act.Alike.pure next
  | cons id ids ih =>
    intro next
    refine (hR id).bind fun child => ?_
    split
    · exact ih id
    · exact Act.Alike.pure next

theorem findPathFrom_alike (hR : ∀ x, Act.Alike R (getNode x)) (k : Bytes) (fuel : Nat) :
    ∀ cur, Act.Alike R (findPathFrom k fuel cur) := by
  induction fuel with
  | zero => exact fun _ => Act.Alike.fail _
  | succ fuel ih =>
    intro cur
    refine (hR cur).bind fun node => ?_
    split
    · exact Act.Alike.pure _
    · exact (nextChild_alike hR k _ _).bind fun next => (ih next).bind fun _ => Act.Alike.pure _

theorem searchPath_alike (hR : ∀ x, Act.Alike R (getNode x)) (k : Bytes) (path : List NodeId) :
    Act.Alike R (searchPath k path) := by
  induction path with
  | nil => exact Act.Alike.pure none
  | cons nid rest ih =>
    refine (hR nid).bind fun node => ?_
    split
    · exact ih
    · split
      · exact Act.Alike.pure _
      · exact ih

/-- Worlds where `get_node` acts alike, over one root of one height. -/
theorem getFromTree_alike (hR : ∀ x, Act.Alike R (getNode x))
    (hroot : ∀ w w', R w w' → (w.height, w.manifest.rootId) = (w'.height, w'.manifest.rootId))
    (k : Bytes) : Act.Alike R (getFromTree k) := by
  refine Act.Alike.bind ?_ fun path => searchPath_alike hR k path
  exact Act.Alike.read hroot fun p => findPathFrom_alike hR k p.1 p.2

end Alike

/-! ## Twins -/

/-- The same manifest, files and root. Every other cached node is as its file has it, but
different nodes may be cached. -/
structure Twin (w w' : World) : Prop where
  manifest : w'.manifest = w.manifest
  disk : w'.disk = w.disk
  root : ∃ r, w.cache.lookup w.manifest.rootId = some r ∧
    w'.cache.lookup w.manifest.rootId = some r ∧ r.entriesLoaded = true
  left : ∀ {x n}, x ≠ w.manifest.rootId → w.cache.lookup x = some n → w.onFile x = some n
  right : ∀ {x n}, x ≠ w.manifest.rootId → w'.cache.lookup x = some n → w.onFile x = some n

namespace Twin

variable {w w' : World}

theorem onFile (T : Twin w w') (x : NodeId) : w'.onFile x = w.onFile x := by
  rw [Store.onFile, Store.onFile, T.manifest, T.disk]

theorem symm (T : Twin w w') : Twin w' w where
  manifest := T.manifest.symm
  disk := T.disk.symm
  root := by
    obtain ⟨r, h, h', hl⟩ := T.root
    exact ⟨r, T.manifest ▸ h', T.manifest ▸ h, hl⟩
  left hx h := (T.onFile _).trans (T.right (T.manifest ▸ hx) h)
  right hx h := (T.onFile _).trans (T.left (T.manifest ▸ hx) h)

theorem seen (T : Twin w w') (x : NodeId) : w'.seen x = w.seen x := by
  unfold Store.seen
  rw [T.onFile]
  by_cases hx : x = w.manifest.rootId
  · obtain ⟨r, h, h', -⟩ := T.root
    rw [hx, h, h']
  · -- what is cached on one side is on file on both
    cases hw : w.cache.lookup x with
    | some n =>
      rw [T.left hx hw]
      cases hw' : w'.cache.lookup x with
      | some n' => rw [← T.right hx hw', T.left hx hw, Option.or_self]
      | none => rfl
    | none =>
      cases hw' : w'.cache.lookup x with
      | some n' => rw [T.right hx hw', Option.or_self, Option.none_or]
      | none => rfl

/-- Loading a node keeps the worlds twins. -/
theorem loading (T : Twin w w') (x : NodeId) : Twin (w.loading x) w' := by
  unfold World.loading
  split
  · rename_i n hc hf
    obtain ⟨r, h, h', hl⟩ := T.root
    have hx : w.manifest.rootId ≠ x := by
      rintro rfl
      simp [hc] at h
    refine ⟨T.manifest, T.disk, ⟨r, ?_, h', hl⟩, fun {y m} hy hm => ?_, T.right⟩
    · exact (World.cache_setNode w x w.manifest.rootId n).trans ((if_neg hx).trans h)
    · rw [World.cache_setNode] at hm
      by_cases hyx : y = x
      · subst hyx
        rw [if_pos rfl] at hm
        exact hf.trans hm
      · rw [if_neg hyx] at hm
        exact T.left hy hm
  · exact T

theorem height (T : Twin w w') : w'.height = w.height := by
  obtain ⟨r, h, h', -⟩ := T.root
  rw [World.height, World.height, T.manifest, h, h']

theorem loaded (T : Twin w w') : w.Loaded := by
  intro x n h
  by_cases hx : x = w.manifest.rootId
  · obtain ⟨r, hr, -, hl⟩ := T.root
    rw [hx, hr] at h
    exact Option.some.inj h ▸ hl
  · have hf := T.left hx h
    simp only [Store.onFile, Option.bind_eq_some_iff, Option.map_eq_some_iff] at hf
    obtain ⟨_, -, _, -, rfl⟩ := hf
    rfl

end Twin

theorem getNode_twin (x : NodeId) : Act.Alike Twin (getNode x) := by
  intro w w' T
  cases h : w.seen x with
  | some n =>
    have h' : w'.seen x = some n := (T.seen x).trans h
    exact .inl ⟨n, _, _, getNode_seen h, getNode_seen h', ((T.loading x).symm.loading x).symm⟩
  | none =>
    obtain ⟨m, hm⟩ := getNode_unseen h
    obtain ⟨m', hm'⟩ := getNode_unseen ((T.seen x).trans h)
    have hmissing : w'.missing x = w.missing x := by
      rw [World.missing, World.missing, T.manifest]
    exact .inr ⟨_, m, m', hm, hmissing ▸ hm'⟩

/-- **`get`** does not depend on what is cached. -/
theorem getFromTree_twin (k : Bytes) : Act.Alike Twin (getFromTree k) :=
  getFromTree_alike getNode_twin (fun w w' T => by rw [T.height, T.manifest]) k

/-- Reading a key leaves a twin of the world it found. -/
theorem Twin.read {w : World} (T : Twin w w) {k : Bytes} {r : Option Bytes}
    (h : Act.eval (getFromTree k) ⟨w, none⟩ = .ok r) :
    Twin w (Act.exec (getFromTree k) ⟨w, none⟩) := by
  have hget : ∀ x, Act.Alike (fun u u' => Twin w u ∧ u' = u) (getNode x) := by
    rintro x u u' ⟨hu, hu'⟩
    rw [hu']
    cases h : u.seen x with
    | some n =>
      exact .inl ⟨n, _, _, getNode_seen h, getNode_seen h, (hu.symm.loading x).symm, rfl⟩
    | none =>
      obtain ⟨m, hm⟩ := getNode_unseen h
      exact .inr ⟨_, m, m, hm, hm⟩
  have hall : Act.Alike (fun u u' => Twin w u ∧ u' = u) (getFromTree k) :=
    getFromTree_alike hget (fun _ _ hu => by rw [hu.2]) k
  rcases hall w w ⟨T, rfl⟩ with ⟨a, u, _, hx, -, hu, -⟩ | ⟨e, m, _, hx, -⟩
  · rwa [Act.exec, hx]
  · simp [Act.eval, hx] at h

/-- Two states with the same write buffer over twin worlds. -/
structure Db.Twins (a b : Db) : Prop where
  writeBuf : b.writeBuf = a.writeBuf
  world : Twin a.world b.world

/-- The state a `get` leaves. -/
def Db.reading (db : Db) (k : Bytes) : Db :=
  { db with world := Act.exec (getFromTree k) ⟨db.world, none⟩ }

/-- Where only the root is cached, a `get` leaves a twin. -/
theorem Db.twins_reading {db : Db}
    (hkeys : db.world.cache.keys = [db.world.manifest.rootId])
    (hroot : (db.world.cache.lookup db.world.manifest.rootId).any (·.entriesLoaded)) {k : Bytes}
    (hget : (Act.eval (getFromTree k) ⟨db.world, none⟩).toOption.isSome) :
    db.Twins (db.reading k) := by
  have honly : ∀ {x n}, x ≠ db.world.manifest.rootId → db.world.cache.lookup x = some n →
      db.world.onFile x = some n := by
    intro x n hx h
    have hmem : x ∈ db.world.cache.keys :=
      AList.mem_keys.mp (AList.lookup_isSome.mp (by rw [h]; rfl))
    rw [hkeys] at hmem
    exact absurd (List.mem_singleton.mp hmem) hx
  obtain ⟨r, hr, hl⟩ := (Option.any_eq_true _ _).mp hroot
  have T : Twin db.world db.world := ⟨rfl, rfl, ⟨r, hr, hr, hl⟩, honly, honly⟩
  refine ⟨rfl, ?_⟩
  cases h : Act.eval (getFromTree k) ⟨db.world, none⟩ with
  | error e => simp [h, Except.toOption] at hget
  | ok v => exact T.read h

/-- A session that splits the root is closed, and the directory is opened again. -/
def reopened : Except Exc Db := ((Db.start fun _ => (64, 7)).run (round [10, 20])).reopen

theorem twins_reopened : ∃ a, reopened = .ok a ∧ a.Twins (a.reading (.byte 10)) ∧
    (a.rangeScan (.byte 0) (.byte 255)).toOption.any (·.length = 0) ∧
    ((a.reading (.byte 10)).rangeScan (.byte 0) (.byte 255)).toOption.any (·.length = 2) := by
  have hchecks : reopened.toOption.any fun a =>
      decide (a.world.cache.keys = [a.world.manifest.rootId]) &&
        (a.world.cache.lookup a.world.manifest.rootId).any (·.entriesLoaded) &&
        (Act.eval (getFromTree (.byte 10)) ⟨a.world, none⟩).toOption.isSome &&
        (a.rangeScan (.byte 0) (.byte 255)).toOption.any (·.length = 0) &&
        ((a.reading (.byte 10)).rangeScan (.byte 0) (.byte 255)).toOption.any (·.length = 2) := by
    decide +kernel
  obtain ⟨a, ha, h⟩ := (Option.any_eq_true _ _).mp hchecks
  simp only [Bool.and_eq_true, decide_eq_true_eq] at h
  obtain ⟨⟨⟨⟨hkeys, hroot⟩, hget⟩, hnone⟩, htwo⟩ := h
  refine ⟨a, ?_, Db.twins_reading hkeys hroot hget, hnone, htwo⟩
  cases h : reopened with
  | error e => simp [h, Except.toOption] at ha
  | ok b => simpa [h, Except.toOption] using ha

/-- **Two twin states** answer alike exactly if each key has the same newest live version
among what they have in memory. -/
theorem transparent_iff (a b : Db) (T : a.Twins b) :
    ((∀ k, a.get k = b.get k) ∧ ∀ start stop, a.rangeScan start stop = b.rangeScan start stop) ↔
      ∀ k, newestLive k a.scanned = newestLive k b.scanned := by
  have hget : ∀ k, a.get k = b.get k := by
    intro k
    rw [Db.get, Db.get, T.writeBuf, (getFromTree_twin k).eval_eq T.world]
  have hla := T.world.loaded
  have hlb := T.world.symm.loaded
  constructor
  · rintro ⟨-, h⟩ k
    -- a scan of the range from `k` to `k` returns the newest live version, if there is one
    have hone : ∀ (db : Db), db.world.Loaded → ∀ e, newestLive k db.scanned = some e ↔
        e.key = k ∧ ∃ es, db.rangeScan k k = .ok es ∧ e ∈ es := by
      intro db hl e
      obtain ⟨es, hes, -, hmem⟩ := db.mem_rangeScan hl k k
      constructor
      · intro he
        obtain ⟨-, rfl, -⟩ := newestLive_mem he
        exact ⟨rfl, es, hes, (hmem e).mpr ⟨le_rfl, le_rfl, he⟩⟩
      · rintro ⟨rfl, es', hes', he⟩
        obtain rfl : es = es' := by simpa using hes.symm.trans hes'
        exact ((hmem e).mp he).2.2
    refine Option.ext fun e => ?_
    rw [hone a hla, hone b hlb, h]
  · intro h
    refine ⟨hget, fun start stop => ?_⟩
    obtain ⟨es, hes, hasc, hmem⟩ := a.mem_rangeScan hla start stop
    obtain ⟨es', hes', hasc', hmem'⟩ := b.mem_rangeScan hlb start stop
    rw [hes, hes', eq_of_ascending hasc hasc' fun e => by rw [hmem, hmem', h]]

/-- The read put two leaves into the cache. -/
theorem transparent_reopened_iff : ∃ a b : Db, a.Twins b ∧
    (((∀ k, a.get k = b.get k) ∧
      ∀ start stop, a.rangeScan start stop = b.rangeScan start stop) ↔
        ∀ k, newestLive k a.scanned = newestLive k b.scanned) := by
  obtain ⟨a, -, T, -⟩ := twins_reopened
  exact ⟨a, a.reading (.byte 10), T, transparent_iff a _ T⟩

/-- Before the read the scan finds neither key, afterwards it finds both. -/
theorem transparent_reopened : ¬ ∀ a b : Db, a.Twins b →
    (∀ k, a.get k = b.get k) ∧ ∀ start stop, a.rangeScan start stop = b.rangeScan start stop := by
  intro h
  obtain ⟨a, -, T, hnone, htwo⟩ := twins_reopened
  rw [← (h a _ T).2] at htwo
  cases hs : a.rangeScan (.byte 0) (.byte 255) with
  | error e => simp [hs, Except.toOption] at hnone
  | ok es => simp_all [Except.toOption]

end GravTree
