import GravTree.Reads
import GravTree.Proof.Scan

/-!
# Range scans and `get`

Within a session every node is cached, so a range scan collects every version there is.
Its skip rule passes over tombstones without remembering their keys: an older live version
that has not been merged away is returned although `get` finds the key removed.
-/

namespace GravTree

/-- `range_scan` returns each key of the range that `get` finds a value for, once, in order. -/
def ScanAgrees (db : Db) (start stop : Bytes) : Prop :=
  ∃ es, db.rangeScan start stop = .ok es ∧ es.Pairwise (·.key < ·.key) ∧
    ∀ k v, (∃ e ∈ es, e.key = k ∧ e.value = v) ↔
      start ≤ k ∧ k ≤ stop ∧ db.get k = .ok (some v)

/-- The newest version of the key in memory is a tombstone, and there is a live one. -/
def Db.Haunted (db : Db) (key : Bytes) : Prop :=
  ∃ t ∈ db.scanned, t.key = key ∧ t.deleted = true ∧
    (∀ e ∈ db.scanned, e.key = key → e.seqNo ≤ t.seqNo) ∧
      ∃ e ∈ db.scanned, e.key = key ∧ e.deleted = false

section Scan

variable {db : Db} {es : List Entry} {m : Nat} {e : Entry}

theorem Tidy.loaded {w : World} {lag : Option NodeId} (T : Tidy w lag) : w.Loaded :=
  fun _ _ h => (T.filed.loaded h).2

theorem mem_cachedEntries {w : World} : e ∈ w.cachedEntries ↔ w.view.Stored e := by
  rw [World.cachedEntries, List.mem_flatMap]
  constructor
  · rintro ⟨x, -, he⟩
    cases hx : w.cache.lookup x with
    | none => simp [hx] at he
    | some n =>
      rw [hx] at he
      exact ⟨x, n, hx, he⟩
  · rintro ⟨x, n, hx, he⟩
    change w.cache.lookup x = some n at hx
    refine ⟨x, AList.mem_keys.mp (AList.lookup_isSome.mp (by rw [hx]; rfl)), ?_⟩
    rw [hx]
    exact he

theorem mem_scanned : e ∈ db.scanned ↔ e ∈ db.writeBuf.entries ∨ db.world.view.Stored e := by
  rw [Db.scanned, List.mem_append, mem_cachedEntries]

theorem Ranked.scanned (R : Ranked es m db) (h : e ∈ db.scanned) : e ∈ es :=
  (mem_scanned.mp h).elim (fun h => (R.buf e h).1) fun h => (R.stored h).1

/-- The last entry of a key is in memory. -/
theorem Held.lastEntry_mem (H : Held es db) (R : Ranked es m db) (N : Numbered es) {k : Bytes}
    (h : lastEntry k es = some e) : e ∈ db.scanned := by
  obtain ⟨he, hk, hmax⟩ := N.lastEntry h
  have heq : ∀ {f}, f ∈ es → f.key = e.key → e.seqNo ≤ f.seqNo → f = e := fun hf hfk hle =>
    N.eq_of_seqNo hf he (le_antisymm (hmax _ hf (hfk.trans hk)) hle)
  rcases H.held e he with ⟨f, hf, hfk, hle⟩ | ⟨x, n, hx, f, hf, hfk, hle⟩
  · exact mem_scanned.mpr (.inl (heq (R.buf f hf).1 hfk hle ▸ hf))
  · have hst : db.world.view.Stored f := ⟨x, n, hx, hf⟩
    exact mem_scanned.mpr (.inr (heq (R.stored hst).1 hfk hle ▸ hst))

/-- Without haunted keys, the newest live version in memory is the last entry, if that is
live. -/
theorem Held.newestLive_iff (H : Held es db) (R : Ranked es m db) (N : Numbered es) {k : Bytes}
    (hk : ¬ db.Haunted k) :
    newestLive k db.scanned = some e ↔ lastEntry k es = some e ∧ e.deleted = false := by
  have hlast : ∀ {f}, f ∈ db.scanned → f.key = k → ∃ a, lastEntry k es = some a := fun hf hfk =>
    Option.ne_none_iff_exists'.mp fun h => lastEntry_eq_none.mp h _ (R.scanned hf) hfk
  constructor
  · intro h
    obtain ⟨he, hek, hed⟩ := newestLive_mem h
    obtain ⟨a, ha⟩ := hlast he hek
    obtain ⟨hae, hak, hmax⟩ := N.lastEntry ha
    have has := H.lastEntry_mem R N ha
    have had : a.deleted = false := by
      by_contra hd
      exact hk ⟨a, has, hak, by simpa using hd, fun f hf hfk => hmax f (R.scanned hf) hfk,
        e, he, hek, hed⟩
    obtain ⟨e', he', hle⟩ := newestLive_of_mem has hak had
    obtain rfl : e = e' := Option.some.inj (h.symm.trans he')
    obtain rfl : e = a :=
      N.eq_of_seqNo (R.scanned he) hae (le_antisymm (hmax e (R.scanned he) hek) hle)
    exact ⟨ha, had⟩
  · rintro ⟨ha, had⟩
    obtain ⟨hae, hak, hmax⟩ := N.lastEntry ha
    obtain ⟨e', he', hle⟩ := newestLive_of_mem (H.lastEntry_mem R N ha) hak had
    obtain ⟨hes, hek, -⟩ := newestLive_mem he'
    rw [he', N.eq_of_seqNo (R.scanned hes) hae (le_antisymm (hmax e' (R.scanned hes) hek) hle)]

end Scan

/-- **A range scan agrees with `get`** in a clean run of fewer than 2^64 writes exactly if no
key is haunted. -/
theorem scanAgrees_iff (sizing : Sizing) (ops : List Op)
    (hlen : (written ops).length < 2 ^ 64)
    (hC : Clean ((Db.start sizing).run ops).world.splits) :
    (∀ start stop, ScanAgrees ((Db.start sizing).run ops) start stop) ↔
      ∀ k, ¬ ((Db.start sizing).run ops).Haunted k := by
  have T := tidy_run sizing ops hC.attached
  have O := ordered_run sizing ops hC
  have H := held_run sizing ops hlen hC
  obtain ⟨m, R⟩ := ranked_run sizing ops hlen
  have N := numbered_written hlen
  obtain ⟨db, hdb⟩ : ∃ db, db = (Db.start sizing).run ops := ⟨_, rfl⟩
  rw [← hdb] at T O H R ⊢
  have hget : ∀ k v, db.get k = .ok (some v) ↔
      ∃ e, lastEntry k (written ops) = some e ∧ e.deleted = false ∧ e.value = v := by
    intro k v
    rw [T.get_eq, H.found R N T O, Except.ok.injEq, Option.bind_eq_some_iff]
    refine exists_congr fun e => and_congr_right fun _ => ?_
    unfold Entry.shown
    cases e.deleted <;> simp
  constructor
  · -- the live version of a haunted key is returned
    rintro h k ⟨t, ht, htk, htd, hmax, e, he, hek, hed⟩
    obtain ⟨e', he', -⟩ := newestLive_of_mem he hek hed
    obtain ⟨hes', hek', -⟩ := newestLive_mem he'
    obtain ⟨es, hes, -, hmem⟩ := db.mem_rangeScan T.loaded k k
    obtain ⟨es', hscan, -, hiff⟩ := h k k
    obtain rfl : es = es' := by simpa using hes.symm.trans hscan
    have hin : e' ∈ es := (hmem e').mpr ⟨hek'.ge, hek'.le, hek'.symm ▸ he'⟩
    obtain ⟨a, ha, had, -⟩ := (hget k _).mp ((hiff k _).mp ⟨e', hin, hek', rfl⟩).2.2
    obtain ⟨hae, hak, hamax⟩ := N.lastEntry ha
    have hta : t = a := N.eq_of_seqNo (R.scanned ht) hae
      (le_antisymm (hamax t (R.scanned ht) htk) (hmax a (H.lastEntry_mem R N ha) hak))
    rw [← hta, htd] at had
    cases had
  · intro h start stop
    obtain ⟨es, hes, hasc, hmem⟩ := db.mem_rangeScan T.loaded start stop
    refine ⟨es, hes, hasc, fun k v => ?_⟩
    rw [hget]
    constructor
    · rintro ⟨e, he, rfl, rfl⟩
      obtain ⟨h1, h2, hn⟩ := (hmem e).mp he
      obtain ⟨hl, hd⟩ := (H.newestLive_iff R N (h e.key)).mp hn
      exact ⟨h1, h2, e, hl, hd, rfl⟩
    · rintro ⟨h1, h2, e, hl, hd, rfl⟩
      have hk := (N.lastEntry hl).2.1
      have hn := (H.newestLive_iff R N (h k)).mpr ⟨hl, hd⟩
      exact ⟨e, (hmem e).mpr ⟨hk ▸ h1, hk ▸ h2, hk.symm ▸ hn⟩, hk, rfl⟩

/-- A key is written again after it was removed. -/
theorem scanAgrees_rewritten :
    (∀ start stop, ScanAgrees ((Db.start fun _ => (64, 7)).run
      [.insert (.byte 1) (.byte 1), .remove (.byte 1), .cycle, .insert (.byte 1) (.byte 2)])
        start stop) ↔
      ∀ k, ¬ ((Db.start fun _ => (64, 7)).run
        [.insert (.byte 1) (.byte 1), .remove (.byte 1), .cycle,
          .insert (.byte 1) (.byte 2)]).Haunted k :=
  scanAgrees_iff _ _ (by decide +kernel) (by decide +kernel)

/-- **A removed key** is returned as long as its old version is in memory. -/
theorem scanAgrees_removed : ¬ ∀ (sizing : Sizing) (ops : List Op) (start stop : Bytes),
    ScanAgrees ((Db.start sizing).run ops) start stop := by
  intro h
  have hget : ((Db.start fun _ => (64, 7)).run
      [.insert (.byte 1) (.byte 1), .remove (.byte 1)]).get (.byte 1) = .ok none :=
    rfl
  obtain ⟨es, hes, -, hiff⟩ := h (fun _ => (64, 7))
    [.insert (.byte 1) (.byte 1), .remove (.byte 1)] (.byte 1) (.byte 1)
  have hone : (((Db.start fun _ => (64, 7)).run
      [.insert (.byte 1) (.byte 1), .remove (.byte 1)]).rangeScan (.byte 1) (.byte 1)).toOption.any
        (·.any (·.key = .byte 1)) := by
    decide +kernel
  rw [hes] at hone
  simp only [Except.toOption, Option.any_some, List.any_eq_true, decide_eq_true_eq] at hone
  obtain ⟨e, he, hk⟩ := hone
  have hsome := ((hiff _ _).mp ⟨e, he, hk, rfl⟩).2.2
  rw [hget] at hsome
  cases hsome

end GravTree
