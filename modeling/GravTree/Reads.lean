import GravTree.SearchOrder
import GravTree.Proof.History

/-!
# What `get` returns

In a clean run the newest version of a key is its last write, and that is what `get`
finds: in the write buffer, which is newer than the tree, or else in the tree, which is
layered.
-/

namespace GravTree

/-- The last entry of `key`. -/
def lastEntry (key : Bytes) (es : List Entry) : Option Entry := es.reverse.find? (·.key = key)

theorem lastEntry_append (key : Bytes) (es : List Entry) (a : Entry) :
    lastEntry key (es ++ [a]) = if a.key = key then some a else lastEntry key es := by
  rw [lastEntry, List.reverse_append, List.reverse_singleton, List.singleton_append,
    List.find?_cons]
  by_cases h : a.key = key <;> simp [h, lastEntry]

/-- The last write of a key is what its last entry shows. -/
theorem lastWrite_eq (key : Bytes) (ops : List Op) :
    lastWrite key ops = (lastEntry key (written ops)).bind Entry.shown := by
  induction ops using List.reverseRecOn with
  | nil => rfl
  | append_singleton ops op ih =>
    rw [lastWrite, List.foldl_append, ← lastWrite, written_append]
    cases op with
    | insert k v =>
      rw [Op.entry, Option.toList_some, lastEntry_append]
      by_cases hk : k = key
      · simp [hk, Entry.shown]
      · simp [hk, ih]
    | remove k =>
      rw [Op.entry, Option.toList_some, lastEntry_append]
      by_cases hk : k = key
      · simp [hk, Entry.shown]
      · simp [hk, ih]
    | flush => simpa [Op.entry] using ih
    | cycle => simpa [Op.entry] using ih

theorem lastEntry_eq_none {key : Bytes} {es : List Entry} :
    lastEntry key es = none ↔ ∀ e ∈ es, e.key ≠ key := by
  simp [lastEntry]

/-- Where entries are numbered as they were written, the last is the newest. -/
theorem Numbered.lastEntry {es : List Entry} (N : Numbered es) {key : Bytes} {e : Entry}
    (h : lastEntry key es = some e) :
    e ∈ es ∧ e.key = key ∧ ∀ a ∈ es, a.key = key → a.seqNo ≤ e.seqNo := by
  obtain ⟨hk, as, bs, hes, hno⟩ := List.find?_eq_some_iff_append.mp h
  have hk : e.key = key := by simpa using hk
  have hes : es = bs.reverse ++ [e] ++ as.reverse := by
    simpa using congrArg List.reverse hes
  refine ⟨by simp [hes], hk, fun a ha hak => ?_⟩
  -- an entry of the key is not among the later ones
  have hpos : es[bs.length]? = some e := by simp [hes]
  have hae : a ∈ bs.reverse ++ [e] := by
    rw [hes, List.mem_append] at ha
    rcases ha with ha | ha
    · exact ha
    · exact absurd hak (by simpa using hno a (List.mem_reverse.mp ha))
  obtain ⟨i, hi⟩ := List.mem_iff_getElem?.mp hae
  have hlt := (List.getElem?_eq_some_iff.mp hi).1
  have hai : es[i]? = some a := by
    rw [hes, List.getElem?_append_left hlt]
    exact hi
  have h₁ := N.seqNo hai
  have h₂ := N.seqNo hpos
  simp only [List.length_append, List.length_reverse, List.length_singleton] at hlt
  exact Fin.le_def.mpr (by omega)

/-- What a lookup in the write buffer and then in the tree finds. -/
def Db.found (db : Db) (key : Bytes) : Option Entry :=
  (db.writeBuf.findKey key).or (db.world.tree.answer key)

theorem Tidy.get_eq {db : Db} {lag : Option NodeId} (T : Tidy db.world lag) (key : Bytes) :
    db.get key = .ok ((db.found key).bind Entry.shown) := by
  unfold Db.get Db.found
  cases db.writeBuf.findKey key with
  | some e => rfl
  | none => exact getFromTree_serves T.sound.shape T.serves key

/-- **The lookup finds the last entry** of the key. -/
theorem Held.found {es : List Entry} {m : Nat} {db : Db} {lag : Option NodeId} (H : Held es db)
    (R : Ranked es m db) (N : Numbered es) (T : Tidy db.world lag) (O : db.world.tree.Ordered)
    (key : Bytes) : db.found key = lastEntry key es := by
  have hnewest := O.newest T.sound H.layered key
  have hstored : ∀ {e}, db.world.tree.view.Stored e → e ∈ es := fun h => (R.stored h).1
  cases hl : lastEntry key es with
  | none =>
    -- no version of the key was written
    have hno := lastEntry_eq_none.mp hl
    have hbuf : db.writeBuf.findKey key = none :=
      (lookupSorted_eq_none db.writeBuf.sorted).mpr fun e he => hno e (R.buf e he).1
    rw [Db.found, hbuf, Option.none_or]
    cases ha : db.world.tree.answer key with
    | none => rfl
    | some e =>
      rw [ha] at hnewest
      exact absurd hnewest.2.1 (hno e (hstored hnewest.1))
  | some e =>
    obtain ⟨he, hk, hmax⟩ := N.lastEntry hl
    have heq : ∀ {f}, f ∈ es → f.key = key → e.seqNo ≤ f.seqNo → f = e := fun hf hfk hle =>
      N.eq_of_seqNo hf he (le_antisymm (hmax _ hf hfk) hle)
    cases hbuf : db.writeBuf.findKey key with
    | some f =>
      -- the write buffer is newer than the tree, so the last entry is there
      obtain ⟨hf, hfk, hfmax⟩ := lookupSorted_eq_some db.writeBuf.sorted hbuf
      rw [Db.found, hbuf, Option.some_or]
      refine congrArg some (heq (R.buf f hf).1 hfk ?_)
      rcases H.held e he with ⟨g, hg, hgk, hle⟩ | ⟨x, n, hx, g, hg, hgk, hle⟩
      · exact hle.trans (hfmax g hg (hgk.trans hk))
      · exact hle.trans (R.newer hf ⟨x, n, hx, hg⟩).le
    | none =>
      have hno := (lookupSorted_eq_none db.writeBuf.sorted).mp hbuf
      rw [Db.found, hbuf, Option.none_or]
      rcases H.held e he with ⟨g, hg, hgk, -⟩ | ⟨x, n, hx, g, hg, hgk, hle⟩
      · exact absurd (hgk.trans hk) (hno g hg)
      · have hgst : db.world.tree.view.Stored g := ⟨x, n, hx, hg⟩
        cases ha : db.world.tree.answer key with
        | none =>
          rw [ha] at hnewest
          exact absurd (hgk.trans hk) (hnewest g hgst)
        | some f =>
          rw [ha] at hnewest
          obtain ⟨hf, hfk, hfmax⟩ := hnewest
          exact congrArg some (heq (hstored hf) hfk (hle.trans (hfmax g hgst (hgk.trans hk))))

/-- **`get` returns the last write** of the key in every clean run of fewer than 2^64 writes. -/
theorem get_lastWrite (sizing : Sizing) (ops : List Op)
    (hlen : (written ops).length < 2 ^ 64)
    (hC : Clean ((Db.start sizing).run ops).world.splits) (key : Bytes) :
    ((Db.start sizing).run ops).get key = .ok (lastWrite key ops) := by
  have T := tidy_run sizing ops hC.attached
  obtain ⟨m, R⟩ := ranked_run sizing ops hlen
  rw [T.get_eq, lastWrite_eq, (held_run sizing ops hlen hC).found R (numbered_written hlen) T
    (ordered_run sizing ops hC)]

/-- Two leaves are filled and split again, and one key is removed. -/
theorem get_lastWrite_round : ((Db.start fun _ => (64, 7)).run
    (round [10, 20] ++ round [11, 21] ++ [.remove (.byte 10), .flush])).get (.byte 10) =
      .ok (lastWrite (.byte 10)
        (round [10, 20] ++ round [11, 21] ++ [.remove (.byte 10), .flush])) :=
  get_lastWrite _ _ (by decide +kernel) (by decide +kernel) _

/-- The key that was written first is not found behind the empty half. -/
theorem get_lastWrite_lone : ¬ ∀ (sizing : Sizing) (ops : List Op) (key : Bytes),
    ((Db.start sizing).run ops).get key = .ok (lastWrite key ops) := by
  intro h
  have hget : (((Db.start fun _ => (64, 7)).run lone).get (.byte 10)).toOption.any
      (·.isNone) := by
    decide +kernel
  have hlast : (lastWrite (.byte 10) lone).isSome := by decide +kernel
  rw [h] at hget
  simp [Except.toOption, Option.isNone_iff_eq_none] at hget
  simp [hget] at hlast

end GravTree
