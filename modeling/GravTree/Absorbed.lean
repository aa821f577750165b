import GravTree.Reads
import GravTree.Transparency

/-!
# A tree that has taken in the first writes

Between the drain of the write buffer and the merge into the root, entries are in the tree
nowhere. What can be said at any time is which writes have been merged: a number of them
from the beginning. Of these the tree is the whole story, whoever merged them and in
whatever batches.
-/

namespace GravTree

/-- The tree has taken in the writes `es`. -/
structure Absorbed (es : List Entry) (w : World) : Prop where
  tidy : Tidy w (some w.rest.root)
  ordered : w.tree.Ordered
  layered : w.tree.Layered
  stored : Sourced (· = maxFanout) (· ∈ es) [] w
  held : ∀ e ∈ es, w.view.Holds e

theorem absorbed_start (sizing : Sizing) : Absorbed [] (Db.start sizing).world where
  tidy := by
    rw [start_world]
    exact (tidy_opened sizing).lag _
  ordered := by
    rw [start_world]
    exact (blank_opened sizing).ordered
  layered := by
    rw [start_world]
    exact (blank_opened sizing).layered
  stored := sourced_start sizing
  held _ he := nomatch he

/-! ## Numbers -/

namespace Numbered

variable {es fs : List Entry} {e f : Entry}

theorem append_left (N : Numbered (es ++ fs)) : Numbered es where
  short := lt_of_le_of_lt (by simp) N.short
  seqNo {i _} h := N.seqNo (by rw [List.getElem?_append_left (List.getElem?_eq_some_iff.mp h).1, h])

/-- The later ones have the higher numbers. -/
theorem length_lt (N : Numbered (es ++ fs)) (hf : f ∈ fs) : es.length < f.seqNo.val := by
  obtain ⟨i, hi⟩ := List.mem_iff_getElem?.mp hf
  have hlt := (List.getElem?_eq_some_iff.mp hi).1
  have := N.seqNo (i := es.length + i) (e := f) (by
    rw [List.getElem?_append_right (Nat.le_add_right ..), Nat.add_sub_cancel_left]
    exact hi)
  omega

theorem lt (N : Numbered (es ++ fs)) (he : e ∈ es) (hf : f ∈ fs) : e.seqNo < f.seqNo :=
  Fin.lt_def.mpr (lt_of_le_of_lt (N.append_left.le_length he) (N.length_lt hf))

end Numbered

theorem lastEntry_append_left {key : Bytes} {es fs : List Entry} (h : ∀ e ∈ fs, e.key ≠ key) :
    lastEntry key (es ++ fs) = lastEntry key es := by
  have hno : lastEntry key fs = none := lastEntry_eq_none.mpr h
  unfold lastEntry at hno ⊢
  rw [List.reverse_append, List.find?_append, hno, Option.none_or]

/-! ## Reading -/

namespace Absorbed

variable {es fs : List Entry} {w : World}

/-- **The tree answers** with the last of the writes that it has taken in. -/
theorem answer (G : Absorbed es w) (N : Numbered es) (key : Bytes) :
    w.tree.answer key = lastEntry key es := by
  obtain ⟨db, hdb⟩ : ∃ db : Db, db = { seq := Fin.ofNat _ (es.length + 1), world := w } := ⟨_, rfl⟩
  have H : Held es db := hdb ▸ ⟨G.layered, fun e he => .inr (G.held e he)⟩
  have R : Ranked es es.length db := by
    rw [hdb]
    exact ⟨le_rfl, rfl, fun e he => (nomatch he), G.stored.mono fun _ he => ⟨he, N.le_length he⟩⟩
  have hfound : db.found key = w.tree.answer key := by
    rw [hdb]
    exact Option.none_or
  have T : Tidy db.world (some db.world.rest.root) := by
    rw [hdb]
    exact G.tidy
  have O : db.world.tree.Ordered := by
    rw [hdb]
    exact G.ordered
  rw [← hfound]
  exact H.found R N T O key

/-- The tree part of `get`. -/
theorem eval_get (G : Absorbed es w) (N : Numbered es) (key : Bytes) :
    Act.eval (getFromTree key) ⟨w, none⟩ = .ok ((lastEntry key es).bind Entry.shown) := by
  rw [getFromTree_serves G.tidy.sound.shape G.tidy.serves key, ← G.answer N key]
  rfl

/-- It changes nothing. -/
theorem exec_get (G : Absorbed es w) (N : Numbered es) (key : Bytes) :
    Act.exec (getFromTree key) ⟨w, none⟩ = w := by
  have T := G.tidy
  have hget : ∀ x, Act.Alike (fun u u' => u = w ∧ u' = w) (getNode x) := by
    rintro x _ _ ⟨rfl, rfl⟩
    cases hx : World.view _ x with
    | some n =>
      exact .inl ⟨n, _, _, (getNode_reads hx).ok_eq, (getNode_reads hx).ok_eq, rfl, rfl⟩
    | none =>
      rcases (getNode_fails hx fun h => T.filed.valid.mp h hx).undisturbed with
        ⟨_, _, _, h⟩ | ⟨e, u, s, h, -⟩
      · exact h.elim
      · exact .inr ⟨_, _, _, h, h⟩
  have hall := getFromTree_alike hget (fun _ _ h => by rw [h.1, h.2]) key
  have heval := G.eval_get N key
  rcases hall w w ⟨rfl, rfl⟩ with ⟨a, u, _, hx, -, hu, -⟩ | ⟨e, m, _, hx, -⟩
  · rw [Act.exec, hx, hu]
  · simp [Act.eval, hx] at heval

/-! ## Growing -/

/-- **A merge** of the next writes by a cycle or by `flush()`. -/
theorem drain (G : Absorbed es w) (N : Numbered (es ++ fs)) {b : WriteBuf}
    (hb : ∀ e, e ∈ b.entries ↔ e ∈ fs) {op : Op} (hop : op = .flush ∨ op = .cycle)
    (hC : Clean (Db.step { writeBuf := b, world := w } op).world.rest.splits) :
    Absorbed (es ++ fs) (Db.step { writeBuf := b, world := w } op).world := by
  have T := G.tidy
  obtain ⟨n, cs, hn, hs, hF, -⟩ := Db.drain_clean { writeBuf := b, world := w } hop T hC
  have S' := hn.sound T.sound
  have O' := hn.ordered T.sound G.ordered
  have V' : (w.merged b.entries).tree.Layered := by
    refine hn.layered T.sound G.layered fun e he e' he' _ => ?_
    obtain ⟨x, m, hx, hmem⟩ := he'
    exact N.lt ((G.stored.node (x := x) hx).entries e' hmem) ((hb e).mp he)
  have hstored : Sourced (· = maxFanout) (· ∈ es ++ fs) [] w :=
    G.stored.mono fun _ he => List.mem_append_left _ he
  have hbuf : ∀ e ∈ b.entries, e ∈ es ++ fs := fun e he =>
    List.mem_append_right _ ((hb e).mp he)
  refine ⟨?_, hs.ordered S' O' hF, hs.layered S' O' V' hF, ?_, fun e he => ?_⟩
  · exact Db.step_tidy _ op T hC.attached
  · rcases hop with rfl | rfl
    · exact (traces_persistRoot hbuf).exec hstored none
    · exact (traces_flushPending (fun _ h => h.ge) hbuf).swallow _ hstored none
  · have hcovers : Covers b.entries e ∨ w.tree.view.Holds e := by
      rcases List.mem_append.mp he with he | he
      · exact .inr (G.held e he)
      · exact .inl (.of_mem ((hb e).mpr he))
    obtain ⟨e', hst, hk, hle⟩ := hn.holds hcovers
    obtain ⟨x, k, hx, e'', he'', hk', hle'⟩ := hs.holds S' hst
    exact ⟨x, k, hx, e'', he'', hk'.trans hk, hle.trans hle'⟩

end Absorbed

end GravTree
