import GravTree.Decoding
import GravTree.Opened
import GravTree.Proof.Reopen

/-!
# Closing and reopening

The destructor merges the write buffer into the root's buffer, and what is left of a key
there is the version with the largest sequence number. As long as the numbers have not
wrapped around, that is the version the write buffer answered with. And it is there when the
directory is opened again, if nothing in the node files is longer than their length fields say.
-/

namespace GravTree

/-! ## Sessions in which nothing throws -/

/-- The step does not throw. -/
def Db.returns (db : Db) : Op → Bool
  | .insert _ _ | .remove _ => true
  | .flush => (Act.eval (persistRoot db.writeBuf.entries) ⟨db.world, none⟩).isOk
  | .cycle => (Act.eval (flushPending db.writeBuf.entries) ⟨db.world, none⟩).isOk

/-- No step of the run throws. -/
def Db.allReturn (db : Db) : List Op → Bool
  | [] => true
  | op :: ops => db.returns op && (db.step op).allReturn ops

theorem Db.allReturn_append {ops ops' : List Op} : ∀ {db : Db},
    db.allReturn (ops ++ ops') ↔ db.allReturn ops ∧ (db.run ops).allReturn ops' := by
  induction ops with
  | nil => simp [Db.allReturn]
  | cons op ops ih => simp [Db.allReturn, ih, and_assoc]

theorem Db.step_returns {db : Db} {op : Op} (T : Tidy db.world (some db.world.rest.root))
    (hr : db.returns op) : Tidy (db.step op).world (some (db.step op).world.rest.root) := by
  cases op with
  | insert k v => exact T
  | remove k => exact T
  | flush => exact (db.flush_cases T).1.tidy
  | cycle =>
    rcases (flushPending_spec T db.writeBuf.entries).undisturbed with
      ⟨_, u, hx, hu, -⟩ | ⟨e, u, s, hx, -⟩
    · have hworld : (db.step .cycle).world = u := by
        simp only [Db.step, Db.cycle, Db.cycleWith, Act.exec, catchAll, Act.swallow, hx]
      exact hworld ▸ T.drained hu
    · simp [Db.returns, Act.eval, hx, Except.isOk, Except.toBool] at hr

/-- **A session in which nothing throws** stays tidy. -/
theorem tidy_returns (sizing : Sizing) {ops : List Op} (hr : (Db.start sizing).allReturn ops) :
    Tidy ((Db.start sizing).run ops).world
      (some ((Db.start sizing).run ops).world.rest.root) := by
  induction ops using List.reverseRecOn with
  | nil =>
    rw [Db.run_nil, start_world]
    exact (tidy_opened sizing).lag _
  | append_singleton ops op ih =>
    obtain ⟨hops, hop⟩ := Db.allReturn_append.mp hr
    have hop : ((Db.start sizing).run ops).returns op := by simpa [Db.allReturn] using hop
    rw [Db.run_append]
    exact Db.step_returns (ih hops) hop

/-! ## The merged root buffer -/

section Merged

variable {db : Db} {n : SSTNode} {es : List Entry} {m : Nat}

/-- What is found in the merged buffer was in one of the two. -/
theorem Db.rootBuffer_some {k : Bytes} {e : Entry}
    (h : lookupSorted (db.rootBuffer n) k = some e) :
    (e ∈ n.buffer ∨ e ∈ db.writeBuf.entries) ∧ e.key = k ∧
      ∀ a, a ∈ n.buffer ∨ a ∈ db.writeBuf.entries → a.key = k → a.seqNo ≤ e.seqNo := by
  obtain ⟨he, hk, hmax⟩ := lookupSorted_eq_some (sorted_stableSort _) h
  refine ⟨List.mem_append.mp (mem_stableSort.mp he), hk, fun a ha => ?_⟩
  exact hmax a (mem_stableSort.mpr (List.mem_append.mpr ha))

theorem Db.rootBuffer_of_mem (db : Db) (n : SSTNode) {k : Bytes} {a : Entry}
    (ha : a ∈ n.buffer ∨ a ∈ db.writeBuf.entries)
    (hk : a.key = k) : ∃ e, lookupSorted (db.rootBuffer n) k = some e := by
  refine Option.ne_none_iff_exists'.mp fun h => ?_
  exact (lookupSorted_eq_none (sorted_stableSort _)).mp h a
    (mem_stableSort.mpr (List.mem_append.mpr ha)) hk

/-- **Where the write buffer is newer** it decides, and the root's buffer comes second. -/
theorem Ranked.rootBuffer (R : Ranked es m db) (N : Numbered es)
    (hn : db.world.view db.world.rest.root = some n) (hs : Sorted n.buffer) (k : Bytes) :
    lookupSorted (db.rootBuffer n) k = (db.writeBuf.findKey k).or (n.get k) := by
  have hstored : ∀ {e}, e ∈ n.buffer → db.world.view.Stored e := fun he => ⟨_, n, hn, he⟩
  have hes : ∀ {e}, e ∈ n.buffer ∨ e ∈ db.writeBuf.entries → e ∈ es := fun h =>
    h.elim (fun he => (R.stored (hstored he)).1) fun he => (R.buf _ he).1
  -- two newest versions have one number
  have hsame : ∀ {e e'}, lookupSorted (db.rootBuffer n) k = some e →
      (e' ∈ n.buffer ∨ e' ∈ db.writeBuf.entries) → e'.key = k → e.seqNo ≤ e'.seqNo → e = e' := by
    intro e e' h he' hk hle
    obtain ⟨he, -, hmax⟩ := Db.rootBuffer_some h
    exact N.eq_of_seqNo (hes he) (hes he') (le_antisymm hle (hmax e' he' hk))
  cases hf : db.writeBuf.findKey k with
  | some e' =>
    obtain ⟨he', hk, hmax'⟩ := lookupSorted_eq_some db.writeBuf.sorted hf
    obtain ⟨e, h⟩ := Db.rootBuffer_of_mem db n (.inr he') hk
    obtain ⟨he, hke, -⟩ := Db.rootBuffer_some h
    rw [h, Option.some_or, hsame h (.inr he') hk]
    rcases he with he | he
    · exact (R.newer he' (hstored he)).le
    · exact hmax' e he hke
  | none =>
    have hno := (lookupSorted_eq_none db.writeBuf.sorted).mp hf
    rw [Option.none_or]
    cases hg : n.get k with
    | some e' =>
      obtain ⟨he', hk, hmax'⟩ := lookupSorted_eq_some hs hg
      obtain ⟨e, h⟩ := Db.rootBuffer_of_mem db n (.inl he') hk
      obtain ⟨he, hke, -⟩ := Db.rootBuffer_some h
      rw [h, hsame h (.inl he') hk]
      rcases he with he | he
      · exact hmax' e he hke
      · exact absurd hke (hno e he)
    | none =>
      have hno' := (lookupSorted_eq_none hs).mp hg
      refine (lookupSorted_eq_none (sorted_stableSort _)).mpr fun e he => ?_
      exact (List.mem_append.mp (mem_stableSort.mp he)).elim (hno' e) (hno e)

end Merged

/-- After closing, `open` finds what is in the bytes of the files, and `get` returns what it
returned before. -/
def Db.Reopens (db : Db) (dir : Text) : Prop :=
  ∃ db', db.reopen = .ok db' ∧ db'.OpenedFrom dir (replay dir db.closed.effects) ∧
    ∀ k, db'.get k = db.get k

theorem World.Founded.closed {db : Db} (F : db.world.Founded) : db.closed.Founded := by
  rw [Db.closed, catchAll, Act.exec_swallow]
  exact F.destroyTree _ none

/-- **Closing and reopening** keeps what `get` returns, for sessions of fewer than 2^64
writes. -/
theorem reopen_get (sizing : Sizing) {dir : Text} (hplain : dir.Plain) (hnarrow : dir.Narrow)
    (ops : List Op) (hr : (Db.start sizing).allReturn ops) (hlen : (written ops).length < 2 ^ 64)
    (hfit : ((Db.start sizing).run ops).closed.disk.Fits) :
    ((Db.start sizing).run ops).Reopens dir := by
  have T := tidy_returns sizing hr
  obtain ⟨m, R⟩ := ranked_run sizing ops hlen
  obtain ⟨n, hn⟩ := T.sound.root_some
  obtain ⟨db', hdb', hget⟩ := Db.reopen_eq T hn
  refine ⟨db', hdb', (founded_run sizing ops).closed.openedFrom hdb' hplain hnarrow hfit,
    fun k => ?_⟩
  rw [hget, Db.get_eq T hn, R.rootBuffer (numbered_written hlen) hn (T.sound.sorted hn),
    Option.or_assoc]

/-- A session that splits the root and overwrites a key. -/
def overwriting : List Op :=
  [.insert (.byte 10) (.zeros (2 ^ 21)), .insert (.byte 20) (.zeros (2 ^ 21)), .cycle, .flush,
    .remove (.byte 10)]

theorem reopen_get_round : ((Db.start fun _ => (64, 7)).run overwriting).Reopens ['d'] := by
  have hslim : ∀ p ∈ ((Db.start fun _ => (64, 7)).run overwriting).closed.disk.node.entries,
      p.2.Slim ((Db.start fun _ => (64, 7)).run overwriting).closed.sizing := by
    decide +kernel
  exact reopen_get _ (by decide) (by decide) _ (by decide +kernel) (by decide +kernel)
    ((founded_run _ _).closed.fits hslim)

/-! ## Where they do not -/

/-- `flush()` leaves the merged buffer in the root. -/
theorem Db.flush_root {db : Db} {n : SSTNode} (T : Tidy db.world (some db.world.rest.root))
    (hn : db.world.view db.world.rest.root = some n) :
    db.returns .flush ∧ ∃ n', db.flush.world.view db.flush.world.rest.root = some n' ∧
      ∀ k, n'.get k = lookupSorted (db.rootBuffer n) k := by
  have hmerged : (db.world.merged db.writeBuf.entries).view db.world.rest.root =
      some { n with buffer := db.rootBuffer n } := node_merged hn
  have hruns := persistRoot_runs T db.writeBuf.entries hmerged
  refine ⟨by simp [Db.returns, hruns.eval_eq, Except.isOk, Except.toBool], ?_⟩
  have hflush : db.flush.world = _ := hruns.exec_eq
  rw [hflush]
  split
  · have hid : n.id = db.world.rest.root := (T.sound.shape.mem_row hn).2.2
    have hcell := cell_rewrite (w := db.world.merged db.writeBuf.entries) hmerged hid
    have hrest := rest_rewrite (w := db.world.merged db.writeBuf.entries) (x := db.world.rest.root)
      (n := { n with buffer := db.rootBuffer n }) hid
    refine ⟨flushed (db.world.merged db.writeBuf.entries).rest.sizing
      { n with buffer := db.rootBuffer n }, ?_, fun k => ?_⟩
    · rw [World.rest_saved, hrest, rest_merged, World.view, World.cell_saved, hcell, if_pos rfl,
        rest_merged]
    · exact lookupSorted_sortBuffer (sorted_stableSort _) k
  · exact ⟨_, by rw [rest_merged]; exact hmerged, fun _ => rfl⟩

/-- `N` writes to another key, one write, a `flush()`, and one more write. -/
def wrapping (N : Nat) : List Op :=
  (List.replicate N (.remove (.byte 0)) ++ [.insert (.byte 1) (.byte 1)] ++ [.flush]) ++
    [.insert (.byte 1) (.byte 2)]

theorem length_written_replicate (N : Nat) (k : Bytes) :
    (written (List.replicate N (.remove k))).length = N := by
  induction N with
  | zero => rfl
  | succ N ih =>
    rw [List.replicate_succ', written_append, List.length_append, ih]
    rfl

theorem allReturn_replicate (k : Bytes) (N : Nat) : ∀ db : Db,
    db.allReturn (List.replicate N (.remove k)) := by
  induction N with
  | zero => exact fun _ => rfl
  | succ N ih => exact fun db => by simpa [List.replicate_succ, Db.allReturn, Db.returns] using ih _

/-- The last number before they wrap around is the version that is found. -/
theorem Ranked.lookup_last {es : List Entry} {m : Nat} {db : Db} {n : SSTNode} {a e : Entry}
    (R : Ranked es m db) (N : Numbered es) (hn : db.world.view db.world.rest.root = some n)
    (ha : a ∈ es) (hlast : a.seqNo.val = es.length) (he : e ∈ n.buffer ∨ e ∈ db.writeBuf.entries)
    (hle : a.seqNo ≤ e.seqNo) : e = a := by
  have hes : e ∈ es := he.elim (fun h => (R.stored ⟨_, n, hn, h⟩).1) fun h => (R.buf e h).1
  have hmax := N.le_length hes
  exact N.eq_of_seqNo hes ha (le_antisymm (Fin.le_def.mpr (by omega)) hle)

/-- The strings that are written are no longer than the calls say. -/
theorem size_written {ops : List Op} {c : Nat}
    (h : ∀ op ∈ ops, ∀ i e, op.entry i = some e → e.key.size ≤ c ∧ e.value.size ≤ c) :
    ∀ e ∈ written ops, e.key.size ≤ c ∧ e.value.size ≤ c := by
  induction ops using List.reverseRecOn with
  | nil => exact fun _ he => absurd he List.not_mem_nil
  | append_singleton ops op ih =>
    intro e he
    rw [written_append, List.mem_append] at he
    rcases he with he | he
    · exact ih (fun op hop => h op (List.mem_append_left _ hop)) e he
    · exact h op (List.mem_append_right _ (List.mem_singleton.mpr rfl)) _ e
        (Option.mem_toList.mp he)

/-- After 2^64 - 1 writes the next one gets the number zero, and is lost at the reopening. -/
theorem exists_wrapping : ∃ (sizing : Sizing) (ops : List Op), (Db.start sizing).allReturn ops ∧
    (∀ e ∈ written ops, e.key.size ≤ 1 ∧ e.value.size ≤ 1) ∧
    ∃ db' k, ((Db.start sizing).run ops).reopen = .ok db' ∧
      db'.get k ≠ ((Db.start sizing).run ops).get k := by
  obtain ⟨N, hN⟩ : ∃ N, N + 2 = 2 ^ 64 := ⟨2 ^ 64 - 2, by decide⟩
  obtain ⟨sizing⟩ : Nonempty Sizing := ⟨fun _ => (64, 7)⟩
  obtain ⟨db₀, hdb₀⟩ : ∃ db, db = (Db.start sizing).run (List.replicate N (.remove (.byte 0))) :=
    ⟨_, rfl⟩
  obtain ⟨a, ha⟩ : ∃ a : Entry, a = { key := .byte 1, value := .byte 1, seqNo := db₀.seq } :=
    ⟨_, rfl⟩
  -- the state before the flush, and what it has written
  obtain ⟨ops₁, h₁⟩ : ∃ ops : List Op,
      ops = List.replicate N (.remove (.byte 0)) ++ [.insert (.byte 1) (.byte 1)] := ⟨_, rfl⟩
  obtain ⟨db₁, hdb₁⟩ : ∃ db, db = (Db.start sizing).run ops₁ := ⟨_, rfl⟩
  have hlen₀ := length_written_replicate N (.byte 0)
  obtain ⟨m₀, R₀⟩ := ranked_run sizing (List.replicate N (.remove (.byte 0))) (by omega)
  have hseq₀ : db₀.seq = Fin.ofNat _ (N + 1) := by rw [hdb₀, R₀.seq, hlen₀]
  have hval : a.seqNo.val = N + 1 := by
    rw [ha, hseq₀, Fin.val_ofNat, Nat.mod_eq_of_lt (by omega)]
  have hw₁ : written ops₁ = written (List.replicate N (.remove (.byte 0))) ++ [a] := by
    rw [h₁, written_append, hlen₀, ha, hseq₀]
    rfl
  have hlen₁ : (written ops₁).length = N + 1 := by rw [hw₁, List.length_append, hlen₀]; rfl
  have haw : a ∈ written ops₁ := by rw [hw₁]; simp
  have hr₁ : (Db.start sizing).allReturn ops₁ := by
    rw [h₁]
    exact Db.allReturn_append.mpr ⟨allReturn_replicate _ N _, rfl⟩
  have N₁ : Numbered (written ops₁) := numbered_written (by omega)
  obtain ⟨m₁, R₁⟩ := ranked_run sizing ops₁ (by omega)
  have T₁ := tidy_returns sizing hr₁
  rw [← hdb₁] at R₁ T₁
  obtain ⟨n₁, hn₁⟩ := T₁.sound.root_some
  have hbuf : a ∈ db₁.writeBuf.entries := by
    rw [hdb₁, h₁, Db.run_append, ← hdb₀, ha]
    exact (List.mem_orderedInsert Entry.le).mpr (.inl rfl)
  -- the flush puts the last numbered entry into the root
  obtain ⟨hflush, n₂, hn₂, hget₂⟩ := Db.flush_root T₁ hn₁
  have hkey : a.key = .byte 1 := by rw [ha]
  have hfound : n₂.get (.byte 1) = some a := by
    obtain ⟨e, he⟩ := Db.rootBuffer_of_mem db₁ n₁ (.inr hbuf) hkey
    obtain ⟨hmem, -, hmax⟩ := Db.rootBuffer_some he
    rw [hget₂, he, R₁.lookup_last N₁ hn₁ haw (by omega) hmem (hmax a (.inr hbuf) hkey)]
  have hr₂ : (Db.start sizing).allReturn (ops₁ ++ [.flush]) :=
    Db.allReturn_append.mpr ⟨hr₁, by simpa [Db.allReturn, ← hdb₁] using hflush⟩
  have hw₂ : written (ops₁ ++ [.flush]) = written ops₁ := by
    rw [written_append]
    exact List.append_nil _
  obtain ⟨m₂, R₂⟩ := ranked_run sizing (ops₁ ++ [.flush]) (by rw [hw₂]; omega)
  have T₂ := tidy_returns sizing hr₂
  have hdb₂ : (Db.start sizing).run (ops₁ ++ [.flush]) = db₁.flush := by
    rw [Db.run_append, ← hdb₁]
    rfl
  rw [hw₂, hdb₂] at R₂
  rw [hdb₂] at T₂
  have ha₂ : a ∈ n₂.buffer := (lookupSorted_eq_some (T₂.sound.sorted hn₂) hfound).1
  -- the last write is numbered zero
  obtain ⟨db₃, hdb₃⟩ : ∃ db, db = db₁.flush.insert (.byte 1) (.byte 2) := ⟨_, rfl⟩
  have hrun : (Db.start sizing).run (wrapping N) = db₃ := by
    rw [wrapping, ← h₁, Db.run_append, hdb₂, hdb₃]
    rfl
  have hbuf₃ : db₃.writeBuf.entries = [{ key := .byte 1, value := .byte 2, seqNo := 0 }] := by
    have hseq : db₁.flush.seq = 0 := by
      rw [R₂.seq, hlen₁, show N + 1 + 1 = 2 ^ 64 from hN]
      rfl
    rw [hdb₃]
    show [({ key := .byte 1, value := .byte 2, seqNo := db₁.flush.seq } : Entry)] = _
    rw [hseq]
  have hworld₃ : db₃.world = db₁.flush.world := by rw [hdb₃]; rfl
  have hget₃ : db₃.get (.byte 1) = .ok (some (.byte 2)) := by
    have : db₃.writeBuf.findKey (.byte 1) =
        some { key := .byte 1, value := .byte 2, seqNo := 0 } := by
      rw [WriteBuf.findKey, lookupSorted_eq_find? db₃.writeBuf.sorted, hbuf₃]
      simp
    rw [Db.get, this]
    rfl
  have hr₃ : (Db.start sizing).allReturn (wrapping N) := by
    rw [wrapping, ← h₁]
    exact Db.allReturn_append.mpr ⟨hr₂, rfl⟩
  have hsize : ∀ e ∈ written (wrapping N), e.key.size ≤ 1 ∧ e.value.size ≤ 1 := by
    refine size_written fun op hop i e he => ?_
    simp only [wrapping, List.mem_append, List.mem_replicate, List.mem_singleton] at hop
    rcases hop with ((⟨-, rfl⟩ | rfl) | rfl) | rfl
    · cases he
      exact ⟨le_rfl, Nat.zero_le 1⟩
    · cases he
      exact ⟨le_rfl, le_rfl⟩
    · cases he
    · cases he
      exact ⟨le_rfl, le_rfl⟩
  refine ⟨sizing, wrapping N, hr₃, hsize, ?_⟩
  rw [hrun]
  rw [← hworld₃] at T₂ hn₂
  obtain ⟨db', hreopen, hget'⟩ := Db.reopen_eq T₂ hn₂
  refine ⟨db', .byte 1, hreopen, fun hsame => ?_⟩
  obtain ⟨e, he⟩ := Db.rootBuffer_of_mem db₃ n₂ (.inl ha₂) hkey
  obtain ⟨hmem, -, hmax⟩ := Db.rootBuffer_some he
  have hle := hmax a (.inl ha₂) hkey
  have hea : e = a := by
    rcases hmem with hmem | hmem
    · exact R₂.lookup_last N₁ (hworld₃ ▸ hn₂) haw (by omega) (.inl hmem) hle
    · rw [hbuf₃, List.mem_singleton] at hmem
      rw [hmem] at hle
      have := Fin.le_def.mp hle
      simp only [Fin.val_zero] at this
      omega
  rw [hget₃, hget', he, hea, ha] at hsame
  simp [Entry.shown] at hsame
  exact absurd hsame (by decide)

/-- What is loaded from files has no longer strings than their length fields can say. -/
theorem Db.OpenedFrom.short {db : Db} {dir : Text} {fs : Files} (h : db.OpenedFrom dir fs)
    {x : NodeId} {n : SSTNode} (hx : (db.world.manifest.nodePath x).isSome)
    (hn : Act.eval (getNode x) ⟨db.world, none⟩ = .ok n) :
    ∀ e ∈ n.buffer, e.key.size < 2 ^ 32 ∧ e.value.size < 2 ^ 32 := by
  obtain ⟨l, -, -, hnodes⟩ := h
  obtain ⟨path, hpath⟩ := Option.isSome_iff_exists.mp hx
  obtain ⟨f, hload, heval⟩ := hnodes x path hpath
  obtain rfl : n = f.toSSTNode := Except.ok.inj (hn.symm.trans heval)
  obtain ⟨p, -, hload⟩ := Option.bind_eq_some_iff.mp hload
  obtain ⟨raw, -, hload⟩ := Option.map_eq_some_iff.mp hload
  cases hread : readNodeFile ⟨x⟩ raw false with
  | error e =>
    rw [hread] at hload
    cases hload
  | ok g =>
    rw [hread] at hload
    exact strings_of_loadEntries hread hload

/-- **The numbers wrap around**, and the last write is lost, however short all strings are. And **a
value of 2^32 bytes** is lost by itself, as its length is written in 32 bits. -/
theorem reopen_get_wrapping :
    (¬ ∀ (sizing : Sizing) (dir : Text) (ops : List Op), dir.Plain → dir.Narrow →
      (Db.start sizing).allReturn ops →
      (∀ e ∈ written ops, e.key.size ≤ 1 ∧ e.value.size ≤ 1) →
      ((Db.start sizing).run ops).Reopens dir) ∧
    ¬ ∀ (sizing : Sizing) (dir : Text) (ops : List Op), dir.Plain → dir.Narrow →
      (Db.start sizing).allReturn ops → (written ops).length ≤ 1 →
      ((Db.start sizing).run ops).Reopens dir := by
  have hplain : Text.Plain ['d'] := by decide
  have hnarrow : Text.Narrow ['d'] := by decide
  constructor
  · intro h
    obtain ⟨sizing, ops, hr, hsize, db', k, hdb', hne⟩ := exists_wrapping
    obtain ⟨db'', hdb'', -, hsame⟩ := h sizing ['d'] ops hplain hnarrow hr hsize
    obtain rfl : db' = db'' := Except.ok.inj (hdb'.symm.trans hdb'')
    exact hne (hsame k)
  · intro h
    have hlong : (((Db.start fun _ => (64, 7)).run
        [.insert (.byte 1) (.zeros (2 ^ 32))]).reopen).toOption.any fun db =>
          (db.world.manifest.nodePath 1).isSome &&
            (Act.eval (getNode 1) ⟨db.world, none⟩).toOption.any fun n =>
              n.buffer.any fun e => decide (e.value.size = 2 ^ 32) := by
      decide +kernel
    obtain ⟨db, hdb, hbytes, -⟩ := h (fun _ => (64, 7)) ['d'] [.insert (.byte 1) (.zeros (2 ^ 32))]
      hplain hnarrow rfl (by decide)
    rw [hdb, Except.toOption, Option.any_some, Bool.and_eq_true] at hlong
    obtain ⟨hpath, hlong⟩ := hlong
    obtain ⟨n, hn, hlong⟩ := (Option.any_eq_true _ _).mp hlong
    obtain ⟨e, he, hsize⟩ := List.any_eq_true.mp hlong
    have heval : Act.eval (getNode 1) ⟨db.world, none⟩ = .ok n := by
      cases hv : Act.eval (getNode 1) ⟨db.world, none⟩ with
      | error _ =>
        rw [hv] at hn
        cases hn
      | ok m =>
        rw [hv] at hn
        exact congrArg Except.ok (Option.some.inj hn)
    have hshort := (hbytes.short hpath heval e he).2
    rw [of_decide_eq_true hsize] at hshort
    exact lt_irrefl _ hshort

end GravTree
