import GravTree.Proof.Run

/-!
# Cycles in which a file operation throws

`flush_thread_fn` swallows the exception and goes on with what the cycle has left in memory.
A restructuring lists its new nodes in memory first, and writes the manifest when all of them
are there. So an exception that finds a node listed in memory only has cut a restructuring
short. Any other exception leaves a tidy world, in which the steps that were completed have
been taken.
-/

namespace GravTree

/-- Every node that counts in memory counts in the manifest on disk. -/
def World.Listed (w : World) : Prop :=
  ∀ x r, w.manifest.nodes.lookup x = some r → r.valid = true →
    ∃ m r', w.disk.manifest = some m ∧ m.nodes.lookup x = some r' ∧ r'.valid = true

instance (w : World) : Decidable w.Listed :=
  decidable_of_iff (∀ p ∈ w.manifest.nodes.entries, p.2.valid = true →
      (w.disk.manifest.any fun m => (m.nodes.lookup p.1).any (·.valid)) = true) <| by
    refine ⟨fun h x r hr hv => ?_, fun h p hp hv => ?_⟩
    · obtain ⟨m, hm, h⟩ := (Option.any_eq_true _ _).mp (h ⟨x, r⟩ (AList.mem_lookup_iff.mp hr) hv)
      obtain ⟨r', hr', hv'⟩ := (Option.any_eq_true _ _).mp h
      exact ⟨m, r', hm, hr', hv'⟩
    · obtain ⟨m, r', hm, hr', hv'⟩ := h p.1 p.2 (AList.mem_lookup_iff.mpr hp) hv
      rw [hm, Option.any_some, hr', Option.any_some]
      exact hv'

/-- `es` were merged into the root of `w`, and steps of the tree led to `u`. -/
structure Drained (w : World) (es : List Entry) (u : World) : Prop where
  tidy : Tidy u (some u.rest.root)
  steps : ∃ cs, Steps (w.merged es).tree cs u.tree ∧
    ∃ l, u.rest.splits = l ++ (cs ++ w.rest.splits)

theorem LeadsTo.drained {w u : World} {es : List Entry} (T : Tidy u (some u.rest.root))
    (h : LeadsTo (w.merged es) u.tree u.rest.splits) : Drained w es u := by
  obtain ⟨cs, hs, hlog⟩ := h
  exact ⟨T, cs, hs, [], by rw [hlog, rest_merged, List.nil_append]⟩

/-- Where nothing is listed in memory only, no restructuring was cut short. -/
theorem World.Listed.not_mid {w₁ u : World} (hu : u.Listed) (h : Saved w₁) : ¬ Mid w₁ u := by
  intro M
  obtain ⟨x, hx, r, hr, hv⟩ := M.dirty
  obtain ⟨m, r', hm, hr', -⟩ := hu x r hr hv
  obtain ⟨m', hm', -, -, -, hplace⟩ := h
  obtain rfl : m = m' := Option.some.inj (hm.symm.trans (M.stored.trans hm'))
  exact absurd (hplace x r' hr').2.2 (not_lt.mpr hx)

/-- **A cycle** is completed or cut short, whatever throws. -/
theorem Tidy.cycle_halts {w : World} (T : Tidy w (some w.rest.root)) (es : List Entry)
    (plan : Option (Nat × Stop))
    (hA : Attached (Act.exec (catchAll (flushPending es)) ⟨w, plan⟩).rest.splits) :
    Halt (w.merged es) (Act.exec (catchAll (flushPending es)) ⟨w, plan⟩) ∧
      (plan = none → (Act.exec (catchAll (flushPending es)) ⟨w, plan⟩ = w.merged es ∨
          Tidy (Act.exec (catchAll (flushPending es)) ⟨w, plan⟩) none) ∧
        LeadsTo (w.merged es) (Act.exec (catchAll (flushPending es)) ⟨w, plan⟩).tree
          (Act.exec (catchAll (flushPending es)) ⟨w, plan⟩).rest.splits) := by
  obtain ⟨u, hexec⟩ : ∃ u, u = Act.exec (flushPending es) ⟨w, plan⟩ := ⟨_, rfl⟩
  have hcatch : Act.exec (catchAll (flushPending es)) ⟨w, plan⟩ = u :=
    (Act.exec_swallow ..).trans hexec.symm
  rw [hcatch] at hA ⊢
  have hlost : ∀ {e}, ¬ Lost (w.merged es) e u := by
    intro e hlost
    obtain ⟨-, cs, hcs, c, hc, hstale⟩ := hlost
    exact hA c (hcs ▸ List.mem_append_left _ hc) hstale
  have hdone : (u = w.merged es ∨ Tidy u none) ∧ LeadsTo (w.merged es) u.tree u.rest.splits →
      Halt (w.merged es) u := fun h => ⟨u, h.2, h.1, ⟨[], rfl⟩, .inl (.refl u)⟩
  have hspec := flushPending_spec T es
  cases plan with
  | none =>
    -- an exception of the code's own is that of a lost split
    rcases hspec.undisturbed with ⟨a, v, hx, h⟩ | ⟨e, v, s, hx, h⟩
    · obtain rfl : u = v := by rw [hexec, Act.exec, hx]
      exact ⟨hdone h, fun _ => h⟩
    · obtain rfl : u = v := by rw [hexec, Act.exec, hx]
      rcases h with ⟨⟨k, hk⟩, -⟩ | h
      · cases hk
      · exact absurd h hlost
  | some p =>
    refine ⟨?_, fun h => absurd h (Option.some_ne_none p)⟩
    rcases hexec ▸ hspec.exec (some p) with ⟨-, h⟩ | ⟨e, ⟨-, hhalt⟩ | h⟩
    · exact hdone h
    · exact hhalt
    · exact absurd h hlost

/-- It goes back to a tidy world, unless a file error leaves a node listed in memory only. -/
theorem Tidy.cycle_calm {w : World} (T : Tidy w (some w.rest.root)) (es : List Entry)
    (plan : Option (Nat × Stop))
    (hA : Attached (Act.exec (catchAll (flushPending es)) ⟨w, plan⟩).rest.splits)
    (hu : plan ≠ none → (Act.exec (catchAll (flushPending es)) ⟨w, plan⟩).Listed) :
    ∃ v, LeadsTo (w.merged es) v.tree v.rest.splits ∧ (v = w.merged es ∨ Tidy v none) ∧
      (∃ l, (Act.exec (catchAll (flushPending es)) ⟨w, plan⟩).rest.splits = l ++ v.rest.splits) ∧
      Calm v (Act.exec (catchAll (flushPending es)) ⟨w, plan⟩) := by
  obtain ⟨hhalt, hdone⟩ := T.cycle_halts es plan hA
  by_cases hp : plan = none
  · obtain ⟨h, hl⟩ := hdone hp
    exact ⟨_, hl, h, ⟨[], rfl⟩, .refl _⟩
  · obtain ⟨v, hl, h, hs, hcut⟩ := hhalt
    exact ⟨v, hl, h, hs, hcut.resolve_right ((hu hp).not_mid (T.drained h).saved)⟩

/-- **A cycle** restructures the tree that holds the drained entries. -/
theorem Tidy.cycle_drained {w : World} (T : Tidy w (some w.rest.root)) (es : List Entry)
    (plan : Option (Nat × Stop))
    (hA : Attached (Act.exec (catchAll (flushPending es)) ⟨w, plan⟩).rest.splits)
    (hu : plan ≠ none → (Act.exec (catchAll (flushPending es)) ⟨w, plan⟩).Listed) :
    Drained w es (Act.exec (catchAll (flushPending es)) ⟨w, plan⟩) := by
  obtain ⟨v, ⟨cs, hs, hlog⟩, h, ⟨l, hl⟩, C⟩ := T.cycle_calm es plan hA hu
  refine ⟨C.root.symm ▸ C.tidy (T.drained h), cs, ?_, l, by rw [hl, hlog, rest_merged]⟩
  have := hs.tail (.skip C.next)
  rw [List.nil_append] at this
  rwa [C.tree]

/-- **`flush()`** leaves the nodes below the root as they are. -/
theorem Tidy.persist_drained {w : World} (T : Tidy w (some w.rest.root)) (es : List Entry) :
    Drained w es (Act.exec (persistRoot es) ⟨w, none⟩) ∧
      Settled (Act.exec (persistRoot es) ⟨w, none⟩) := by
  rcases (persistRoot_spec T es).undisturbed with ⟨a, u, hx, hu, hl⟩ | ⟨e, u, s, hx, ⟨k, hk⟩, -⟩
  · have hexec : Act.exec (persistRoot es) ⟨w, none⟩ = u := by rw [Act.exec, hx]
    rw [hexec]
    exact ⟨hl.drained hu.tidy, hu⟩
  · cases hk

/-- It leaves the other nodes alone. -/
theorem Tidy.persist_view {w : World} (T : Tidy w (some w.rest.root)) (es : List Entry) :
    (Act.exec (persistRoot es) ⟨w, none⟩).rest.root = w.rest.root ∧
      ∀ y, y ≠ w.rest.root → (Act.exec (persistRoot es) ⟨w, none⟩).view y = w.view y := by
  obtain ⟨r, hr⟩ := T.sound.root_some
  have hr' : w.view w.rest.root = some r := hr
  have hn : ((w.merged es).cell w.rest.root).node = _ := node_merged hr'
  obtain ⟨m, hm⟩ : ∃ m, m = ({ r with buffer := stableSort (r.buffer ++ es) } : SSTNode) := ⟨_, rfl⟩
  rw [← hm] at hn
  have hid : m.id = w.rest.root := by
    rw [hm]
    exact (T.sound.shape.mem_row hr).2.2
  have hother : ∀ {u : World}, (∀ y, y ≠ w.rest.root → u.cell y = (w.merged es).cell y) →
      ∀ y, y ≠ w.rest.root → u.view y = w.view y := fun h y hy => by
    rw [World.view, h y hy, cell_merged_other hy]
    rfl
  rw [(persistRoot_runs T es hn).exec_eq]
  split
  · refine ⟨?_, hother fun y hy => ?_⟩
    · rw [World.rest_saved, rest_rewrite hid, rest_merged]
    · rw [World.cell_saved, cell_rewrite hn hid, if_neg hy]
  · exact ⟨by rw [rest_merged], hother fun y _ => rfl⟩

/-- The destructor ends like a `flush()`. -/
theorem Tidy.exec_destroyTree {w : World} (T : Tidy w (some w.rest.root)) (es : List Entry)
    (plan : Option (Nat × Stop)) :
    Act.exec (catchAll (destroyTree es)) ⟨w, plan⟩ = Act.exec (persistRoot es) ⟨w, plan⟩ := by
  have hroot : w.manifest.rootId ≠ invalidNodeId := Nat.ne_of_gt T.sound.rootPos
  have h : destroyTree es ⟨w, plan⟩ = persistRoot es ⟨w, plan⟩ := by
    show (if w.manifest.rootId ≠ invalidNodeId then persistRoot es else pure ()) ⟨w, plan⟩ = _
    rw [if_pos hroot]
  unfold catchAll
  rw [Act.exec_swallow, Act.exec, Act.exec, h]

end GravTree
