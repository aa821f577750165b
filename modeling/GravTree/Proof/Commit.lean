import GravTree.Proof.Tidy

/-!
# Committing

Every restructuring ends by writing the manifest and collecting what it no longer
lists. Writing the manifest makes a filed world tidy; collecting is calm.
-/

namespace GravTree

variable {w u : World} {lag : Option NodeId}

/-- A run that was stopped, in a world with `H`. -/
def Stopped (H : World → Prop) (e : Exc) (u : World) : Prop := (∃ k, e = .stopped k) ∧ H u

theorem Calm.collected (F : Filed w lag) (C : Calm w u) {x : NodeId} {r : NodeMeta}
    (hr : (u.cell x).record = some r) (hv : r.valid = false) : Calm w (u.collected x r) := by
  have hpath : r.filePath = ⟨x⟩ := ((C.filed F).place hr).1
  -- the record was not valid before either
  have hinv : ¬ (w.cell x).Valid := by
    rw [← C.valid x]
    rintro ⟨r', hr', hv'⟩
    rw [hr] at hr'
    cases hr'
    simp [hv] at hv'
  refine ⟨?_, ?_, ?_, C.root, C.stored, C.next⟩
  · intro y
    rw [World.cell_collected _ _ _ _ hpath]
    split
    · exact C.node y
    · exact C.node y
  · intro y
    rw [World.cell_collected _ _ _ _ hpath]
    split
    · rename_i h
      exact .inr ⟨rfl, h ▸ hinv⟩
    · exact C.record y
  · intro y hy
    rw [World.cell_collected _ _ _ _ hpath]
    split
    · rename_i h
      subst h
      exact absurd (F.valid.mpr hy) hinv
    · exact C.file y hy

theorem gcLoop_spec (F : Filed w lag) : ∀ (ids : List NodeId) {u : World}, Calm w u →
    Act.Spec (gcLoop ids) u (fun _ u' => Calm w u' ∧ u'.rest.splits = u.rest.splits)
      (Stopped fun u' => Calm w u' ∧ u'.rest.splits = u.rest.splits) := by
  intro ids
  induction ids with
  | nil => exact fun C => Act.Spec.pure ⟨C, rfl⟩
  | cons x ids ih =>
    intro u C
    unfold gcLoop
    refine Act.Spec.world_bind ?_
    dsimp only
    split
    · rename_i r hr
      split
      · rename_i hv
        have hv : r.valid = false := by simpa using hv
        refine Act.Spec.bind (R := fun _ u' => u' = u) ?_ ?_
        · exact Act.Spec.op rfl fun k _ => ⟨⟨k, rfl⟩, C, rfl⟩
        · rintro _ _ rfl
          exact Act.Spec.update_bind (ih (C.collected F hr hv))
      · exact ih C
    · exact ih C

/-- **Collecting** is calm at every point. -/
theorem gc_spec (F : Filed w lag) :
    Act.Spec gc w (fun _ u => Calm w u ∧ u.rest.splits = w.rest.splits)
      (Stopped fun u => Calm w u ∧ u.rest.splits = w.rest.splits) :=
  Act.Spec.world_bind (gcLoop_spec F _ (.refl w))

theorem Filed.saved (F : Filed w lag) : Filed w.saved lag where
  fanout := F.fanout
  loaded := F.loaded
  valid := F.valid
  place := F.place
  file := F.file

/-- **Writing the manifest** makes a filed world tidy. -/
theorem Filed.tidy_saved (S : w.tree.Sound) (F : Filed w lag) : Tidy w.saved lag where
  sound := S
  filed := F.saved
  saved := ⟨w.manifest, rfl, rfl, le_rfl, fun _ => F.valid, fun _ _ hr => F.place hr⟩

section Commit

variable {w₀ : World} {d : Prop} (hlead : LeadsTo w₀ w.tree w.rest.splits) (S : w.tree.Sound)
  (F : Filed w none)

include hlead S F

/-- A world that is ready to be committed is a place where a run may be stopped. -/
theorem Filed.halt (hstop : Mid w₀ w ∨ Saved w) : Halt w₀ w := by
  rcases hstop with M | D
  · obtain ⟨cs, -, hl⟩ := hlead
    exact Going.halt ⟨.inr M, cs, hl⟩
  · exact ⟨w, hlead, .inr ⟨S, F, D⟩, ⟨[], rfl⟩, .inl (.refl w)⟩

theorem gc_saved_spec : Act.Spec gc w.saved
    (fun _ u => Tidy u none ∧ LeadsTo w₀ u.tree u.rest.splits ∧
      u.rest.splits = w.rest.splits ∧ Calm w.saved u)
    (Stopped fun v => d → Halt w₀ v) := by
  have hT := F.tidy_saved S
  refine (gc_spec hT.filed).mono ?_ ?_
  · rintro _ u ⟨C, hs⟩
    have hlead' : LeadsTo w₀ w.saved.tree u.rest.splits := hs ▸ hlead
    exact ⟨C.tidy hT, hlead'.calm C.tree.symm C.next, hs, C⟩
  · rintro e u ⟨hk, C, hs⟩
    exact ⟨hk, fun _ => ⟨w.saved, hlead, .inr hT, ⟨[], hs⟩, .inl C⟩⟩

/-- **The end of every restructuring** of `w₀`: from a world whose files are in place,
write the manifest and collect. -/
theorem commit_spec (hstop : d → Mid w₀ w ∨ Saved w) : Act.Spec (save >>= fun _ => gc) w
    (fun _ u => Tidy u none ∧ LeadsTo w₀ u.tree u.rest.splits ∧
      u.rest.splits = w.rest.splits ∧ Calm w.saved u)
    (Stopped fun v => d → Halt w₀ v) :=
  Act.Runs.spec_bind (save_runs fun hd => F.halt hlead S (hstop hd)) (fun k _ h => ⟨⟨k, rfl⟩, h⟩)
    (gc_saved_spec hlead S F)

theorem commit_bind {α : Type} {k : Unit → M α} {Q : α → World → Prop}
    (hstop : d → Mid w₀ w ∨ Saved w)
    (hk : ∀ u, Tidy u none → LeadsTo w₀ u.tree u.rest.splits → u.rest.splits = w.rest.splits →
      Calm w.saved u → Act.Spec (k ()) u Q (Stopped fun v => d → Halt w₀ v)) :
    Act.Spec (save >>= fun _ => gc >>= k) w Q (Stopped fun v => d → Halt w₀ v) :=
  Act.Runs.spec_bind (save_runs fun hd => F.halt hlead S (hstop hd)) (fun k _ h => ⟨⟨k, rfl⟩, h⟩)
    (Act.Spec.bind (gc_saved_spec hlead S F) fun _ u ⟨hT, hl, hs, hv⟩ => hk u hT hl hs hv)

end Commit

end GravTree
