import Mathlib.Tactic.Common

/-!
# Labelled transition systems

A system is a partial step function on states. `Reach` are the states of the runs
whose steps all meet a condition: what must not happen for an invariant to hold is
a condition on the state a step starts from and on its label.
-/

namespace System

variable {σ α : Type*}

/-- The states reached from `init` by steps that meet `ok`. -/
inductive Reach (step : σ → α → Option σ) (ok : σ → α → Prop) (init : σ) : σ → Prop
  | init : Reach step ok init init
  | next {s s' : σ} (a : α) : Reach step ok init s → ok s a → step s a = some s' →
      Reach step ok init s'

/-- Take the steps in turn. -/
def run (step : σ → α → Option σ) : σ → List α → Option σ
  | s, [] => some s
  | s, a :: as => (step s a).bind fun s' => run step s' as

/-- Take the steps in turn, as long as each meets the condition. -/
def runOk (step : σ → α → Option σ) (ok : σ → α → Prop) [∀ s a, Decidable (ok s a)] :
    σ → List α → Option σ
  | s, [] => some s
  | s, a :: as => if ok s a then (step s a).bind fun s' => runOk step ok s' as else none

variable {step : σ → α → Option σ} {ok : σ → α → Prop} {init : σ}

/-- **The invariant rule.** -/
theorem Reach.inv {s : σ} (h : Reach step ok init s) (I : σ → Prop) (h0 : I init)
    (hstep : ∀ s a s', I s → ok s a → step s a = some s' → I s') : I s := by
  induction h with
  | init => exact h0
  | next a _ hok hs ih => exact hstep _ a _ ih hok hs

theorem Reach.trans {s s' : σ} (h : Reach step ok init s) (h' : Reach step ok s s') :
    Reach step ok init s' := by
  induction h' with
  | init => exact h
  | next a _ hok hs ih => exact .next a ih hok hs

/-- The steps of a run reach its end. -/
theorem reach_runOk [∀ s a, Decidable (ok s a)] {as : List α} {s s' : σ}
    (h : runOk step ok s as = some s') : Reach step ok s s' := by
  induction as generalizing s with
  | nil =>
    cases h
    exact .init
  | cons a as ih =>
    rw [runOk] at h
    split at h
    · rename_i hok
      obtain ⟨s₁, hs, h⟩ := Option.bind_eq_some_iff.mp h
      exact Reach.trans (.next a .init hok hs) (ih h)
    · cases h

/-- A run whose steps meet a condition meets a weaker one. -/
theorem runOk_mono {ok' : σ → α → Prop} [∀ s a, Decidable (ok s a)] [∀ s a, Decidable (ok' s a)]
    (himp : ∀ s a, ok s a → ok' s a) {as : List α} :
    ∀ {s s' : σ}, runOk step ok s as = some s' → runOk step ok' s as = some s' := by
  induction as with
  | nil => exact fun h => h
  | cons a as ih =>
    intro s s' h
    rw [runOk] at h ⊢
    split at h
    · rename_i hok
      obtain ⟨s₁, hs, h⟩ := Option.bind_eq_some_iff.mp h
      rw [if_pos (himp s a hok), hs]
      exact ih h
    · cases h

/-- **The variant rule**: a run is no longer than what it uses up. -/
theorem runOk_bounded [∀ s a, Decidable (ok s a)] {I : σ → Prop} {μ : σ → Nat}
    (hstep : ∀ s a s', I s → ok s a → step s a = some s' → I s' ∧ μ s' < μ s) {as : List α} :
    ∀ {s s' : σ}, I s → runOk step ok s as = some s' → I s' ∧ as.length + μ s' ≤ μ s := by
  induction as with
  | nil =>
    intro s s' hs h
    cases h
    exact ⟨hs, by simp⟩
  | cons a as ih =>
    intro s s' hs h
    rw [runOk] at h
    split at h
    · rename_i hok
      obtain ⟨s₁, hs₁, h⟩ := Option.bind_eq_some_iff.mp h
      obtain ⟨hI, hlt⟩ := hstep s a s₁ hs hok hs₁
      obtain ⟨hI', hle⟩ := ih hI h
      exact ⟨hI', by rw [List.length_cons]; omega⟩
    · cases h

end System
