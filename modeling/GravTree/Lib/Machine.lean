import Mathlib.Tactic.Common

/-!
# Programs with injected faults

State-and-exception programs over a world, some of whose steps are marked as
operations of the environment. The environment may let one operation fail: it
counts operations down and ends the run at the one it picked, with the kind of
end it chose. The world at that moment is kept, so a run that was stopped shows
the state between two operations.

`Spec` is a partial-run logic for such programs. It quantifies over every choice
the environment has, so one proof covers the undisturbed run and all the runs
stopped on the way.
-/

/-- A world and the environment's plan for the operations to come. -/
structure Machine (σ κ : Type) where
  world : σ
  /-- How many operations still take place, and how the next one ends. -/
  stop : Option (Nat × κ) := none

/-- A run ends early by its own exception or because it was stopped. -/
inductive Exn (ε κ : Type) where
  | thrown (e : ε)
  | stopped (k : κ)

/-- Programs over a world. -/
abbrev Act (ε κ σ : Type) := EStateM (Exn ε κ) (Machine σ κ)

namespace Act

variable {ε κ σ α β : Type}

/-- The current world. -/
def world : Act ε κ σ σ := fun m => .ok m.world m

/-- Change the world. -/
def update (f : σ → σ) : Act ε κ σ Unit := fun m => .ok () { m with world := f m.world }

/-- The program's own exceptions. -/
def fail (e : ε) : Act ε κ σ α := fun m => .error (.thrown e) m

/-- An operation begins, unless the environment stops it. `counts` says which
kinds of stop see this operation at all. -/
def op (counts : κ → Bool) : Act ε κ σ Unit := fun m =>
  match m.stop with
  | none => .ok () m
  | some (n, k) =>
    if counts k then
      match n with
      | 0 => .error (.stopped k) { m with stop := none }
      | n + 1 => .ok () { m with stop := some (n, k) }
    else .ok () m

/-- Catch the exceptions `p` selects and go on. -/
def swallow (p : Exn ε κ → Bool) (x : Act ε κ σ Unit) : Act ε κ σ Unit := fun m =>
  match x m with
  | .ok _ m' => .ok () m'
  | .error e m' => if p e then .ok () m' else .error e m'

/-- The world a run leaves, also when it throws. -/
def exec (x : Act ε κ σ α) (m : Machine σ κ) : σ :=
  match x m with
  | .ok _ m' => m'.world
  | .error _ m' => m'.world

/-- What a run returns or throws. -/
def eval (x : Act ε κ σ α) (m : Machine σ κ) : Except (Exn ε κ) α :=
  match x m with
  | .ok a _ => .ok a
  | .error e _ => .error e

/-- A swallowed exception changes nothing but the end. -/
theorem exec_swallow (p : Exn ε κ → Bool) (x : Act ε κ σ Unit) (m : Machine σ κ) :
    exec (swallow p x) m = exec x m := by
  unfold exec swallow
  cases x m with
  | ok a m' => rfl
  | error e m' => by_cases hp : p e = true <;> simp [hp]

/-- A sequence returns if both parts do. -/
theorem bind_ok {x : Act ε κ σ α} {f : α → Act ε κ σ β} {b : β} {m m' : Machine σ κ}
    (h : (x >>= f) m = .ok b m') : ∃ a m₁, x m = .ok a m₁ ∧ f a m₁ = .ok b m' := by
  have h : EStateM.bind x f m = .ok b m' := h
  unfold EStateM.bind at h
  split at h
  · exact ⟨_, _, ‹_›, h⟩
  · cases h

theorem eval_ok {x : Act ε κ σ α} {a : α} {m : Machine σ κ} (h : eval x m = .ok a) :
    ∃ m', x m = .ok a m' := by
  unfold eval at h
  split at h
  · cases h
    exact ⟨_, ‹_›⟩
  · cases h

/-- The run returns what `q` accepts, and nothing is left that could stop it. -/
def returns (q : α → Bool) (x : Act ε κ σ α) (w : σ) : Bool :=
  match x ⟨w, none⟩ with
  | .ok a m => q a && m.stop.isNone
  | .error _ _ => false

theorem returns_ok {x : Act ε κ σ α} {w : σ} {q : α → Bool} (h : returns q x w = true) :
    ∃ a, q a = true ∧ x ⟨w, none⟩ = .ok a ⟨exec x ⟨w, none⟩, none⟩ := by
  unfold returns at h
  unfold exec
  split at h
  · rename_i a m hx
    obtain ⟨ha, hm⟩ := Bool.and_eq_true_iff.mp h
    obtain ⟨u, s⟩ := m
    obtain rfl : s = none := by simpa using hm
    exact ⟨a, ha, by rw [hx]⟩
  · exact nomatch h

/-! ## Specifications -/

/-- From the world `w`, whatever the environment plans: a run that returns does so
with `Q`, and a run that ends early does so with `E`, by a kind of stop that was
planned. -/
def Spec (x : Act ε κ σ α) (w : σ) (Q : α → σ → Prop) (E : Exn ε κ → σ → Prop) : Prop :=
  ∀ stop, match x ⟨w, stop⟩ with
    | .ok a m => m.stop.map Prod.snd = stop.map Prod.snd ∧ Q a m.world
    | .error e m => (∀ k, e = .stopped k → stop.map Prod.snd = some k) ∧ E e m.world

variable {x : Act ε κ σ α} {w : σ} {Q : α → σ → Prop} {E : Exn ε κ → σ → Prop}

theorem Spec.pure {a : α} (h : Q a w) : Spec (Pure.pure a : Act ε κ σ α) w Q E :=
  fun _ => ⟨rfl, h⟩

theorem Spec.fail {e : ε} (h : E (.thrown e) w) : Spec (Act.fail e : Act ε κ σ α) w Q E :=
  fun _ => ⟨fun _ hk => (nomatch hk), h⟩

theorem Spec.world {Q : σ → σ → Prop} (h : Q w w) :
    Spec (Act.world : Act ε κ σ σ) w Q E := fun _ => ⟨rfl, h⟩

theorem Spec.update {f : σ → σ} {Q : Unit → σ → Prop} (h : Q () (f w)) :
    Spec (Act.update f : Act ε κ σ Unit) w Q E := fun _ => ⟨rfl, h⟩

theorem Spec.op {counts : κ → Bool} {Q : Unit → σ → Prop} (hok : Q () w)
    (hstop : ∀ k, counts k = true → E (.stopped k) w) :
    Spec (Act.op counts : Act ε κ σ Unit) w Q E := by
  intro stop
  simp only [Act.op]
  cases stop with
  | none => exact ⟨rfl, hok⟩
  | some p =>
    obtain ⟨n, k⟩ := p
    by_cases hc : counts k
    · cases n with
      | zero =>
        simp only [hc, if_true]
        exact ⟨fun j hj => by cases hj; rfl, hstop k hc⟩
      | succ n =>
        simp only [hc, if_true]
        exact ⟨rfl, hok⟩
    · simp only [hc]
      exact ⟨rfl, hok⟩

/-- Sequencing. -/
theorem Spec.bind {f : α → Act ε κ σ β} {R : α → σ → Prop} {Q : β → σ → Prop}
    (hx : Spec x w R E) (hf : ∀ a w', R a w' → Spec (f a) w' Q E) :
    Spec (x >>= f) w Q E := by
  intro stop
  have h := hx stop
  show match EStateM.bind x f ⟨w, stop⟩ with
    | .ok a m => m.stop.map Prod.snd = stop.map Prod.snd ∧ Q a m.world
    | .error e m => (∀ k, e = .stopped k → stop.map Prod.snd = some k) ∧ E e m.world
  unfold EStateM.bind
  cases hr : x ⟨w, stop⟩ with
  | error e m =>
    rw [hr] at h
    exact h
  | ok a m =>
    rw [hr] at h
    obtain ⟨hs, hR⟩ := h
    have h' := hf a m.world hR m.stop
    show match f a m with
      | .ok a m => m.stop.map Prod.snd = stop.map Prod.snd ∧ Q a m.world
      | .error e m => (∀ k, e = .stopped k → stop.map Prod.snd = some k) ∧ E e m.world
    rw [← hs]
    exact h'

/-- Consequence. -/
theorem Spec.mono {Q' : α → σ → Prop} {E' : Exn ε κ → σ → Prop} (h : Spec x w Q E)
    (hQ : ∀ a w', Q a w' → Q' a w') (hE : ∀ e w', E e w' → E' e w') : Spec x w Q' E' := by
  intro stop
  have := h stop
  split at this
  · exact ⟨this.1, hQ _ _ this.2⟩
  · exact ⟨this.1, hE _ _ this.2⟩

/-- What more is known of the runs that return. -/
theorem Spec.and {Q' : α → σ → Prop} (h : Spec x w Q fun _ _ => True) (h' : Spec x w Q' E) :
    Spec x w (fun a u => Q a u ∧ Q' a u) E := by
  intro stop
  have hs := h stop
  have hs' := h' stop
  cases hx : x ⟨w, stop⟩ with
  | ok a m =>
    rw [hx] at hs hs'
    exact ⟨hs.1, hs.2, hs'.2⟩
  | error e m =>
    rw [hx] at hs'
    exact hs'

/-- Programs that read the world first. -/
theorem Spec.world_bind {f : σ → Act ε κ σ β} {Q : β → σ → Prop} (h : Spec (f w) w Q E) :
    Spec (Act.world >>= f) w Q E := h

/-- Programs that change the world first. -/
theorem Spec.update_bind {g : σ → σ} {f : Unit → Act ε κ σ β} {Q : β → σ → Prop}
    (h : Spec (f ()) (g w) Q E) : Spec (Act.update g >>= f) w Q E := h

/-- **An undisturbed run** returns, or ends by an exception of its own. -/
theorem Spec.undisturbed (h : Spec x w Q E) :
    (∃ a w', x ⟨w, none⟩ = .ok a ⟨w', none⟩ ∧ Q a w') ∨
      ∃ e w' s, x ⟨w, none⟩ = .error (.thrown e) ⟨w', s⟩ ∧ E (.thrown e) w' := by
  have := h none
  cases hx : x ⟨w, none⟩ with
  | ok a m =>
    rw [hx] at this
    obtain ⟨w', s⟩ := m
    obtain rfl : s = none := by simpa using this.1
    exact .inl ⟨a, w', rfl, this.2⟩
  | error e m =>
    rw [hx] at this
    cases e with
    | thrown e => exact .inr ⟨e, m.world, m.stop, rfl, this.2⟩
    | stopped k => exact absurd (this.1 k rfl) (by simp)

/-- **However it ends**, a run leaves a world with the one or with the other. -/
theorem Spec.exec (h : Spec x w Q E) (stop : Option (Nat × κ)) :
    (∃ a, Q a (Act.exec x ⟨w, stop⟩)) ∨ ∃ e, E e (Act.exec x ⟨w, stop⟩) := by
  have := h stop
  unfold Act.exec
  cases hx : x ⟨w, stop⟩ with
  | ok a m =>
    rw [hx] at this
    exact .inl ⟨a, this.2⟩
  | error e m =>
    rw [hx] at this
    exact .inr ⟨e, this.2⟩

/-! ## Runs with a known end

Most code is deterministic up to stops: it either does one thing or is stopped on
the way. `Runs` says which thing, and what holds wherever it may be stopped. -/

/-- From `w`, `x` returns `a` and leaves `w'`, unless it is stopped in a world with `H`. -/
def Runs (x : Act ε κ σ α) (w : σ) (a : α) (w' : σ) (H : σ → Prop) : Prop :=
  Spec x w (fun r u => r = a ∧ u = w') (fun e u => (∃ k, e = .stopped k) ∧ H u)

/-- `x` returns `a` and does nothing else. -/
abbrev Reads (x : Act ε κ σ α) (w : σ) (a : α) : Prop := Runs x w a w fun _ => False

section Runs

variable {a : α} {b : β} {w' w₁ : σ} {H : σ → Prop} {f : α → Act ε κ σ β}

theorem Runs.pure (a : α) (w : σ) : Runs (Pure.pure a : Act ε κ σ α) w a w H :=
  Spec.pure ⟨rfl, rfl⟩

theorem Runs.update (g : σ → σ) (w : σ) : Runs (Act.update g : Act ε κ σ Unit) w () (g w) H :=
  Spec.update ⟨rfl, rfl⟩

theorem Runs.op {counts : κ → Bool} (h : H w) :
    Runs (Act.op counts : Act ε κ σ Unit) w () w H :=
  Spec.op ⟨rfl, rfl⟩ fun k _ => ⟨⟨k, rfl⟩, h⟩

theorem Runs.bind (hx : Runs x w a w₁ H) (hf : Runs (f a) w₁ b w' H) :
    Runs (x >>= f) w b w' H :=
  Spec.bind hx fun _ _ ⟨hr, hu⟩ => hr ▸ hu ▸ hf

theorem Runs.mono {H' : σ → Prop} (h : Runs x w a w' H) (hH : ∀ u, H u → H' u) :
    Runs x w a w' H' :=
  Spec.mono h (fun _ _ h => h) fun _ u ⟨hk, hu⟩ => ⟨hk, hH u hu⟩

theorem Reads.runs (h : Reads x w a) : Runs x w a w H := Runs.mono h fun _ => False.elim

theorem Reads.bind (hx : Reads x w a) (hf : Runs (f a) w b w' H) : Runs (x >>= f) w b w' H :=
  Runs.bind hx.runs hf

theorem Runs.world_bind {f : σ → Act ε κ σ β} (h : Runs (f w) w b w' H) :
    Runs (Act.world >>= f) w b w' H := h

theorem Runs.update_bind {g : σ → σ} {f : Unit → Act ε κ σ β} (h : Runs (f ()) (g w) b w' H) :
    Runs (Act.update g >>= f) w b w' H := h

theorem Runs.op_bind {counts : κ → Bool} {f : Unit → Act ε κ σ β} (hw : H w)
    (h : Runs (f ()) w b w' H) : Runs (Act.op counts >>= f) w b w' H :=
  Runs.bind (Runs.op hw) h

/-- A run with a known end inside a program with a specification. -/
theorem Runs.spec_bind {Q : β → σ → Prop} (hx : Runs x w a w₁ H)
    (hE : ∀ k u, H u → E (.stopped k) u) (hf : Spec (f a) w₁ Q E) : Spec (x >>= f) w Q E := by
  refine Spec.bind (Spec.mono hx (fun _ _ h => h) ?_) fun _ _ ⟨hr, hu⟩ => hr ▸ hu ▸ hf
  rintro e u ⟨⟨k, rfl⟩, hu⟩
  exact hE k u hu

/-- Reading inside a program with a specification. -/
theorem Reads.spec_bind {Q : β → σ → Prop} (hx : Reads x w a) (hf : Spec (f a) w Q E) :
    Spec (x >>= f) w Q E :=
  Runs.spec_bind hx (fun _ _ => False.elim) hf

theorem Runs.ok_eq (h : Runs x w a w' H) : x ⟨w, none⟩ = .ok a ⟨w', none⟩ := by
  rcases Spec.undisturbed h with ⟨r, u, hx, rfl, rfl⟩ | ⟨e, u, s, -, ⟨k, hk⟩, -⟩
  · exact hx
  · exact nomatch hk

theorem Runs.eval_eq (h : Runs x w a w' H) : Act.eval x ⟨w, none⟩ = .ok a := by
  rw [Act.eval, h.ok_eq]

theorem Runs.exec_eq (h : Runs x w a w' H) : Act.exec x ⟨w, none⟩ = w' := by
  rw [Act.exec, h.ok_eq]

end Runs

/-! ## Invariants

What a program keeps from every world with `I`, however it ends. -/

/-- `x` keeps `I`, and what it returns has `A`. -/
def Keeps (I : σ → Prop) (x : Act ε κ σ α) (A : α → Prop) : Prop :=
  ∀ w, I w → Spec x w (fun a u => I u ∧ A a) fun _ u => I u

namespace Keeps

variable {I : σ → Prop} {A : α → Prop} {B : β → Prop} {f : α → Act ε κ σ β}

theorem pure {a : α} (h : A a) : Keeps I (Pure.pure a : Act ε κ σ α) A :=
  fun _ hw => Spec.pure ⟨hw, h⟩

theorem fail (e : ε) : Keeps I (Act.fail e : Act ε κ σ α) A := fun _ hw => Spec.fail hw

theorem world : Keeps I (Act.world : Act ε κ σ σ) I := fun _ hw => Spec.world ⟨hw, hw⟩

theorem update {g : σ → σ} (h : ∀ w, I w → I (g w)) :
    Keeps I (Act.update g : Act ε κ σ Unit) fun _ => True :=
  fun w hw => Spec.update ⟨h w hw, trivial⟩

theorem op (counts : κ → Bool) : Keeps I (Act.op counts : Act ε κ σ Unit) fun _ => True :=
  fun _ hw => Spec.op ⟨hw, trivial⟩ fun _ _ => hw

theorem bind (hx : Keeps I x A) (hf : ∀ a, A a → Keeps I (f a) B) : Keeps I (x >>= f) B :=
  fun w hw => Spec.bind (hx w hw) fun a u h => hf a h.2 u h.1

theorem mono {A' : α → Prop} (h : Keeps I x A) (hA : ∀ a, A a → A' a) : Keeps I x A' :=
  fun w hw => Spec.mono (h w hw) (fun a _ h => ⟨h.1, hA a h.2⟩) fun _ _ h => h

theorem swallow {x : Act ε κ σ Unit} {A : Unit → Prop} (p : Exn ε κ → Bool) (h : Keeps I x A)
    {w : σ} (hw : I w) (stop : Option (Nat × κ)) : I (Act.exec (Act.swallow p x) ⟨w, stop⟩) := by
  have hs := h w hw stop
  unfold Act.exec Act.swallow
  cases hx : x ⟨w, stop⟩ with
  | ok a m =>
    rw [hx] at hs
    exact hs.2.1
  | error e m =>
    rw [hx] at hs
    by_cases hp : p e = true
    · simp only [hp, if_true]
      exact hs.2
    · simp only [hp]
      exact hs.2

theorem exec (h : Keeps I x A) {w : σ} (hw : I w) (stop : Option (Nat × κ)) :
    I (Act.exec x ⟨w, stop⟩) := by
  have hs := h w hw stop
  unfold Act.exec
  cases hx : x ⟨w, stop⟩ with
  | ok a m =>
    rw [hx] at hs
    exact hs.2.1
  | error e m =>
    rw [hx] at hs
    exact hs.2

end Keeps

/-! ## Relations

What a program does from every world as relations between the world it finds and the one it
leaves: one for the runs that return and one for those that end early. -/

/-- Relations that one may go on along. -/
class Course (R S : σ → σ → Prop) : Prop where
  trans : ∀ {u v w}, R u v → R v w → R u w
  stop : ∀ {u v w}, R u v → S v w → S u w

/-- From `w`, `x` returns along `R` something with `A`, or ends early along `S`. -/
def Leads (R S : σ → σ → Prop) (x : Act ε κ σ α) (w : σ) (A : α → σ → Prop) : Prop :=
  Spec x w (fun a u => R w u ∧ A a u) fun _ u => S w u

namespace Leads

variable {R S : σ → σ → Prop} {A : α → σ → Prop} {B : β → σ → Prop} {f : α → Act ε κ σ β}

theorem pure {a : α} (h : R w w) (ha : A a w) : Leads R S (Pure.pure a : Act ε κ σ α) w A :=
  Spec.pure ⟨h, ha⟩

theorem fail (e : ε) (h : S w w) : Leads R S (Act.fail e : Act ε κ σ α) w A := Spec.fail h

theorem update {g : σ → σ} {A : Unit → σ → Prop} (h : R w (g w)) (ha : A () (g w)) :
    Leads R S (Act.update g : Act ε κ σ Unit) w A := Spec.update ⟨h, ha⟩

theorem op (counts : κ → Bool) (h : R w w) (h' : S w w) :
    Leads R S (Act.op counts : Act ε κ σ Unit) w fun _ u => u = w :=
  Spec.op ⟨h, rfl⟩ fun _ _ => h'

theorem bind [Course R S] (hx : Leads R S x w A)
    (hf : ∀ a u, R w u → A a u → Leads R S (f a) u B) : Leads R S (x >>= f) w B :=
  Spec.bind hx fun a u h => Spec.mono (hf a u h.1 h.2)
    (fun _ _ h' => ⟨Course.trans S h.1 h'.1, h'.2⟩) fun _ _ h' => Course.stop h.1 h'

theorem world_bind {f : σ → Act ε κ σ β} (h : Leads R S (f w) w B) :
    Leads R S (Act.world >>= f) w B := h

/-- A change of the world first. -/
theorem update_bind [Course R S] {g : σ → σ} {f : Unit → Act ε κ σ β} (h : R w (g w))
    (hf : Leads R S (f ()) (g w) B) : Leads R S (Act.update g >>= f) w B :=
  Spec.mono (Spec.update_bind hf) (fun _ _ h' => ⟨Course.trans S h h'.1, h'.2⟩)
    fun _ _ h' => Course.stop h h'

theorem mono {R' S' : σ → σ → Prop} {A' : α → σ → Prop} (h : Leads R S x w A)
    (hR : ∀ u, R w u → R' w u) (hS : ∀ u, S w u → S' w u)
    (hA : ∀ a u, R w u → A a u → A' a u) : Leads R' S' x w A' :=
  Spec.mono h (fun _ _ h => ⟨hR _ h.1, hA _ _ h.1 h.2⟩) fun _ _ h => hS _ h

/-- However it ends. -/
theorem exec (h : Leads R S x w A) (hRS : ∀ u, R w u → S w u) (stop : Option (Nat × κ)) :
    S w (Act.exec x ⟨w, stop⟩) :=
  (Spec.exec h stop).elim (fun ⟨_, h⟩ => hRS _ h.1) fun ⟨_, h⟩ => h

end Leads

/-! ## Two runs

What a program does from two worlds that cannot be told apart, when nothing stops it. -/

/-- From two worlds with `R`, `x` ends alike and leaves worlds with `R`. -/
def Alike (R : σ → σ → Prop) (x : Act ε κ σ α) : Prop :=
  ∀ w w', R w w' →
    (∃ a u u', x ⟨w, none⟩ = .ok a ⟨u, none⟩ ∧ x ⟨w', none⟩ = .ok a ⟨u', none⟩ ∧ R u u') ∨
      ∃ e m m', x ⟨w, none⟩ = .error e m ∧ x ⟨w', none⟩ = .error e m'

namespace Alike

variable {R : σ → σ → Prop} {f : α → Act ε κ σ β}

theorem pure (a : α) : Alike R (Pure.pure a : Act ε κ σ α) :=
  fun w w' h => .inl ⟨a, w, w', rfl, rfl, h⟩

theorem fail (e : ε) : Alike R (Act.fail e : Act ε κ σ α) :=
  fun _ _ _ => .inr ⟨_, _, _, rfl, rfl⟩

theorem bind (hx : Alike R x) (hf : ∀ a, Alike R (f a)) : Alike R (x >>= f) := by
  intro w w' h
  rcases hx w w' h with ⟨a, u, u', h₁, h₂, hu⟩ | ⟨e, m, m', h₁, h₂⟩
  · have hb : ∀ {v v' : σ}, x ⟨v, none⟩ = .ok a ⟨v', none⟩ → (x >>= f) ⟨v, none⟩ = f a ⟨v', none⟩ := by
      intro v v' h
      show EStateM.bind x f ⟨v, none⟩ = _
      simp only [EStateM.bind, h]
    rw [hb h₁, hb h₂]
    exact hf a u u' hu
  · have hb : ∀ {v : σ} {m}, x ⟨v, none⟩ = .error e m → (x >>= f) ⟨v, none⟩ = .error e m := by
      intro v m h
      show EStateM.bind x f ⟨v, none⟩ = _
      simp only [EStateM.bind, h]
    exact .inr ⟨e, m, m', hb h₁, hb h₂⟩

/-- Programs that first read what related worlds agree on. -/
theorem read {g : σ → α} (hg : ∀ w w', R w w' → g w = g w') (hf : ∀ a, Alike R (f a)) :
    Alike R (Act.world >>= fun w => f (g w)) := by
  intro w w' h
  show (∃ a u u', f (g w) ⟨w, none⟩ = .ok a ⟨u, none⟩ ∧ f (g w') ⟨w', none⟩ = .ok a ⟨u', none⟩ ∧
    R u u') ∨ ∃ e m m', f (g w) ⟨w, none⟩ = .error e m ∧ f (g w') ⟨w', none⟩ = .error e m'
  rw [← hg w w' h]
  exact hf (g w) w w' h

theorem eval_eq (hx : Alike R x) {w w' : σ} (h : R w w') :
    Act.eval x ⟨w, none⟩ = Act.eval x ⟨w', none⟩ := by
  rcases hx w w' h with ⟨a, u, u', h₁, h₂, -⟩ | ⟨e, m, m', h₁, h₂⟩
  · simp only [Act.eval, h₁, h₂]
  · simp only [Act.eval, h₁, h₂]

end Alike

/-! ## One run after another

What a program returns from one world it returns from another as well, when nothing stops it.
The worlds need not be alike: what the second run finds, the first one may have to fetch. -/

/-- If `y` returns from `v`, then `x` returns the same from `w`, with `Q`. -/
def Follows (x : Act ε κ σ α) (w : σ) (y : Act ε κ σ α) (v : σ) (Q : α → σ → σ → Prop) : Prop :=
  ∀ a m, y ⟨v, none⟩ = .ok a m →
    m.stop = none ∧ ∃ u, x ⟨w, none⟩ = .ok a ⟨u, none⟩ ∧ Q a u m.world

namespace Follows

variable {v : σ} {y : Act ε κ σ α} {R : α → σ → σ → Prop}

theorem pure {a : α} (h : R a w v) :
    Follows (Pure.pure a : Act ε κ σ α) w (Pure.pure a) v R := by
  intro b m hb
  cases hb
  exact ⟨rfl, w, rfl, h⟩

theorem fail (e : ε) : Follows (Act.fail e : Act ε κ σ α) w (Act.fail e) v R :=
  fun _ _ h => nomatch h

theorem update {g : σ → σ} {R : Unit → σ → σ → Prop} (h : R () (g w) (g v)) :
    Follows (Act.update g : Act ε κ σ Unit) w (Act.update g) v R := by
  intro b m hb
  cases hb
  exact ⟨rfl, g w, rfl, h⟩

theorem op (counts : κ → Bool) {R : Unit → σ → σ → Prop} (h : R () w v) :
    Follows (Act.op counts : Act ε κ σ Unit) w (Act.op counts) v R := by
  intro b m hb
  cases hb
  exact ⟨rfl, w, rfl, h⟩

theorem bind {f g : α → Act ε κ σ β} {Q : β → σ → σ → Prop} (hx : Follows x w y v R)
    (hf : ∀ a u u', R a u u' → Follows (f a) u (g a) u' Q) :
    Follows (x >>= f) w (y >>= g) v Q := by
  intro b m hb
  obtain ⟨a, ⟨v₁, s⟩, hy, hg⟩ := bind_ok hb
  obtain ⟨rfl, w₁, hx, hR⟩ := hx a _ hy
  obtain ⟨hs, u, hu, hQ⟩ := hf a w₁ v₁ hR b m hg
  refine ⟨hs, u, ?_, hQ⟩
  show EStateM.bind x f ⟨w, none⟩ = _
  simp only [EStateM.bind, hx, hu]

/-- Programs that read the world first. -/
theorem world_bind {f g : σ → Act ε κ σ β} {Q : β → σ → σ → Prop} (h : Follows (f w) w (g v) v Q) :
    Follows (Act.world >>= f) w (Act.world >>= g) v Q := h

theorem mono (h : Follows x w y v R) {Q : α → σ → σ → Prop} (hQ : ∀ a u u', R a u u' → Q a u u') :
    Follows x w y v Q := fun a m ha =>
  have ⟨hs, u, hu, hR⟩ := h a m ha
  ⟨hs, u, hu, hQ _ _ _ hR⟩

end Follows

end Act
