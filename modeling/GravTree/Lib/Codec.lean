import Mathlib.Data.List.Basic
import Mathlib.Data.List.Forall2
import Mathlib.Algebra.Order.Ring.Nat
import Mathlib.Tactic.Common
import Mathlib.Tactic.NormNum

/-!
# Binary codecs

A reader consumes bytes from the front of what is left and may fail. `Decodes r bs a`
says that `r` reads exactly `bs` and returns `a`, whatever follows; it composes along
`bind`, so a decoder is proved against its encoder field by field.
-/

/-- Readers over a list of bytes. -/
abbrev Reader (ε : Type) := StateT (List UInt8) (Except ε)

namespace Reader

variable {ε α β : Type}

/-- Take the next `n` bytes. -/
def take (e : ε) (n : Nat) : Reader ε (List UInt8) := fun bs =>
  if bs.length < n then .error e else .ok (bs.take n, bs.drop n)

/-- Read the same thing `n` times. -/
def many (r : Reader ε α) : Nat → Reader ε (List α)
  | 0 => pure []
  | n + 1 => do
    let a ← r
    let as ← many r n
    return a :: as

/-! ## Little-endian numbers -/

/-- The lowest `k` bytes of a number, lowest first. -/
def leBytes (n : Nat) : Nat → List UInt8
  | 0 => []
  | k + 1 => UInt8.ofNat n :: leBytes (n / 256) k

/-- The number with these bytes, lowest first. -/
def ofLe : List UInt8 → Nat
  | [] => 0
  | b :: bs => b.toNat + 256 * ofLe bs

@[simp] theorem length_leBytes (n k : Nat) : (leBytes n k).length = k := by
  induction k generalizing n with
  | zero => rfl
  | succ k ih => simp [leBytes, ih]

theorem ofLe_leBytes (n k : Nat) : ofLe (leBytes n k) = n % 256 ^ k := by
  induction k generalizing n with
  | zero => simp [leBytes, ofLe, Nat.mod_one]
  | succ k ih =>
    have hb : (UInt8.ofNat n).toNat = n % 256 := by simp
    have hp : 256 ^ (k + 1) = 256 * 256 ^ k := by rw [Nat.pow_succ, Nat.mul_comm]
    rw [leBytes, ofLe, ih, hb, hp, Nat.mod_mul]

/-- A little-endian number of `k` bytes. -/
def le (e : ε) (k : Nat) : Reader ε Nat := do
  let bs ← take e k
  return ofLe bs

/-! ## Reading back what was written -/

/-- `r` reads exactly `bs` and returns `a`. -/
def Decodes (r : Reader ε α) (bs : List UInt8) (a : α) : Prop :=
  ∀ rest, r (bs ++ rest) = .ok (a, rest)

variable {r : Reader ε α} {bs bs' : List UInt8} {a : α} {b : β}

theorem Decodes.pure (a : α) : Decodes (Pure.pure a : Reader ε α) [] a := fun _ => rfl

theorem Decodes.bind {f : α → Reader ε β} (h : Decodes r bs a) (h' : Decodes (f a) bs' b) :
    Decodes (r >>= f) (bs ++ bs') b := by
  intro rest
  show (r (bs ++ bs' ++ rest)).bind (fun p => f p.1 p.2) = _
  rw [List.append_assoc, h]
  exact h' rest

/-- What returns after the last field has been read. -/
theorem Decodes.map {f : α → β} (h : Decodes r bs a) :
    Decodes (r >>= fun a => Pure.pure (f a)) bs (f a) := by
  have := h.bind (f := fun a => Pure.pure (f a)) (.pure (f a))
  rwa [List.append_nil] at this

theorem decodes_take (e : ε) (bs : List UInt8) : Decodes (take e bs.length) bs bs := by
  intro rest
  simp [take]

/-- A number is read back modulo what its bytes can hold. -/
theorem decodes_le_mod (e : ε) (n k : Nat) : Decodes (le e k) (leBytes n k) (n % 256 ^ k) := by
  have ht : Decodes (take e k) (leBytes n k) (leBytes n k) := by
    have := decodes_take e (leBytes n k)
    rwa [length_leBytes] at this
  have := ht.map (f := ofLe)
  rwa [ofLe_leBytes] at this

theorem decodes_le (e : ε) {n k : Nat} (h : n < 256 ^ k) : Decodes (le e k) (leBytes n k) n := by
  have := decodes_le_mod e n k
  rwa [Nat.mod_eq_of_lt h] at this

theorem decodes_many {w : α → List UInt8} {l : List α} (h : ∀ a ∈ l, Decodes r (w a) a) :
    Decodes (many r l.length) (l.flatMap w) l := by
  induction l with
  | nil => exact .pure []
  | cons a l ih =>
    rw [List.flatMap_cons, List.length_cons, many]
    exact (h a (by simp)).bind (ih fun b hb => h b (by simp [hb])).map

/-! ## What is accepted -/

theorem ofLe_lt (bs : List UInt8) : ofLe bs < 256 ^ bs.length := by
  induction bs with
  | nil => simp [ofLe]
  | cons b bs ih =>
    have hb : b.toNat < 256 := b.toNat_lt
    rw [ofLe, List.length_cons, Nat.pow_succ]
    omega

theorem leBytes_ofLe (bs : List UInt8) : leBytes (ofLe bs) bs.length = bs := by
  induction bs with
  | nil => rfl
  | cons b bs ih =>
    have hb : b.toNat < 256 := b.toNat_lt
    have hlow : UInt8.ofNat (b.toNat + 256 * ofLe bs) = b := by
      refine UInt8.toNat_inj.mp ?_
      rw [UInt8.toNat_ofNat']
      omega
    have hhigh : (b.toNat + 256 * ofLe bs) / 256 = ofLe bs := by omega
    rw [ofLe, List.length_cons, leBytes, hlow, hhigh, ih]

/-- `r` accepts exactly the bytes that begin as the format `F` says, and returns the value
these stand for. -/
def Parses (r : Reader ε α) (F : List UInt8 → α → Prop) : Prop :=
  ∀ bs a rest, r bs = .ok (a, rest) ↔ ∃ used, F used a ∧ bs = used ++ rest

/-- One format after the other. -/
def Then (F : List UInt8 → α → Prop) (G : α → List UInt8 → β → Prop) (used : List UInt8)
    (b : β) : Prop := ∃ a u, F u a ∧ ∃ v, used = u ++ v ∧ G a v b

variable {F : List UInt8 → α → Prop} {G : α → List UInt8 → β → Prop}

theorem Parses.congr {F' : List UInt8 → α → Prop} (h : Parses r F)
    (hF : ∀ used a, F used a ↔ F' used a) : Parses r F' := by
  intro bs a rest
  rw [h]
  exact exists_congr fun used => and_congr (hF used a) Iff.rfl

theorem bind_eq_ok {f : α → Reader ε β} {bs rest : List UInt8} {b : β} :
    (r >>= f) bs = .ok (b, rest) ↔ ∃ a mid, r bs = .ok (a, mid) ∧ f a mid = .ok (b, rest) := by
  show (r bs).bind (fun p => f p.1 p.2) = _ ↔ _
  cases r bs with
  | error e => simp [Except.bind]
  | ok p => simp [Except.bind, Prod.ext_iff]

theorem Parses.pure (a : α) :
    Parses (Pure.pure a : Reader ε α) fun used b => used = [] ∧ b = a := by
  intro bs b rest
  show Except.ok (a, bs) = .ok (b, rest) ↔ _
  simp [eq_comm]

theorem Parses.bind {f : α → Reader ε β} (h : Parses r F) (h' : ∀ a, Parses (f a) (G a)) :
    Parses (r >>= f) (Then F G) := by
  intro bs b rest
  rw [bind_eq_ok]
  constructor
  · rintro ⟨a, mid, hr, hf⟩
    obtain ⟨u, hu, rfl⟩ := (h _ _ _).mp hr
    obtain ⟨v, hv, rfl⟩ := (h' a _ _ _).mp hf
    exact ⟨u ++ v, ⟨a, u, hu, v, rfl, hv⟩, (List.append_assoc ..).symm⟩
  · rintro ⟨used, ⟨a, u, hu, v, rfl, hv⟩, rfl⟩
    exact ⟨a, v ++ rest, (h _ _ _).mpr ⟨u, hu, List.append_assoc ..⟩,
      (h' a _ _ _).mpr ⟨v, hv, rfl⟩⟩

/-- What follows is only read under a condition. -/
theorem Parses.guard {c : Prop} [Decidable c] {e : ε} {f : β → Reader ε α} (h : Parses r F) :
    Parses (if ¬ c then MonadExcept.throw e >>= f else r) fun used a => c ∧ F used a := by
  intro bs a rest
  by_cases hc : c
  · rw [if_neg (not_not.mpr hc), h]
    simp [hc]
  · rw [if_pos hc]
    show Except.error e = .ok (a, rest) ↔ _
    simp [hc]

theorem parses_take (e : ε) (n : Nat) :
    Parses (take e n) fun used bs => used.length = n ∧ bs = used := by
  intro bs a rest
  rw [take]
  split
  · rename_i hlt
    simp only [reduceCtorEq, false_iff, not_exists, not_and]
    rintro used ⟨hlen, -⟩ rfl
    rw [List.length_append] at hlt
    omega
  · rename_i hle
    simp only [Except.ok.injEq, Prod.mk.injEq]
    constructor
    · rintro ⟨rfl, rfl⟩
      exact ⟨bs.take n, ⟨by rw [List.length_take]; omega, rfl⟩, (List.take_append_drop n bs).symm⟩
    · rintro ⟨used, ⟨rfl, rfl⟩, rfl⟩
      exact ⟨List.take_left' rfl, List.drop_left' rfl⟩

theorem parses_le (e : ε) (k : Nat) :
    Parses (le e k) fun used n => n < 256 ^ k ∧ used = leBytes n k := by
  refine ((parses_take e k).bind fun bs => Parses.pure (ofLe bs)).congr fun used n => ?_
  constructor
  · rintro ⟨bs, _, ⟨rfl, rfl⟩, _, rfl, rfl, rfl⟩
    exact ⟨ofLe_lt bs, by rw [List.append_nil, leBytes_ofLe]⟩
  · rintro ⟨hn, rfl⟩
    refine ⟨leBytes n k, leBytes n k, ⟨length_leBytes n k, rfl⟩, [], by simp, rfl, ?_⟩
    rw [ofLe_leBytes, Nat.mod_eq_of_lt hn]

theorem Parses.many (h : Parses r F) (n : Nat) : Parses (many r n) fun used as =>
    as.length = n ∧ ∃ us, List.Forall₂ F us as ∧ used = us.flatten := by
  induction n with
  | zero =>
    refine (Parses.pure []).congr fun used as => ?_
    constructor
    · rintro ⟨rfl, rfl⟩
      exact ⟨rfl, [], .nil, rfl⟩
    · rintro ⟨hlen, us, hus, rfl⟩
      obtain rfl := List.length_eq_zero_iff.mp hlen
      cases hus
      exact ⟨rfl, rfl⟩
  | succ n ih =>
    refine (h.bind fun a => ih.bind fun as => Parses.pure (a :: as)).congr fun used as => ?_
    constructor
    · rintro ⟨a, u, hu, _, rfl, as, _, ⟨hlen, us, hus, rfl⟩, _, rfl, rfl, rfl⟩
      exact ⟨by simp [hlen], u :: us, .cons hu hus, by simp⟩
    · rintro ⟨hlen, us, hus, rfl⟩
      cases hus with
      | nil => simp at hlen
      | @cons u a us as hu hus =>
        exact ⟨a, u, hu, us.flatten, by simp, as, us.flatten,
          ⟨by simpa using hlen, us, hus, rfl⟩, [], by simp, rfl, rfl⟩

/-- What is written one by one. -/
theorem parses_many_exact {p : α → Prop} {w : α → List UInt8}
    (h : Parses r fun used a => p a ∧ used = w a) (n : Nat) : Parses (Reader.many r n) fun used as =>
      (as.length = n ∧ ∀ a ∈ as, p a) ∧ used = as.flatMap w := by
  refine (h.many n).congr fun used as => ?_
  rw [and_assoc]
  refine and_congr Iff.rfl ?_
  constructor
  · rintro ⟨us, hus, rfl⟩
    induction hus with
    | nil => simp
    | cons ha _ ih => exact ⟨List.forall_mem_cons.mpr ⟨ha.1, ih.1⟩, by simp [ha.2, ih.2]⟩
  · rintro ⟨has, rfl⟩
    refine ⟨as.map w, ?_, rfl⟩
    rw [List.forall₂_map_left_iff, List.forall₂_same]
    exact fun a ha => ⟨has a ha, rfl⟩

/-- `r` never ends by an error that `P` describes. -/
def Avoids (r : Reader ε α) (P : ε → Prop) : Prop := ∀ bs e, r bs = .error e → ¬ P e

theorem bind_eq_error {f : α → Reader ε β} {bs : List UInt8} {e : ε} :
    (r >>= f) bs = .error e ↔
      r bs = .error e ∨ ∃ a mid, r bs = .ok (a, mid) ∧ f a mid = .error e := by
  show (r bs).bind (fun p => f p.1 p.2) = _ ↔ _
  cases r bs with
  | error e' => simp [Except.bind]
  | ok p => simp [Except.bind, Prod.ext_iff]

section Avoids

variable {P : ε → Prop}

theorem Avoids.pure (a : α) : Avoids (Pure.pure a : Reader ε α) P := fun _ _ h => nomatch h

theorem Avoids.bind {f : α → Reader ε β} (h : Avoids r P) (h' : ∀ a, Avoids (f a) P) :
    Avoids (r >>= f) P := by
  intro bs e he
  rcases bind_eq_error.mp he with he | ⟨a, mid, -, he⟩
  · exact h bs e he
  · exact h' a mid e he

theorem Avoids.guard {c : Prop} [Decidable c] {e : ε} {f : β → Reader ε α} (he : ¬ P e)
    (h : Avoids r P) : Avoids (if ¬ c then MonadExcept.throw e >>= f else r) P := by
  by_cases hc : c
  · rwa [if_neg (not_not.mpr hc)]
  · rw [if_pos hc]
    intro bs e' h'
    obtain rfl : e = e' := by simpa using (show Except.error e = Except.error e' from h')
    exact he

theorem avoids_take {e : ε} (h : ¬ P e) (n : Nat) : Avoids (take e n) P := by
  intro bs e' he
  rw [take] at he
  split at he
  · cases he
    exact h
  · cases he

theorem avoids_le {e : ε} (h : ¬ P e) (k : Nat) : Avoids (le e k) P :=
  (avoids_take h k).bind fun _ => .pure _

theorem Avoids.many (h : Avoids r P) (n : Nat) : Avoids (many r n) P := by
  induction n with
  | zero => exact .pure []
  | succ n ih => exact h.bind fun a => ih.bind fun as => .pure (a :: as)

end Avoids

end Reader
