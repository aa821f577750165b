import Mathlib.Logic.Function.Iterate
import Mathlib.Tactic.Common

/-!
# Cyclic redundancy checks

The bit-serial update of a check of `w` bits, most significant bit first, for a
polynomial with constant term one. One bit's update is linear over exclusive or and
loses nothing. A string that fits into the register is absorbed without loss too, so
two strings that differ only inside a window of `w` bits never get the same check.
-/

namespace Crc

variable {w : Nat} {P : BitVec w}

/-! ## One bit -/

/-- The update for one bit of the string. -/
def shift (P c : BitVec w) : BitVec w := if c.msb then (c <<< 1) ^^^ P else c <<< 1

theorem shift_xor (a b : BitVec w) : shift P (a ^^^ b) = shift P a ^^^ shift P b := by
  have hcancel : ∀ x y : BitVec w, x ^^^ P ^^^ (y ^^^ P) = x ^^^ y := by
    intro x y
    rw [BitVec.xor_assoc x P, ← BitVec.xor_assoc P y, BitVec.xor_comm P y, BitVec.xor_assoc y,
      BitVec.xor_self, BitVec.xor_zero]
  unfold shift
  rw [BitVec.msb_xor, BitVec.shiftLeft_xor_distrib]
  cases a.msb <;> cases b.msb
  · rfl
  · exact BitVec.xor_assoc ..
  · show (a <<< 1) ^^^ (b <<< 1) ^^^ P = (a <<< 1) ^^^ P ^^^ (b <<< 1)
    ac_rfl
  · exact (hcancel _ _).symm

theorem shift_eq_zero (hP : P.getLsbD 0 = true) {x : BitVec w} (h : shift P x = 0#w) :
    x = 0#w := by
  unfold shift at h
  split at h
  · -- the lowest bit has come in from the polynomial
    have h0 := congrArg (·.getLsbD 0) h
    simp [hP] at h0
  · rename_i hmsb
    refine BitVec.eq_of_getLsbD_eq fun i hi => ?_
    rw [BitVec.getLsbD_zero]
    by_cases hlast : i + 1 = w
    · rw [BitVec.msb_eq_getLsbD_last, show w - 1 = i by omega] at hmsb
      simpa using hmsb
    · have hnext := congrArg (·.getLsbD (i + 1)) h
      rw [BitVec.getLsbD_shiftLeft, BitVec.getLsbD_zero, Nat.add_sub_cancel] at hnext
      simpa only [show i + 1 < w by omega, decide_true, Bool.true_and, show ¬ i + 1 < 1 by omega,
        decide_false, Bool.not_false] using hnext

theorem shift_injective (hP : P.getLsbD 0 = true) : Function.Injective (shift P) := by
  intro a b h
  have h0 : shift P (a ^^^ b) = 0#w := by rw [shift_xor, h, BitVec.xor_self]
  exact BitVec.xor_eq_zero_iff.mp (shift_eq_zero hP h0)

theorem iterate_shift_xor (n : Nat) (a b : BitVec w) :
    (shift P)^[n] (a ^^^ b) = (shift P)^[n] a ^^^ (shift P)^[n] b := by
  induction n generalizing a b with
  | zero => rfl
  | succ n ih => rw [Function.iterate_succ_apply, shift_xor, ih]; rfl

/-- A register whose highest `n` bits are clear is only moved by `n` updates. -/
theorem iterate_shift_of_clear {x : BitVec w} : ∀ n, (∀ i, w ≤ i + n → x.getLsbD i = false) →
    (shift P)^[n] x = x <<< n := by
  intro n
  induction n with
  | zero => exact fun _ => (BitVec.shiftLeft_zero x).symm
  | succ n ih =>
    intro h
    have hmsb : (x <<< n).msb = false := by
      rw [BitVec.msb_shiftLeft, BitVec.getMsbD_eq_getLsbD, h _ (by omega), Bool.and_false]
    rw [Function.iterate_succ_apply', ih fun i hi => h i (by omega), shift, hmsb,
      if_neg (by simp), ← BitVec.shiftLeft_add]

/-! ## Strings -/

/-- A byte at the high end of the register. -/
def top (b : BitVec 8) : BitVec w := b.setWidth w <<< (w - 8)

/-- The update for one byte. -/
def byte (P c : BitVec w) (b : BitVec 8) : BitVec w := (shift P)^[8] (c ^^^ top b)

/-- The register after a string. -/
def run (P c : BitVec w) (bs : List (BitVec 8)) : BitVec w := bs.foldl (byte P) c

theorem run_append (c : BitVec w) (as bs : List (BitVec 8)) :
    run P c (as ++ bs) = run P (run P c as) bs := List.foldl_append ..

/-- Whatever the string, different registers stay different. -/
theorem run_injective (hP : P.getLsbD 0 = true) : ∀ {bs : List (BitVec 8)} {c d : BitVec w},
    run P c bs = run P d bs → c = d := by
  intro bs
  induction bs with
  | nil => exact id
  | cons b bs ih =>
    intro c d h
    have hbyte := (shift_injective hP).iterate 8 (ih h)
    have hxor := congrArg (· ^^^ top b) hbyte
    simpa only [BitVec.xor_assoc, BitVec.xor_self, BitVec.xor_zero] using hxor

/-! ## A string that fits into the register -/

/-- The string in the register, its first byte highest. -/
def pack : List (BitVec 8) → BitVec w
  | [] => 0#w
  | b :: bs => top b ^^^ (pack bs >>> 8)

theorem pack_clear : ∀ {bs : List (BitVec 8)} {i : Nat}, i + 8 * bs.length < w →
    (pack bs : BitVec w).getLsbD i = false := by
  intro bs
  induction bs with
  | nil => exact fun _ => BitVec.getLsbD_zero
  | cons b bs ih =>
    intro i hi
    rw [List.length_cons] at hi
    rw [pack, BitVec.getLsbD_xor, BitVec.getLsbD_ushiftRight, ih (by omega), top,
      BitVec.getLsbD_shiftLeft]
    simp [show i < w - 8 by omega]

theorem pack_shift {bs : List (BitVec 8)} (h : 8 * (bs.length + 1) ≤ w) :
    (shift P)^[8] (pack bs >>> 8) = pack bs := by
  rw [iterate_shift_of_clear]
  · refine BitVec.eq_of_getLsbD_eq fun i hi => ?_
    rw [BitVec.getLsbD_shiftLeft, BitVec.getLsbD_ushiftRight]
    by_cases hlow : i < 8
    · have hclear : (pack bs : BitVec w).getLsbD i = false := pack_clear (by omega)
      simp [hlow, hclear]
    · simp [hi, hlow, show 8 + (i - 8) = i by omega]
  · intro i hi
    rw [BitVec.getLsbD_ushiftRight]
    exact BitVec.getLsbD_of_ge _ _ (by omega)

/-- Running over a string that fits is putting it into the register first. -/
theorem run_eq_pack : ∀ {bs : List (BitVec 8)} {c : BitVec w}, 8 * bs.length ≤ w →
    run P c bs = (shift P)^[8 * bs.length] (c ^^^ pack bs) := by
  intro bs
  induction bs with
  | nil => exact fun {c} _ => (BitVec.xor_zero (x := c)).symm
  | cons b bs ih =>
    intro c h
    rw [List.length_cons] at h ⊢
    calc run P c (b :: bs) = run P (byte P c b) bs := rfl
      _ = (shift P)^[8 * bs.length] (byte P c b ^^^ pack bs) := ih (by omega)
      _ = (shift P)^[8 * bs.length] ((shift P)^[8] (c ^^^ pack (b :: bs))) := by
        rw [pack, ← BitVec.xor_assoc, iterate_shift_xor 8, pack_shift h, byte]
      _ = _ := by rw [← Function.iterate_add_apply, Nat.mul_succ]

theorem pack_injective : ∀ {as bs : List (BitVec 8)}, as.length = bs.length →
    8 * as.length ≤ w → (pack as : BitVec w) = pack bs → as = bs := by
  intro as
  induction as with
  | nil => exact fun hlen _ _ => (List.length_eq_zero_iff.mp hlen.symm).symm
  | cons a as ih =>
    intro bs hlen hw h
    obtain _ | ⟨b, bs⟩ := bs
    · cases hlen
    rw [List.length_cons] at hw
    have hlen' : as.length = bs.length := by simpa using hlen
    have hbit := fun i => congrArg (·.getLsbD i) h
    simp only [pack, BitVec.getLsbD_xor, BitVec.getLsbD_ushiftRight] at hbit
    -- the highest byte is the first one, the others are below it
    have hab : a = b := by
      refine BitVec.eq_of_getLsbD_eq fun j hj => ?_
      have := hbit (w - 8 + j)
      rw [BitVec.getLsbD_of_ge (pack as) _ (by omega),
        BitVec.getLsbD_of_ge (pack bs) _ (by omega), top, top] at this
      simpa [show w - 8 + j < w by omega, show j < w by omega,
        show ¬ w - 8 + j < w - 8 by omega] using this
    subst hab
    refine congrArg _ (ih hlen' (by omega) (BitVec.eq_of_getLsbD_eq fun i hi => ?_))
    by_cases hlow : i < 8
    · rw [pack_clear (by omega), pack_clear (by omega)]
    · have := hbit (i - 8)
      rw [show 8 + (i - 8) = i by omega] at this
      simpa using this

/-- **A burst that fits into the register is detected.** -/
theorem run_window_ne (hP : P.getLsbD 0 = true) (c : BitVec w) (front back : List (BitVec 8))
    {as bs : List (BitVec 8)} (hlen : as.length = bs.length) (hw : 8 * as.length ≤ w)
    (hne : as ≠ bs) : run P c (front ++ as ++ back) ≠ run P c (front ++ bs ++ back) := by
  intro h
  rw [run_append, run_append, run_append, run_append] at h
  have h := run_injective hP h
  generalize run P c front = s at h
  rw [run_eq_pack hw, run_eq_pack (show 8 * bs.length ≤ w from hlen ▸ hw), ← hlen] at h
  have hpack := (shift_injective hP).iterate _ h
  have hxor := congrArg (s ^^^ ·) hpack
  simp only [← BitVec.xor_assoc, BitVec.xor_self, BitVec.zero_xor] at hxor
  exact hne (pack_injective hlen hw hxor)

end Crc
