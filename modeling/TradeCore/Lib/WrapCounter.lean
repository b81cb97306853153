import Mathlib

/-!
# Counters that wrap

A machine counter of width `w` shows a true counter modulo `2 ^ w`. As long as two true counters
are less than `2 ^ w` apart, their difference and their equality can be read off the machine
counters (`wrapSub_mod`, `mod_eq_mod_iff`); and a ring whose size is a power of two finds the place
of a true counter from the machine counter by a mask (`mod_land_mask`), with different places for
the counters of one window (`mod_ne_mod`).
-/

/-- Subtraction of machine words. -/
def wrapSub (w a b : ℕ) : ℕ := (a + 2 ^ w - b) % 2 ^ w

/-- The distance of two true counters, from the machine counters. -/
theorem wrapSub_mod {w a b : ℕ} (h : a ≤ b) (hd : b - a < 2 ^ w) :
    wrapSub w (b % 2 ^ w) (a % 2 ^ w) = b - a := by
  have hlt := Nat.mod_lt a (Nat.two_pow_pos w)
  have hsum : b % 2 ^ w + 2 ^ w - a % 2 ^ w + a ≡ b [MOD 2 ^ w] := by
    have ha : a % 2 ^ w ≡ a [MOD 2 ^ w] := Nat.mod_modEq a _
    calc b % 2 ^ w + 2 ^ w - a % 2 ^ w + a
        ≡ b % 2 ^ w + 2 ^ w - a % 2 ^ w + a % 2 ^ w [MOD 2 ^ w] := ha.symm.add_left _
      _ = b % 2 ^ w + 2 ^ w := by omega
      _ ≡ b [MOD 2 ^ w] := (Nat.add_modEq_right).trans (Nat.mod_modEq b _)
  have hdiff : b % 2 ^ w + 2 ^ w - a % 2 ^ w ≡ b - a [MOD 2 ^ w] :=
    Nat.ModEq.add_right_cancel' a (by rwa [Nat.sub_add_cancel h])
  rw [wrapSub, hdiff, Nat.mod_eq_of_lt hd]

theorem wrapSub_zero {w n : ℕ} (h : n < 2 ^ w) : wrapSub w n 0 = n := by
  rw [wrapSub, Nat.sub_zero, Nat.add_mod_right, Nat.mod_eq_of_lt h]

/-- Counters that are close agree if the machine counters do. -/
theorem mod_eq_mod_iff {n a b : ℕ} (h : a ≤ b) (hd : b - a < n) : a % n = b % n ↔ a = b := by
  refine ⟨fun heq => ?_, fun heq => by rw [heq]⟩
  have hdvd := (Nat.modEq_iff_dvd' h).mp heq
  have hzero := Nat.eq_zero_of_dvd_of_lt hdvd hd
  omega

/-- Counters of one window have different places in a ring. -/
theorem mod_ne_mod {n lo a b : ℕ} (ha : lo ≤ a) (ha' : a < lo + n) (hb : lo ≤ b)
    (hb' : b < lo + n) (hne : a ≠ b) : a % n ≠ b % n := by
  rcases le_total a b with h | h
  · exact fun heq => hne ((mod_eq_mod_iff h (by omega)).mp heq)
  · exact fun heq => hne ((mod_eq_mod_iff h (by omega)).mp heq.symm).symm

/-- The place of a true counter in a ring of `2 ^ k` slots. -/
theorem mod_land_mask {w k : ℕ} (h : k ≤ w) (a : ℕ) : a % 2 ^ w &&& (2 ^ k - 1) = a % 2 ^ k := by
  rw [Nat.and_two_pow_sub_one_eq_mod, Nat.mod_mod_of_dvd _ (Nat.pow_dvd_pow 2 h)]
