import Mathlib

/-!
# Apportionment by Largest Remainders

Dividing `f` indivisible units over weights `l` with total `T`: each weight `r` first gets
the floored share `f * r / T`, and the units lost to rounding go one by one to distinct
positions. The rounding loss is less than the number of positions, and with `f < T` a
share plus one extra unit never exceeds its weight.
-/

open List Option

namespace Apportion

/-- The floored shares of `f` units. -/
def shares (f T : ℕ) (l : List ℕ) : List ℕ :=
  l.map fun r => f * r / T

/-- The fractional remainders of the shares, in units of `1 / T`. -/
def fractions (f T : ℕ) (l : List ℕ) : List ℕ :=
  l.map fun r => f * r % T

/-- Division with remainder, summed over the weights. -/
theorem mul_sum_shares_add (f T : ℕ) (l : List ℕ) :
    T * (shares f T l).sum + (fractions f T l).sum = f * l.sum := by
  induction l with
  | nil => simp [shares, fractions]
  | cons r l ih =>
    have hr := Nat.div_add_mod (f * r) T
    simp only [shares, fractions, map_cons, sum_cons, mul_add] at ih ⊢
    omega

/-- The floored shares do not exceed what there is to share. -/
theorem sum_shares_le {f T : ℕ} {l : List ℕ} (hT : 0 < T) (hl : l.sum = T) :
    (shares f T l).sum ≤ f := by
  have h := mul_sum_shares_add f T l
  rw [hl, mul_comm f T] at h
  exact Nat.le_of_mul_le_mul_left (by omega) hT

/-- Each fraction is less than a unit. -/
theorem sum_fractions_lt {f T : ℕ} {l : List ℕ} (hT : 0 < T) (hl : l ≠ []) :
    (fractions f T l).sum < l.length * T := by
  induction l with
  | nil => exact absurd rfl hl
  | cons r l ih =>
    have hr : f * r % T < T := Nat.mod_lt _ hT
    rw [fractions, map_cons, sum_cons, length_cons, Nat.succ_mul]
    by_cases hnil : l = []
    · simp only [hnil, map_nil, sum_nil, length_nil]
      omega
    · have := ih hnil
      rw [fractions] at this
      omega

/-- **The rounding loss is less than the number of positions.** -/
theorem leftover_lt {f T : ℕ} {l : List ℕ} (hT : 0 < T) (hl : l.sum = T) :
    f - (shares f T l).sum < l.length := by
  have hne : l ≠ [] := by
    rintro rfl
    rw [sum_nil] at hl
    omega
  have h := mul_sum_shares_add f T l
  have hlt := sum_fractions_lt (f := f) hT hne
  have hle := sum_shares_le (f := f) hT hl
  rw [hl, mul_comm f T] at h
  have hfrac : (fractions f T l).sum = T * (f - (shares f T l).sum) := by
    rw [Nat.mul_sub]
    omega
  rw [hfrac, mul_comm l.length T] at hlt
  exact Nat.lt_of_mul_lt_mul_left hlt

/-- With less than the total to share, a floored share is below its weight. -/
theorem share_lt {f T r : ℕ} (hf : f < T) (hr : 0 < r) : f * r / T < r := by
  rw [Nat.div_lt_iff_lt_mul (by omega)]
  calc f * r < T * r := Nat.mul_lt_mul_of_pos_right hf hr
    _ = r * T := mul_comm T r

/-- What is handed out position by position is handed out below the last of them. -/
theorem sum_count_range (n : ℕ) (lucky : List ℕ) :
    ((List.range n).map fun i => lucky.count i).sum = lucky.countP (· < n) := by
  induction lucky with
  | nil => simp
  | cons a lucky ih =>
    have hone :
        ((List.range n).map fun i => if a = i then 1 else 0).sum = if a < n then 1 else 0 := by
      calc ((List.range n).map fun i => if a = i then 1 else 0).sum
          = ∑ i ∈ Finset.range n, if a = i then 1 else 0 := rfl
        _ = if a < n then 1 else 0 := by simp only [Finset.sum_ite_eq, Finset.mem_range]
    simp only [count_cons, beq_iff_eq, sum_map_add, ih, hone, countP_cons, decide_eq_true_eq]

end Apportion
