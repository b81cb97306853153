import Mathlib

/-!
# Consecutively Numbered Lists

A list whose elements carry consecutive numbers. Selecting by number is then the same as
cutting by position, which is how logs that are addressed by index are stored.

## Main results

* `Consecutive.filter_lt`, `Consecutive.takeWhile_lt`, `Consecutive.filter_gt` — selections
  below or above a number are prefixes or suffixes.
* `Consecutive.getLast?_eq` — the number of the last element.
-/

open List

/-- The elements of `xs` are numbered `a`, `a + 1`, … -/
def Consecutive {α : Type} (f : α → ℕ) (a : ℕ) (xs : List α) : Prop :=
  xs.map f = range' a xs.length

namespace Consecutive

variable {α : Type} {f : α → ℕ} {a : ℕ} {xs ys : List α}

theorem nil : Consecutive f a [] := rfl

theorem cons_iff {x : α} : Consecutive f a (x :: xs) ↔ f x = a ∧ Consecutive f (a + 1) xs := by
  simp [Consecutive, range'_succ]

theorem singleton (x : α) : Consecutive f (f x) [x] := rfl

theorem append_iff : Consecutive f a (xs ++ ys) ↔
    Consecutive f a xs ∧ Consecutive f (a + xs.length) ys := by
  induction xs generalizing a with
  | nil => simp [Consecutive]
  | cons x xs ih =>
    rw [cons_append, cons_iff, cons_iff, ih, length_cons, and_assoc, add_right_comm, add_assoc]

variable (h : Consecutive f a xs)
include h

theorem take (n : ℕ) : Consecutive f a (xs.take n) :=
  (append_iff.mp ((take_append_drop n xs).symm ▸ h)).1

theorem drop {n : ℕ} (hn : n ≤ xs.length) : Consecutive f (a + n) (xs.drop n) := by
  have hsplit := (append_iff.mp ((take_append_drop n xs).symm ▸ h)).2
  rwa [length_take_of_le hn] at hsplit

/-- The numbers lie between the first and the last. -/
theorem bounds {x : α} (hx : x ∈ xs) : a ≤ f x ∧ f x < a + xs.length := by
  have hmem : f x ∈ xs.map f := mem_map_of_mem hx
  rw [h, mem_range'_1] at hmem
  exact hmem

theorem lt_of_mem_take {k : ℕ} {x : α} (hx : x ∈ xs.take (k - a)) : f x < k := by
  have hb := (h.take (k - a)).bounds hx
  rw [length_take] at hb
  omega

theorem le_of_mem_drop {k : ℕ} {x : α} (hx : x ∈ xs.drop (k - a)) : k ≤ f x := by
  have hn : k - a ≤ xs.length := by
    by_contra hn
    rw [drop_eq_nil_of_le (by omega)] at hx
    cases hx
  have hb := ((h.drop hn).bounds hx).1
  omega

/-- The elements numbered below `k` come first. -/
theorem filter_lt (k : ℕ) : xs.filter (f · < k) = xs.take (k - a) := by
  conv_lhs => rw [← take_append_drop (k - a) xs]
  rw [filter_append, filter_eq_self.mpr fun x hx => decide_eq_true (h.lt_of_mem_take hx),
    filter_eq_nil_iff.mpr fun x hx => by simpa using h.le_of_mem_drop hx, append_nil]

/-- Stopping at the first element numbered `k` or more drops all of them. -/
theorem takeWhile_lt (k : ℕ) : xs.takeWhile (f · < k) = xs.take (k - a) := by
  have hstop : (xs.drop (k - a)).takeWhile (f · < k) = [] := takeWhile_eq_nil_iff.mpr fun hlen => by
    simpa only [decide_eq_true_eq, not_lt] using h.le_of_mem_drop (get_mem _ ⟨0, hlen⟩)
  conv_lhs => rw [← take_append_drop (k - a) xs]
  rw [takeWhile_append_of_pos fun x hx => decide_eq_true (h.lt_of_mem_take hx), hstop, append_nil]

/-- The elements numbered above `k` come last. -/
theorem filter_gt (k : ℕ) : xs.filter (k < f ·) = xs.drop (k + 1 - a) := by
  have hfront : (xs.take (k + 1 - a)).filter (k < f ·) = [] := filter_eq_nil_iff.mpr fun x hx => by
    simpa only [decide_eq_true_eq, not_lt] using Nat.le_of_lt_succ (h.lt_of_mem_take hx)
  conv_lhs => rw [← take_append_drop (k + 1 - a) xs, filter_append, hfront, nil_append]
  exact filter_eq_self.mpr fun x hx => decide_eq_true (h.le_of_mem_drop hx)

/-- The last element carries the last number. -/
theorem getLast?_eq : xs.getLast?.map f = if xs = [] then none else some (a + xs.length - 1) := by
  induction xs using reverseRecOn with
  | nil => rfl
  | append_singleton xs x _ =>
    have hx := (cons_iff.mp (append_iff.mp h).2).1
    simp [hx]

end Consecutive
