import Mathlib.Data.Nat.Digits.Lemmas
import Mathlib.Data.List.Basic

/-!
# Decimal Numbers and Separators

Text is a list of characters. `decimal` writes a number with leading zeros, `readDecimal`
reads one below a bound, `stripHead` takes a beginning away, and `splitOnce` cuts a text at the
first occurrence of a separator.

* `readDecimal_decimal` — a number below the bound is read back.
* `splitOnce_append`, `splitOnce_eq_none` — a separator is found where a text without its
  first character ends.
-/

open List

/-- The digits of a number, zero-padded to a width. -/
def decimal (width n : ℕ) : List Char :=
  (((Nat.digits 10 n).map Nat.digitChar).reverse).leftpad (max 1 width) '0'

/-- The value of a digit. -/
def digitValue (c : Char) : Option ℕ :=
  if '0' ≤ c ∧ c ≤ '9' then some (c.toNat - '0'.toNat) else none

/-- Append a digit to a number that stays below a bound. -/
def pushDigit (bound n : ℕ) (c : Char) : Option ℕ := do
  let d ← digitValue c
  if 10 * n + d < bound then some (10 * n + d) else none

/-- The number below a bound that a text denotes; a plus sign may stand in front. -/
def readDecimal (bound : ℕ) (text : List Char) : Option ℕ :=
  let digits := if text.head? = some '+' then text.tail else text
  if digits = [] then none else digits.foldlM (pushDigit bound) 0

/-- Cut a text at the first occurrence of a separator. -/
def splitOnce (sep : List Char) : List Char → Option (List Char × List Char)
  | [] => if sep = [] then some ([], []) else none
  | c :: text =>
    if sep.isPrefixOf (c :: text) then some ([], (c :: text).drop sep.length)
    else (splitOnce sep text).map fun r => (c :: r.1, r.2)

/-- What follows a given beginning. -/
def stripHead (head text : List Char) : Option (List Char) :=
  if head.isPrefixOf text then some (text.drop head.length) else none

/-! ### Digits -/

theorem digitValue_digitChar {d : ℕ} (h : d < 10) : digitValue (Nat.digitChar d) = some d := by
  interval_cases d <;> rfl

theorem foldlM_pushDigit_zeros {bound : ℕ} (hbound : 0 < bound) (k : ℕ) :
    (replicate k '0').foldlM (pushDigit bound) 0 = some 0 := by
  have hzero : pushDigit bound 0 '0' = some 0 := by
    rw [pushDigit, show digitValue '0' = some 0 from rfl]
    exact if_pos hbound
  induction k with
  | zero => rfl
  | succ k ih =>
    rw [replicate_succ, foldlM_cons, hzero]
    exact ih

theorem foldlM_pushDigit_digits {bound n : ℕ} (h : n < bound) :
    ((Nat.digits 10 n).map Nat.digitChar).reverse.foldlM (pushDigit bound) 0 = some n := by
  -- the last digit is pushed onto the number without it
  induction n using Nat.strongRecOn with
  | ind n ih =>
    rcases Nat.eq_zero_or_pos n with rfl | hpos
    · rfl
    · rw [Nat.digits_def' (by norm_num) hpos, map_cons, reverse_cons,
        foldlM_append, ih (n / 10) (Nat.div_lt_self hpos (by norm_num)) (by omega)]
      have hpush : pushDigit bound (n / 10) (Nat.digitChar (n % 10)) = some n := by
        rw [pushDigit, digitValue_digitChar (Nat.mod_lt _ (by norm_num))]
        exact (if_pos (by omega)).trans (congrArg some (by omega))
      rw [Option.bind_eq_bind, Option.bind_some, foldlM_cons, hpush]
      rfl

theorem isDigit_of_mem_decimal {width n : ℕ} {c : Char} (h : c ∈ decimal width n) :
    ∃ d < 10, c = Nat.digitChar d := by
  rw [decimal, leftpad, mem_append, mem_replicate, mem_reverse, mem_map] at h
  rcases h with ⟨-, rfl⟩ | ⟨d, hd, rfl⟩
  · exact ⟨0, by norm_num, rfl⟩
  · exact ⟨d, Nat.digits_lt_base (by norm_num) hd, rfl⟩

theorem decimal_ne_nil (width n : ℕ) : decimal width n ≠ [] := by
  intro h
  have hlen := congrArg length h
  rw [decimal, length_leftpad, length_nil] at hlen
  omega

/-- A character that is not a digit. -/
theorem not_mem_decimal {c : Char} (hc : ∀ d < 10, c ≠ Nat.digitChar d) (width n : ℕ) :
    c ∉ decimal width n := by
  intro h
  obtain ⟨d, hd, heq⟩ := isDigit_of_mem_decimal h
  exact hc d hd heq

/-- **A number is read back** from its decimal notation. -/
theorem readDecimal_decimal {bound n : ℕ} (h : n < bound) (width : ℕ) :
    readDecimal bound (decimal width n) = some n := by
  have hplus : (decimal width n).head? ≠ some '+' := fun hhead =>
    not_mem_decimal (by decide) width n (mem_of_mem_head? hhead)
  rw [readDecimal, if_neg hplus, if_neg (decimal_ne_nil width n), decimal, leftpad,
    foldlM_append, foldlM_pushDigit_zeros (by omega)]
  exact foldlM_pushDigit_digits h

/-! ### Separators -/

@[simp] theorem stripHead_append (head text : List Char) :
    stripHead head (head ++ text) = some text := by
  rw [stripHead, if_pos (by rw [ isPrefixOf_iff_prefix]; exact prefix_append head text), drop_left]

/-- The separator is found behind a text without its first character. -/
theorem splitOnce_append {c : Char} {sep a : List Char} (ha : c ∉ a) (b : List Char) :
    splitOnce (c :: sep) (a ++ (c :: sep) ++ b) = some (a, b) := by
  induction a with
  | nil =>
    rw [nil_append, cons_append, splitOnce, if_pos]
    · simp
    · rw [ isPrefixOf_iff_prefix]
      exact prefix_append (c :: sep) b
  | cons d a ih =>
    rw [mem_cons, not_or] at ha
    rw [cons_append, cons_append, splitOnce, if_neg, ih ha.2]
    · rfl
    · rw [ isPrefixOf_iff_prefix, cons_prefix_cons]
      exact fun h => ha.1 h.1

/-- A text without its first character does not contain the separator. -/
theorem splitOnce_eq_none {c : Char} {sep a : List Char} (ha : c ∉ a) :
    splitOnce (c :: sep) a = none := by
  induction a with
  | nil => rfl
  | cons d a ih =>
    rw [mem_cons, not_or] at ha
    rw [splitOnce, if_neg, ih ha.2]
    · rfl
    · rw [ isPrefixOf_iff_prefix, cons_prefix_cons]
      exact fun h => ha.1 h.1
