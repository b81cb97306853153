import Mathlib

/-!
# Scanning the Set Bits of a Word

Two loops that enumerate the set bits of a word. The ascending loop takes the lowest set
bit (`ctz`) and clears it with `bits &= bits - 1`; the descending loop takes the highest
set bit (`clz`) and masks it out. Both visit every set bit once, in strictly monotone
order, which determines the list they produce.

## Main results

* `Visits.mem_iff`, `Visits.pairwise`: such a loop lists the set bits in the order in which it
  picks them.
* `scanDesc_eq_reverse`: the descending loop lists them backwards.
-/

open List

namespace BitScan

variable {w : ℕ}

/-- The positions of the set bits as the ascending loop visits them. -/
def scanAsc : ℕ → BitVec w → List ℕ
  | 0, _ => []
  | n + 1, bits =>
    if bits = 0 then [] else bits.ctz.toNat :: scanAsc n (bits &&& (bits - 1))

/-- The positions of the set bits as the descending loop visits them. -/
def scanDesc : ℕ → BitVec w → List ℕ
  | 0, _ => []
  | n + 1, bits =>
    if bits = 0 then []
    else
      let i := w - 1 - bits.clz.toNat
      i :: scanDesc n (bits &&& ~~~(BitVec.twoPow w i))

/-! ### Single steps -/

/-- A set bit lies inside the word. -/
theorem lt_of_getLsbD {bits : BitVec w} {i : ℕ} (h : bits.getLsbD i = true) : i < w := by
  by_contra hc
  rw [BitVec.getLsbD_of_ge _ _ (not_lt.mp hc)] at h
  exact Bool.false_ne_true h

/-- No set bit lies below the lowest one. -/
theorem ctz_le_of_getLsbD {bits : BitVec w} {i : ℕ} (h : bits.getLsbD i = true) :
    bits.ctz.toNat ≤ i := by
  by_contra hc
  rw [BitVec.getLsbD_false_of_lt_ctz (not_le.mp hc)] at h
  exact Bool.false_ne_true h

/-- The number below `2 ^ k * (2 * m + 1)` agrees with it above bit `k`, and clears
bit `k`. -/
private theorem testBit_pred_odd_mul (k m j : ℕ) (hj : k ≤ j) :
    (2 ^ k * (2 * m + 1) - 1).testBit j = ((2 ^ k * (2 * m + 1)).testBit j && decide (j ≠ k)) := by
  have hpos : 0 < 2 ^ k := Nat.two_pow_pos k
  have hsplit : 2 ^ k * (2 * m + 1) - 1 = 2 ^ k * (2 * m) + (2 ^ k - 1) := by
    rw [mul_add, mul_one]
    omega
  rw [hsplit, Nat.testBit_two_pow_mul_add _ (by omega), Nat.testBit_two_pow_mul, if_neg (by omega)]
  obtain ⟨d, rfl⟩ : ∃ d, j = k + d := ⟨j - k, by omega⟩
  cases d with
  | zero => simp
  | succ d =>
    have hd : k + (d + 1) - k = d + 1 := by omega
    rw [hd, Nat.testBit_succ, Nat.testBit_succ]
    have h2 : (2 * m + 1) / 2 = 2 * m / 2 := by omega
    simp [h2]

/-- A non-zero word is an odd multiple of the power of two at its lowest set bit. -/
private theorem toNat_eq_two_pow_mul {bits : BitVec w} (h : bits ≠ 0) :
    ∃ m, bits.toNat = 2 ^ bits.ctz.toNat * (2 * m + 1) := by
  set k := bits.ctz.toNat with hk
  have hlow : ∀ i, i < k → bits.toNat.testBit i = false := by
    intro i hi
    rw [BitVec.testBit_toNat]
    exact BitVec.getLsbD_false_of_lt_ctz hi
  have hset : bits.toNat.testBit k = true := by
    rw [BitVec.testBit_toNat]
    exact BitVec.getLsbD_true_ctz_of_ne_zero h
  have hmod : bits.toNat % 2 ^ k = 0 := by
    apply Nat.eq_of_testBit_eq
    intro i
    rw [Nat.testBit_mod_two_pow, Nat.zero_testBit]
    by_cases hi : i < k
    · simp [hlow i hi]
    · simp [hi]
  have hdvd : 2 ^ k * (bits.toNat / 2 ^ k) = bits.toNat :=
    Nat.mul_div_cancel' (Nat.dvd_of_mod_eq_zero hmod)
  have hodd : bits.toNat / 2 ^ k % 2 = 1 := by
    rw [Nat.testBit_eq_decide_div_mod_eq, decide_eq_true_eq] at hset
    exact hset
  refine ⟨bits.toNat / 2 ^ k / 2, ?_⟩
  rw [show 2 * (bits.toNat / 2 ^ k / 2) + 1 = bits.toNat / 2 ^ k by omega, hdvd]

/-- `bits &= bits - 1` clears exactly the lowest set bit. -/
theorem getLsbD_and_pred {bits : BitVec w} (h : bits ≠ 0) (j : ℕ) :
    (bits &&& (bits - 1)).getLsbD j = (bits.getLsbD j && decide (j ≠ bits.ctz.toNat)) := by
  rw [BitVec.getLsbD_and]
  by_cases hj : bits.ctz.toNat ≤ j
  · obtain ⟨m, hm⟩ := toNat_eq_two_pow_mul h
    have hpos : bits.toNat ≠ 0 := fun h0 => h (BitVec.eq_of_toNat_eq (by simpa using h0))
    have hw : 0 < w := by
      by_contra hc
      obtain rfl : w = 0 := by omega
      exact h (BitVec.eq_nil bits)
    have hone : (1 : BitVec w).toNat = 1 := BitVec.toNat_one hw
    have hpred : (bits - 1).toNat = bits.toNat - 1 := by
      rw [BitVec.toNat_sub_of_le (by rw [BitVec.le_def, hone]; omega), hone]
    rw [← BitVec.testBit_toNat (bits - 1), hpred, ← BitVec.testBit_toNat bits, hm,
      testBit_pred_odd_mul _ _ _ hj]
    cases (2 ^ bits.ctz.toNat * (2 * m + 1)).testBit j <;> simp
  · rw [BitVec.getLsbD_false_of_lt_ctz (not_le.mp hj)]
    simp

/-- No set bit lies above the highest one. -/
theorem le_top_of_getLsbD {bits : BitVec w} {i : ℕ} (h : bits.getLsbD i = true) :
    i ≤ w - 1 - bits.clz.toNat := by
  by_contra hc
  have hlt : bits.toNat < 2 ^ (w - bits.clz.toNat) := BitVec.toNat_lt_two_pow_sub_clz
  have hi : i < w := lt_of_getLsbD h
  have hle : w - bits.clz.toNat ≤ i := by omega
  rw [← BitVec.testBit_toNat, Nat.testBit_lt_two_pow (lt_of_lt_of_le hlt
    (Nat.pow_le_pow_right (by norm_num) hle))] at h
  exact Bool.false_ne_true h

/-- The highest set bit of a non-zero word is set. -/
theorem getLsbD_top {bits : BitVec w} (h : bits ≠ 0) :
    bits.getLsbD (w - 1 - bits.clz.toNat) = true := by
  have hw : 0 < w := by
    by_contra hc
    obtain rfl : w = 0 := by omega
    exact h (BitVec.eq_nil bits)
  exact BitVec.getLsbD_true_clz_of_ne_zero hw h

/-- Masking out one bit clears exactly that bit. -/
theorem getLsbD_and_not_twoPow (bits : BitVec w) (i j : ℕ) :
    (bits &&& ~~~(BitVec.twoPow w i)).getLsbD j = (bits.getLsbD j && decide (j ≠ i)) := by
  by_cases hj : j < w
  · by_cases hij : j = i
    · subst hij
      simp [hj]
    · simp [hj, hij]
  · rw [BitVec.getLsbD_of_ge _ _ (not_lt.mp hj), BitVec.getLsbD_of_ge _ _ (not_lt.mp hj)]
    rfl

/-! ### The loops -/

/-- A loop that takes out one set bit in each turn: `pick` names the bit, `rest` clears it. -/
structure Visits (scan : ℕ → BitVec w → List ℕ) (pick : BitVec w → ℕ)
    (rest : BitVec w → BitVec w) : Prop where
  zero : ∀ bits, scan 0 bits = []
  succ : ∀ n bits, scan (n + 1) bits = if bits = 0 then [] else pick bits :: scan n (rest bits)
  picks : ∀ {bits : BitVec w}, bits ≠ 0 → bits.getLsbD (pick bits) = true
  clears : ∀ {bits : BitVec w}, bits ≠ 0 → ∀ j,
    (rest bits).getLsbD j = (bits.getLsbD j && decide (j ≠ pick bits))

theorem visits_scanAsc : Visits (w := w) scanAsc (fun bits => bits.ctz.toNat)
    fun bits => bits &&& (bits - 1) :=
  ⟨fun _ => rfl, fun _ _ => rfl, BitVec.getLsbD_true_ctz_of_ne_zero, getLsbD_and_pred⟩

theorem visits_scanDesc : Visits (w := w) scanDesc (fun bits => w - 1 - bits.clz.toNat)
    fun bits => bits &&& ~~~(BitVec.twoPow w (w - 1 - bits.clz.toNat)) :=
  ⟨fun _ => rfl, fun _ _ => rfl, getLsbD_top, fun _ => getLsbD_and_not_twoPow _ _⟩

namespace Visits

variable {scan : ℕ → BitVec w → List ℕ} {pick : BitVec w → ℕ} {rest : BitVec w → BitVec w}
  (h : Visits scan pick rest)
include h

/-- Everything that the loop visits is a set bit, whatever its fuel. -/
theorem getLsbD_of_mem {n i : ℕ} {bits : BitVec w} (hi : i ∈ scan n bits) :
    bits.getLsbD i = true := by
  induction n generalizing bits with
  | zero =>
    rw [h.zero] at hi
    cases hi
  | succ n ih =>
    rw [h.succ] at hi
    split at hi
    · cases hi
    · rename_i h0
      rcases mem_cons.mp hi with rfl | hi
      · exact h.picks h0
      · have := ih hi
        rw [h.clears h0, Bool.and_eq_true] at this
        exact this.1

/-- The loop visits every set bit, provided its fuel covers their number. -/
theorem mem_of_fuel {n i : ℕ} {bits : BitVec w}
    (hn : ((Finset.range w).filter fun i => bits.getLsbD i = true).card ≤ n)
    (hi : bits.getLsbD i = true) : i ∈ scan n bits := by
  induction n generalizing bits with
  | zero =>
    have hnone := Finset.card_eq_zero.mp (Nat.le_zero.mp hn)
    exact absurd hi (Finset.filter_eq_empty_iff.mp hnone (Finset.mem_range.mpr (lt_of_getLsbD hi)))
  | succ n ih =>
    have h0 : bits ≠ 0 := by
      rintro rfl
      simp at hi
    rw [h.succ, if_neg h0, mem_cons]
    by_cases heq : i = pick bits
    · exact .inl heq
    · -- one bit less is set afterwards
      refine .inr (ih ?_ (by rw [h.clears h0, hi]; simpa using heq))
      have herase : ((Finset.range w).filter fun i => (rest bits).getLsbD i = true) =
          ((Finset.range w).filter fun i => bits.getLsbD i = true).erase (pick bits) := by
        ext j
        simp only [Finset.mem_filter, Finset.mem_erase, h.clears h0, Bool.and_eq_true,
          decide_eq_true_eq]
        tauto
      rw [herase, Finset.card_erase_of_mem (Finset.mem_filter.mpr
        ⟨Finset.mem_range.mpr (lt_of_getLsbD (h.picks h0)), h.picks h0⟩)]
      omega

/-- **The loop visits exactly the set bits.** -/
theorem mem_iff {bits : BitVec w} {i : ℕ} : i ∈ scan w bits ↔ bits.getLsbD i = true :=
  ⟨h.getLsbD_of_mem, h.mem_of_fuel ((Finset.card_filter_le _ _).trans_eq (Finset.card_range w))⟩

/-- The loop visits bits in the order in which it picks them. -/
theorem pairwise {r : ℕ → ℕ → Prop} (hr : ∀ bits : BitVec w, ∀ i, bits.getLsbD i = true →
    i ≠ pick bits → r (pick bits) i) (n : ℕ) (bits : BitVec w) : (scan n bits).Pairwise r := by
  induction n generalizing bits with
  | zero =>
    rw [h.zero]
    exact Pairwise.nil
  | succ n ih =>
    rw [h.succ]
    split
    · exact Pairwise.nil
    · rename_i h0
      refine Pairwise.cons (fun i hi => ?_) (ih _)
      have hrest := h.getLsbD_of_mem hi
      rw [h.clears h0, Bool.and_eq_true, decide_eq_true_eq] at hrest
      exact hr bits i hrest.1 hrest.2

end Visits

theorem mem_scanAsc {bits : BitVec w} {i : ℕ} : i ∈ scanAsc w bits ↔ bits.getLsbD i = true :=
  visits_scanAsc.mem_iff

/-- The ascending loop visits bits in increasing order. -/
theorem pairwise_scanAsc (n : ℕ) (bits : BitVec w) : (scanAsc n bits).Pairwise (· < ·) :=
  visits_scanAsc.pairwise (fun _ _ h hne => lt_of_le_of_ne (ctz_le_of_getLsbD h) hne.symm) n bits

/-- **The two loops visit the same bits in opposite orders.** -/
theorem scanDesc_eq_reverse (bits : BitVec w) :
    scanDesc w bits = (scanAsc w bits).reverse := by
  have hdesc : (scanDesc w bits).Pairwise (· > ·) := visits_scanDesc.pairwise
    (fun _ i h hne => show i < _ from lt_of_le_of_ne (le_top_of_getLsbD h) hne) w bits
  have hasc : (scanAsc w bits).reverse.Pairwise (· > ·) :=
    pairwise_reverse.mpr (pairwise_scanAsc w bits)
  have hperm : (scanDesc w bits).Perm (scanAsc w bits).reverse := by
    rw [perm_ext_iff_of_nodup (hdesc.imp fun h => (ne_of_lt h).symm)
      (hasc.imp fun h => (ne_of_lt h).symm)]
    intro i
    rw [mem_reverse, mem_scanAsc, visits_scanDesc.mem_iff]
  refine Perm.eq_of_pairwise ?_ hdesc hasc hperm
  intro a b _ _ hab hba
  omega

end BitScan
