import TradeCore.LevelIndex

/-!
# Correctness of the Price-Level Index

The window, the bitmap and the overflow map together represent one finite map from
prices to levels, `LevelIndex.level?`. `LevelIndex.WF` says that the redundant parts (the
two bitmaps and the counter) agree with the levels they describe, and every operation of
the index is specified by its effect on `level?` alone.

## Main results

* `WF.push`, `WF.setLevel`, `WF.maintainLevel` — the operations keep `WF`, with their
  effect on `level?`;
* `WF.bestOf_minPrice`, `WF.bestOf_maxPrice` — the bit scans find the best price;
* `WF.entriesAsc_eq`, `WF.entriesDesc_eq` — both walks visit every level once, in price
  order, and none of their `expect`s can fail.

The position of the window is invisible in all of them.
-/

namespace TradeCore

variable {r : ℕ → ℕ → Prop}

variable {α : Type}

open Std List
open Option hiding guard_true

/-! ### Finite maps with natural keys -/

/-- Looking up a key after an insertion. -/
theorem getElem?_insert_nat (m : ExtTreeMap ℕ α) (k : ℕ) (v : α) (q : ℕ) :
    (m.insert k v)[q]? = if q = k then some v else m[q]? := by
  have hkq : compare k q = .eq ↔ q = k := Std.compare_eq_iff_eq.trans eq_comm
  simp only [ExtTreeMap.getElem?_insert, hkq]

/-- Looking up a key after a removal. -/
theorem getElem?_erase_nat (m : ExtTreeMap ℕ α) (k q : ℕ) :
    (m.erase k)[q]? = if q = k then none else m[q]? := by
  have hkq : compare k q = .eq ↔ q = k := Std.compare_eq_iff_eq.trans eq_comm
  simp only [ExtTreeMap.getElem?_erase, hkq]

/-- `o` is the best element of `S` in the order `r`, if there is one. -/
def BestOf (r : ℕ → ℕ → Prop) (S : ℕ → Prop) : Option ℕ → Prop
  | none => ∀ q, ¬ S q
  | some p => S p ∧ ∀ q, S q → r p q

theorem BestOf.unique {S : ℕ → Prop} {a b : Option ℕ} (hr : ∀ p q, r p q → r q p → p = q)
    (ha : BestOf r S a) (hb : BestOf r S b) : a = b := by
  cases a <;> cases b <;> simp only [BestOf] at ha hb <;> grind

/-- The keys of a map. -/
def HasKey {α : Type} (m : ExtTreeMap ℕ α) (q : ℕ) : Prop := ∃ v, m[q]? = some v

theorem mem_keys_iff {m : ExtTreeMap ℕ α} {q : ℕ} : q ∈ m.keys ↔ HasKey m q := by
  rw [ExtTreeMap.mem_keys, ExtTreeMap.mem_iff_isSome_getElem?, isSome_iff_exists, HasKey]

theorem pairwise_keys (m : ExtTreeMap ℕ α) : m.keys.Pairwise (· < ·) :=
  m.ordered_keys.imp Nat.compare_eq_lt.mp

/-- The first key of a map is its least one. -/
theorem bestOf_keys_head? (m : ExtTreeMap ℕ α) :
    BestOf (· ≤ ·) (HasKey m) m.keys.head? := by
  have hsorted := pairwise_keys m
  have hmem := @mem_keys_iff α m
  cases hkeys : m.keys with
  | nil => grind [BestOf]
  | cons k rest =>
    rw [hkeys, pairwise_cons] at hsorted
    grind [BestOf]

/-- The last key of a map is its greatest one. -/
theorem bestOf_keys_getLast? (m : ExtTreeMap ℕ α) :
    BestOf (· ≥ ·) (HasKey m) m.keys.getLast? := by
  have hsorted := pairwise_keys m
  have hmem := @mem_keys_iff α m
  cases hkeys : m.keys.getLast? with
  | none => grind [BestOf, getLast?_eq_none_iff]
  | some k =>
    obtain ⟨rest, hrest⟩ := getLast?_eq_some_iff.mp hkeys
    rw [hrest, pairwise_append] at hsorted
    grind [BestOf]

/-- The better of two candidates. -/
def pickBest (g : ℕ → ℕ → ℕ) : Option ℕ → Option ℕ → Option ℕ
  | some a, some b => some (g a b)
  | a, b => a.or b

/-- The better of two best elements is the best of both sets. -/
theorem BestOf.merge {g : ℕ → ℕ → ℕ} {S T U : ℕ → Prop} {a b : Option ℕ}
    (htrans : ∀ a b c, r a b → r b c → r a c) (hpick : ∀ a b, g a b = a ∧ r a b ∨ g a b = b ∧ r b a)
    (ha : BestOf r S a) (hb : BestOf r T b) (hU : ∀ q, U q ↔ S q ∨ T q) :
    BestOf r U (pickBest g a b) := by
  cases a <;> cases b <;> simp only [BestOf, pickBest, Option.or] at ha hb ⊢ <;> grind

namespace LevelIndex

variable {bits : BitVec 64} {i : Fin window} {lv : Level} {x y : LevelIndex} {v : Option Level}
  {p remaining slot : ℕ}

/-! ### Window positions -/

/-- A position of the window is an offset from its base. -/
theorem idx_eq_some {price : ℕ} :
    x.idx price = some i ↔ x.base ≠ priceMax ∧ price = x.base + i.val := by
  have hi := i.isLt
  simp only [idx]
  split
  · rename_i h
    simp only [reduceCtorEq, false_iff, not_and]
    intro hb
    omega
  · split
    · rename_i h hw
      simp only [some.injEq, Fin.ext_iff]
      omega
    · simp only [reduceCtorEq, false_iff, not_and]
      intro _ hp
      omega

/-- The prices the window does not cover. -/
theorem idx_eq_none {price : ℕ} :
    x.idx price = none ↔ x.base = priceMax ∨ price < x.base ∨ x.base + window ≤ price := by
  simp only [idx]
  split
  · rename_i h
    simp only [true_iff]
    omega
  · split
    · simp only [reduceCtorEq, false_iff]
      omega
    · simp only [true_iff]
      omega

/-- Window positions depend on the base only. -/
theorem idx_congr (h : x.base = y.base) (price : ℕ) :
    x.idx price = y.idx price := by
  simp only [idx, h]

/-! ### The two bitmaps -/

/-- The occupancy test reads one bit of one word. -/
theorem bit_eq (x : LevelIndex) (i : Fin window) :
    x.bit i = (x.word (wordOf i)).getLsbD (i.val % 64) := by
  have hone : (1 : BitVec 64) = 1#64 := rfl
  rw [bit, hone, BitVec.and_one_eq_setWidth_ofBool_getLsbD, BitVec.getLsbD_ushiftRight, add_zero]
  cases (x.word (wordOf i)).getLsbD (i.val % 64) <;> rfl

/-- The occupancy test, with the word given by its number. -/
theorem bit_eq_of_div (x : LevelIndex) {w : ℕ} (hw : w < wWords) (h : i.val / 64 = w) :
    x.bit i = x.l0[w].getLsbD (i.val % 64) := by
  subst h
  exact bit_eq x i

/-- The bits of a position, when one word was replaced. -/
theorem bit_of_set (h : ∀ w, y.word w = if w = wordOf i then bits else x.word w) (j : Fin window) :
    y.bit j = if wordOf j = wordOf i then bits.getLsbD (j.val % 64) else x.bit j := by
  rw [bit_eq, bit_eq, h]
  split <;> rfl

theorem word_setBit (x : LevelIndex) (i : Fin window) (w : Fin wWords) : (x.setBit i).word w =
    if w = wordOf i then x.word (wordOf i) ||| BitVec.twoPow 64 (i.val % 64) else x.word w := by
  simp [setBit, Vector.getElem_set, Fin.ext_iff, eq_comm]

theorem word_clearBit (x : LevelIndex) (i : Fin window) (w : Fin wWords) : (x.clearBit i).word w =
    if w = wordOf i then x.word (wordOf i) &&& ~~~(BitVec.twoPow 64 (i.val % 64))
    else x.word w := by
  simp [clearBit, Vector.getElem_set, Fin.ext_iff, eq_comm]

/-- A position is determined by its word and its bit. -/
theorem eq_iff_wordOf {j : Fin window} :
    j = i ↔ wordOf j = wordOf i ∧ j.val % 64 = i.val % 64 := by
  simp only [wordOf, Fin.ext_iff]
  omega

/-- `setBit` sets one bit. -/
theorem bit_setBit (x : LevelIndex) (i j : Fin window) :
    (x.setBit i).bit j = (x.bit j || decide (j = i)) := by
  have hlt : i.val % 64 < 64 := Nat.mod_lt _ (by decide)
  have heq := @eq_iff_wordOf i j
  rw [bit_of_set (x.word_setBit i), bit_eq, BitVec.getLsbD_or, BitVec.getLsbD_twoPow]
  by_cases hw : wordOf j = wordOf i
  · grind
  · simp [hw, heq]

/-- `clearBit` clears one bit. -/
theorem bit_clearBit (x : LevelIndex) (i j : Fin window) :
    (x.clearBit i).bit j = (x.bit j && decide (j ≠ i)) := by
  have heq := @eq_iff_wordOf i j
  rw [bit_of_set (x.word_clearBit i), bit_eq, BitScan.getLsbD_and_not_twoPow]
  by_cases hw : wordOf j = wordOf i
  · grind
  · simp [hw, heq]

/-- The summary bitmap marks exactly the non-zero words of the occupancy bitmap. -/
def Summarised (x : LevelIndex) : Prop :=
  ∀ k, x.summary.getLsbD k = true ↔ ∃ w : Fin wWords, w.val = k ∧ x.word w ≠ 0

/-- A word is non-zero exactly when one of its bits is set. -/
theorem word_ne_zero_iff : bits ≠ 0 ↔ ∃ k, bits.getLsbD k = true := by
  constructor
  · intro h
    exact ⟨_, BitScan.getLsbD_top h⟩
  · rintro ⟨k, hk⟩ rfl
    simp at hk

/-- The summary is kept when its bit follows the word that was replaced. -/
theorem Summarised.of_set (h : x.Summarised)
    (hl0 : ∀ w, y.word w = if w = wordOf i then bits else x.word w)
    (hl1 : ∀ k, y.summary.getLsbD k =
      if k = i.val / 64 then decide (bits ≠ 0) else x.summary.getLsbD k) :
    y.Summarised := by
  have hword : ∀ w : Fin wWords, y.word w = if w.val = i.val / 64 then bits else x.word w := by
    intro w
    simp only [hl0, wordOf, Fin.ext_iff]
  intro k
  have hk := h k
  have hi : i.val / 64 < wWords := (wordOf i).isLt
  simp only [hl1, hword]
  split
  · rw [decide_eq_true_iff]
    exact ⟨fun hne => ⟨⟨k, by omega⟩, rfl, by simpa [*] using hne⟩, by grind⟩
  · rw [hk]
    grind

/-- `setBit` keeps the summary. -/
theorem Summarised.setBit (h : x.Summarised) (i : Fin window) :
    (x.setBit i).Summarised := by
  refine h.of_set (x.word_setBit i) fun k => ?_
  have hi : i.val / 64 < 64 := by have := i.isLt; simp only [window] at this; omega
  have hne : x.word (wordOf i) ||| BitVec.twoPow 64 (i.val % 64) ≠ 0 :=
    word_ne_zero_iff.mpr ⟨i.val % 64, by simp [Nat.mod_lt i.val (show 0 < 64 by decide)]⟩
  simp only [summary, LevelIndex.setBit, Vector.getElem_set_self, BitVec.getLsbD_or,
    BitVec.getLsbD_twoPow, Nat.mod_eq_of_lt hi]
  grind

/-- `clearBit` keeps the summary. -/
theorem Summarised.clearBit (h : x.Summarised) (i : Fin window) :
    (x.clearBit i).Summarised := by
  refine h.of_set (x.word_clearBit i) fun k => ?_
  have hi : i.val / 64 < 64 := by have := i.isLt; simp only [window] at this; omega
  by_cases hz : x.l0[wordOf i] &&& ~~~(BitVec.twoPow 64 (i.val % 64)) = 0
  · -- the last bit of the word goes, and its summary bit with it
    simp only [summary, LevelIndex.clearBit, if_pos hz, Vector.getElem_set_self,
      BitScan.getLsbD_and_not_twoPow, Nat.mod_eq_of_lt hi]
    grind
  · have hne0 : x.word (wordOf i) ≠ 0 := fun h0 =>
      hz (by rw [show x.l0[wordOf i] = 0 from h0]; simp)
    have hset := (h (i.val / 64)).mpr ⟨wordOf i, rfl, hne0⟩
    simp only [LevelIndex.clearBit, if_neg hz]
    grind

/-! ### Well-formed indexes -/

/-- The redundant parts of the index agree with the levels they describe. -/
structure WF (x : LevelIndex) : Prop where
  /-- Before the first insertion there is nothing. -/
  uncentred : x.base = priceMax → x.levels = [] ∧ ∀ p : ℕ, x.overflow[p]? = none
  /-- Afterwards the window is allocated. -/
  allocated : x.base ≠ priceMax → x.levels.length = window
  /-- A set bit is a stored window level. -/
  bit_iff : ∀ i : Fin window, x.bit i = true ↔ ∃ lv, x.levels[i.val]? = some (some lv)
  /-- The second bitmap summarises the first. -/
  summarised : x.Summarised
  /-- The counter counts the set bits. -/
  inWindow_eq : x.inWindow = (Finset.univ.filter fun i => x.bit i = true).card
  /-- The overflow map holds prices outside the window only. -/
  overflow_idx : ∀ (p : ℕ) (lv : Level), x.overflow[p]? = some lv → x.idx p = none
  /-- Every stored price is a 64-bit value. -/
  price_lt : ∀ p lv, x.level? p = some lv → p < 2 ^ 64

/-- The window level of a covered price. -/
theorem level?_of_idx (h : x.idx p = some i) :
    x.level? p = (x.levels[i.val]?).join := by
  simp only [level?, h]

/-- The overflow level of an uncovered price. -/
theorem level?_of_idx_none (h : x.idx p = none) :
    x.level? p = x.overflow[p]? := by
  simp only [level?, h]

/-- The empty index is well formed. -/
theorem WF.empty : LevelIndex.empty.WF := by
  have hl0 : ∀ w : Fin wWords, LevelIndex.empty.word w = 0 := by
    intro w
    simp [LevelIndex.empty]
  have hbit : ∀ i, LevelIndex.empty.bit i = false := by
    intro i
    rw [bit_eq, hl0]
    simp
  have hidx : ∀ p, LevelIndex.empty.idx p = none := by
    intro p
    rw [idx_eq_none]
    exact .inl rfl
  refine
    { uncentred := fun _ => ⟨rfl, fun p => by simp [LevelIndex.empty]⟩
      allocated := fun h => absurd rfl h
      bit_iff := ?_
      summarised := ?_
      inWindow_eq := by
        simp only [hbit, Bool.false_eq_true, Finset.filter_false, Finset.card_empty]
        rfl
      overflow_idx := fun p lv h => by simp [LevelIndex.empty] at h
      price_lt := ?_ }
  · intro i
    rw [hbit]
    simp [LevelIndex.empty]
  · intro k
    simp only [hl0]
    simp [summary, LevelIndex.empty]
  · intro p lv h
    rw [level?_of_idx_none (hidx p)] at h
    simp [LevelIndex.empty] at h

/-- An empty index stores no level. -/
theorem level?_empty (p : ℕ) : LevelIndex.empty.level? p = none := by
  rw [level?_of_idx_none (idx_eq_none.mpr (.inl rfl))]
  simp [LevelIndex.empty]

/-- The set bits are the window positions whose price has a level. -/
theorem WF.bit_iff_level? (h : x.WF) (hi : x.idx p = some i) :
    x.bit i = true ↔ ∃ lv, x.level? p = some lv := by
  rw [h.bit_iff, level?_of_idx hi]
  simp only [join_eq_some_iff]

/-- Centring an index that has been centred does nothing. -/
theorem centre_of_ne (h : x.base ≠ priceMax) (p : ℕ) : x.centre p = x := by
  simp only [centre, if_neg h]

/-- Centring places the window around the price without storing anything. -/
theorem WF.centre (h : x.WF) (hp : p < 2 ^ 64) :
    (x.centre p).WF ∧ (x.centre p).base ≠ priceMax ∧
      ∀ q, (x.centre p).level? q = x.level? q := by
  by_cases hb : x.base = priceMax
  · obtain ⟨hlev, hov⟩ := h.uncentred hb
    have hlevels : (x.centre p).levels = List.replicate window none := by
      simp [LevelIndex.centre, hb, hlev]
    have hbase : (x.centre p).base ≠ priceMax := by
      have hbase : (x.centre p).base = p - window / 2 := by simp [LevelIndex.centre, hb]
      rw [hbase, priceMax, window]
      omega
    have hbit : ∀ i, x.bit i = false := by
      intro i
      rw [Bool.eq_false_iff, ne_eq, h.bit_iff, hlev]
      simp
    have hl0 : (x.centre p).l0 = x.l0 := by simp [LevelIndex.centre, hb]
    have hl1 : (x.centre p).l1 = x.l1 := by simp [LevelIndex.centre, hb]
    have hbit' : ∀ i, (x.centre p).bit i = false := by
      intro i
      rw [bit, hl0]
      exact hbit i
    have hov' : ∀ q : ℕ, (x.centre p).overflow[q]? = none := by
      intro q
      simp only [LevelIndex.centre, if_pos hb]
      exact hov q
    have hnone : ∀ q, (x.centre p).level? q = none := by
      intro q
      cases hi : (x.centre p).idx q with
      | none => rw [level?_of_idx_none hi, hov']
      | some i =>
        rw [level?_of_idx hi, hlevels, getElem?_replicate]
        split <;> rfl
    refine ⟨?_, hbase, ?_⟩
    · refine
        { uncentred := fun hc => absurd hc hbase
          allocated := fun _ => by rw [hlevels, length_replicate]
          bit_iff := ?_
          summarised := ?_
          inWindow_eq := ?_
          overflow_idx := fun q lv hq => by rw [hov'] at hq; cases hq
          price_lt := fun q lv hq => by rw [hnone] at hq; cases hq }
      · intro i
        simp [hbit', hlevels]
      · intro k
        simp only [summary, word, hl0, hl1]
        exact h.summarised k
      · have hw : (x.centre p).inWindow = x.inWindow := by simp [LevelIndex.centre, hb]
        rw [hw, h.inWindow_eq]
        simp [hbit, hbit']
    · intro q
      rw [hnone, level?_of_idx_none (idx_eq_none.mpr (Or.inl hb)), hov]
  · rw [centre_of_ne hb]
    exact ⟨h, hb, fun _ => rfl⟩

/-! ### Updating one level -/

/-- Replacing one cell of the window changes the level of one price. -/
theorem level?_of_window (hi : x.idx p = some i) (hlen : x.levels.length = window)
    (hbase : y.base = x.base) (hover : y.overflow = x.overflow)
    (hlevels : y.levels = x.levels.set i v) (q : ℕ) :
    y.level? q = if q = p then v else x.level? q := by
  have hlt : i.val < x.levels.length := by rw [hlen]; exact i.isLt
  cases hj : x.idx q with
  | none =>
    have hqp : q ≠ p := by
      rintro rfl
      rw [hi] at hj
      cases hj
    rw [if_neg hqp, level?_of_idx_none hj, level?_of_idx_none ((idx_congr hbase q).trans hj), hover]
  | some j =>
    rw [level?_of_idx ((idx_congr hbase q).trans hj), level?_of_idx hj, hlevels, getElem?_set]
    have hq := (idx_eq_some.mp hj).2
    have hp := (idx_eq_some.mp hi).2
    by_cases hij : i.val = j.val
    · rw [if_pos hij, if_pos hlt, if_pos (by omega)]
      rfl
    · rw [if_neg hij, if_neg (by omega)]

/-- Replacing one entry of the overflow map changes the level of one price. -/
theorem level?_of_overflow (hi : x.idx p = none) (hbase : y.base = x.base)
    (hlevels : y.levels = x.levels)
    (hover : ∀ q : ℕ, y.overflow[q]? = if q = p then v else x.overflow[q]?) (q : ℕ) :
    y.level? q = if q = p then v else x.level? q := by
  cases hj : x.idx q with
  | none =>
    rw [level?_of_idx_none hj, level?_of_idx_none ((idx_congr hbase q).trans hj), hover]
  | some j =>
    have hqp : q ≠ p := by
      rintro rfl
      rw [hi] at hj
      cases hj
    rw [if_neg hqp, level?_of_idx hj, level?_of_idx ((idx_congr hbase q).trans hj), hlevels]

section

variable (h : x.WF)
include h

/-- What stays well formed when one window cell is replaced and its bit follows. -/
theorem WF.window (hp : p < 2 ^ 64) (hi : x.idx p = some i) (hbase : y.base = x.base)
    (hover : y.overflow = x.overflow) (hlevels : y.levels = x.levels.set i v) (hsum : y.Summarised)
    (hbit : ∀ j, y.bit j = true ↔ if j = i then v.isSome = true else x.bit j = true)
    (hcount : y.inWindow = (Finset.univ.filter fun i => y.bit i = true).card) : y.WF := by
  have hb : x.base ≠ priceMax := (idx_eq_some.mp hi).1
  have hlen : x.levels.length = TradeCore.window := h.allocated hb
  have hlevel := level?_of_window hi hlen hbase hover hlevels
  refine
    { uncentred := fun hc => absurd (hbase.symm.trans hc) hb
      allocated := fun _ => by rw [hlevels, length_set, hlen]
      bit_iff := ?_
      summarised := hsum
      inWindow_eq := hcount
      overflow_idx := ?_
      price_lt := ?_ }
  · intro j
    rw [hbit, hlevels, getElem?_set]
    by_cases hij : j = i
    · subst hij
      have hlt : j.val < x.levels.length := by rw [hlen]; exact j.isLt
      simp [hlt, isSome_iff_exists]
    · have hne : i.val ≠ j.val := fun he => hij (Fin.ext he.symm)
      rw [if_neg hij, if_neg hne, h.bit_iff]
  · intro q lv hq
    rw [hover] at hq
    rw [idx_congr hbase]
    exact h.overflow_idx q lv hq
  · intro q lv hq
    rw [hlevel] at hq
    split at hq
    · rename_i hqp
      omega
    · exact h.price_lt q lv hq

/-- What stays well formed when one overflow entry is replaced. -/
theorem WF.ofOverflow (hp : p < 2 ^ 64) (hi : x.idx p = none) (hb : x.base ≠ priceMax)
    (hbase : y.base = x.base) (hlevels : y.levels = x.levels) (hl0 : y.l0 = x.l0)
    (hl1 : y.l1 = x.l1) (hcount : y.inWindow = x.inWindow)
    (hover : ∀ q : ℕ, y.overflow[q]? = if q = p then v else x.overflow[q]?) : y.WF := by
  have hlevel := level?_of_overflow hi hbase hlevels hover
  have hbit : ∀ j, y.bit j = x.bit j := fun j => by simp only [bit, hl0]
  refine
    { uncentred := fun hc => absurd (hbase.symm.trans hc) hb
      allocated := fun _ => by rw [hlevels, h.allocated hb]
      bit_iff := fun j => by rw [hbit, hlevels, h.bit_iff]
      summarised := fun k => by
        simp only [summary, word, hl0, hl1]
        exact h.summarised k
      inWindow_eq := by simp only [hcount, hbit, h.inWindow_eq]
      overflow_idx := ?_
      price_lt := ?_ }
  · intro q lv hq
    rw [idx_congr hbase]
    by_cases hqp : q = p
    · rw [hqp, hi]
    · rw [hover, if_neg hqp] at hq
      exact h.overflow_idx q lv hq
  · intro q lv hq
    rw [hlevel] at hq
    split at hq
    · rename_i hqp
      omega
    · exact h.price_lt q lv hq

/-- The window cell of a price holds its level. -/
theorem WF.getElem?_of_idx {i : Fin TradeCore.window} (hi : x.idx p = some i) :
    x.levels[i.val]? = some (x.level? p) := by
  have hlt : i.val < x.levels.length := by
    rw [h.allocated (idx_eq_some.mp hi).1]
    exact i.isLt
  rw [level?_of_idx hi, getElem?_eq_getElem hlt]
  rfl

/-- An index that stores a level has a window. -/
theorem WF.base_ne_priceMax (hlv : x.level? p = some lv) : x.base ≠ priceMax := by
  intro hb
  cases hi : x.idx p with
  | some i => exact (idx_eq_some.mp hi).1 hb
  | none =>
    rw [level?_of_idx_none hi, (h.uncentred hb).2] at hlv
    cases hlv

/-- Overwriting a stored level keeps the index well formed. -/
theorem WF.setLevel (hlv : x.level? p = some lv) (lv' : Level) :
    (x.setLevel p lv').WF ∧
      ∀ q, (x.setLevel p lv').level? q = if q = p then some lv' else x.level? q := by
  have hp := h.price_lt p lv hlv
  cases hi : x.idx p with
  | some i =>
    have hbi : x.bit i = true := (h.bit_iff_level? hi).mpr ⟨lv, hlv⟩
    have hb := (idx_eq_some.mp hi).1
    have hset : x.setLevel p lv' = { x with levels := x.levels.set i (some lv') } := by
      simp only [LevelIndex.setLevel, hi]
    rw [hset]
    refine ⟨?_, level?_of_window hi (h.allocated hb) rfl rfl rfl⟩
    refine h.window hp hi rfl rfl rfl h.summarised ?_ h.inWindow_eq
    intro j
    by_cases hj : j = i
    · subst hj
      simp only [if_true, isSome_some, iff_true]
      exact hbi
    · rw [if_neg hj]
      rfl
  | none =>
    have hset : x.setLevel p lv' = { x with overflow := x.overflow.insert p lv' } := by
      simp only [LevelIndex.setLevel, hi]
    have hover := getElem?_insert_nat x.overflow p lv'
    rw [hset]
    exact ⟨h.ofOverflow hp hi (h.base_ne_priceMax hlv) rfl rfl rfl rfl rfl hover,
      level?_of_overflow hi rfl rfl hover⟩

/-- The counter never exceeds the size of the window. -/
theorem WF.inWindow_le : x.inWindow ≤ TradeCore.window := by
  rw [h.inWindow_eq]
  exact (Finset.card_filter_le _ _).trans (by simp)

/-- Occupying a free window cell: its bit is set and the counter goes up. -/
theorem WF.occupy {i : Fin TradeCore.window} (hp : p < 2 ^ 64) (hi : x.idx p = some i)
    (hnone : x.level? p = none) (lv : Level) :
    WF { x.setBit i with
      inWindow := x.inWindow + 1, levels := x.levels.set i (some lv) } := by
  have hbi : x.bit i = false := by
    rw [Bool.eq_false_iff, ne_eq, h.bit_iff_level? hi, hnone]
    simp
  have hbit : ∀ j, (x.setBit i).bit j = true ↔ j = i ∨ x.bit j = true := by
    intro j
    rw [bit_setBit, Bool.or_eq_true, decide_eq_true_iff, or_comm]
  refine h.window hp hi rfl rfl rfl (h.summarised.setBit i) ?_ ?_
  · intro j
    refine (hbit j).trans ?_
    by_cases hj : j = i <;> simp [hj]
  · -- the new set of positions is the old one with `i` inserted
    have hset : (Finset.univ.filter fun j => (x.setBit i).bit j = true) =
        insert i (Finset.univ.filter fun j => x.bit j = true) := by
      ext j
      simp [hbit]
    have hmem : i ∉ Finset.univ.filter fun j => x.bit j = true := by simp [hbi]
    have hcard := Finset.card_insert_of_notMem hmem
    rw [← hset, ← h.inWindow_eq] at hcard
    exact hcard.symm

/-- Vacating a window cell: its bit is cleared and the counter goes down. -/
theorem WF.vacate {i : Fin TradeCore.window} (hi : x.idx p = some i) (hlv : x.level? p = some lv) :
    1 ≤ x.inWindow ∧
      WF { x.clearBit i with
        inWindow := x.inWindow - 1, levels := x.levels.set i none } := by
  have hbi : x.bit i = true := (h.bit_iff_level? hi).mpr ⟨lv, hlv⟩
  have hbit : ∀ j, (x.clearBit i).bit j = true ↔ x.bit j = true ∧ j ≠ i := by
    intro j
    rw [bit_clearBit, Bool.and_eq_true, decide_eq_true_iff]
  have hmem : i ∈ Finset.univ.filter fun j => x.bit j = true := by simp [hbi]
  have hset : (Finset.univ.filter fun j => (x.clearBit i).bit j = true) =
      (Finset.univ.filter fun j => x.bit j = true).erase i := by
    ext j
    simp [hbit, and_comm]
  have hpos : 1 ≤ x.inWindow := by
    rw [h.inWindow_eq]
    exact Finset.card_pos.mpr ⟨i, hmem⟩
  refine ⟨hpos, h.window (h.price_lt p lv hlv) hi rfl rfl rfl (h.summarised.clearBit i) ?_ ?_⟩
  · intro j
    refine (hbit j).trans ?_
    by_cases hj : j = i <;> simp [hj]
  · have hcard := Finset.card_erase_of_mem hmem
    rw [← hset, ← h.inWindow_eq] at hcard
    exact hcard.symm

/-! ### `push` -/

/-- **`push` appends to one level**: it succeeds exactly when the level takes the order,
keeps the index well formed and changes no other price. -/
theorem WF.push (hp : p < 2 ^ 64) (hlive : ∀ lv, x.level? p = some lv → 0 < lv.live)
    (hrem : 0 < remaining)
    (happ : ((x.level? p).getD Level.empty).append slot remaining = some lv) :
    ∃ x', x.push p slot remaining = some x' ∧ x'.WF ∧
      ∀ q, x'.level? q = if q = p then some lv else x.level? q := by
  obtain ⟨hwf, hb, hlevel⟩ := h.centre hp
  simp only [LevelIndex.push, hrem, guard_true, Option.pure_def, bind_eq_bind, bind_some]
  simp only [← hlevel] at hlive happ ⊢
  generalize x.centre p = y at *
  cases hlv : y.level? p with
  | some lv₀ =>
    have hne : lv₀.live ≠ 0 := (hlive lv₀ hlv).ne'
    rw [hlv, getD_some] at happ
    refine ⟨y.setLevel p lv, ?_, (hwf.setLevel hlv lv).1, (hwf.setLevel hlv lv).2⟩
    cases hi : y.idx p with
    | some i => simp [hwf.getElem?_of_idx hi, hlv, hne, happ, LevelIndex.setLevel, hi]
    | none => simp [← level?_of_idx_none hi, hlv, happ, LevelIndex.setLevel, hi]
  | none =>
    rw [hlv, getD_none] at happ
    cases hi : y.idx p with
    | some i =>
      have hadd : checkedAdd 64 y.inWindow 1 = some (y.inWindow + 1) := by
        have hle := hwf.inWindow_le
        simp only [TradeCore.window] at hle
        rw [checkedAdd_eq_some]
        omega
      refine ⟨_, ?_, hwf.occupy hp hi hlv lv, level?_of_window hi (hwf.allocated hb) rfl rfl rfl⟩
      simp [Level.empty, hwf.getElem?_of_idx hi, hlv, hadd] at happ ⊢
      simp [happ, LevelIndex.setBit]
    | none =>
      have hover := getElem?_insert_nat y.overflow p lv
      refine ⟨{ y with overflow := y.overflow.insert p lv }, ?_,
        hwf.ofOverflow hp hi hb rfl rfl rfl rfl rfl hover,
        level?_of_overflow hi rfl rfl hover⟩
      simp [← level?_of_idx_none hi, hlv, happ]

/-- `push` aborts when the level cannot take the order. -/
theorem WF.push_eq_none (hp : p < 2 ^ 64)
    (happ : ((x.level? p).getD Level.empty).append slot remaining = none) :
    x.push p slot remaining = none := by
  obtain ⟨hwf, -, hlevel⟩ := h.centre hp
  rw [← hlevel] at happ
  by_cases hrem : 0 < remaining
  · cases hi : (x.centre p).idx p with
    | some i => simp [LevelIndex.push, hrem, hi, hwf.getElem?_of_idx hi, happ]
    | none => simp [LevelIndex.push, hrem, hi, ← level?_of_idx_none hi, happ]
  · simp [LevelIndex.push, hrem]

/-- What a successful `push` says. -/
theorem WF.of_push {x' : LevelIndex} (hp : p < 2 ^ 64)
    (hlive : ∀ lv, x.level? p = some lv → 0 < lv.live) (hpush : x.push p slot remaining = some x') :
    0 < remaining ∧ ∃ lv, ((x.level? p).getD Level.empty).append slot remaining = some lv ∧
      x'.WF ∧ ∀ q, x'.level? q = if q = p then some lv else x.level? q := by
  have hrem : 0 < remaining := by
    by_contra hc
    simp [LevelIndex.push, hc] at hpush
  cases happ : ((x.level? p).getD Level.empty).append slot remaining with
  | none =>
    rw [h.push_eq_none hp happ] at hpush
    cases hpush
  | some lv =>
    obtain ⟨y, hy, hwf, hlevel⟩ := h.push hp hlive hrem happ
    rw [hpush] at hy
    obtain rfl : x' = y := some.inj hy
    exact ⟨hrem, lv, rfl, hwf, hlevel⟩

/-! ### `maintainLevel` -/

/-- Maintaining a price without a level does nothing. -/
theorem WF.maintainLevel_none (hlv : x.level? p = none) (pool : OrderPool) :
    x.maintainLevel p pool = some (x, pool) := by
  cases hi : x.idx p with
  | some i => simp [LevelIndex.maintainLevel, hi, h.getElem?_of_idx hi, hlv]
  | none => simp [LevelIndex.maintainLevel, hi, ← level?_of_idx_none hi, hlv]

/-- **`maintainLevel` reclaims one level** and drops it when nothing in it is live. -/
theorem WF.maintainLevel {lv' : Level} {pool pool' : OrderPool} (hlv : x.level? p = some lv)
    (hrec : lv.reclaim pool = some (lv', pool')) :
    ∃ x', x.maintainLevel p pool = some (x', pool') ∧ x'.WF ∧
      ∀ q, x'.level? q =
        if q = p then (if lv'.live = 0 then none else some lv') else x.level? q := by
  by_cases hlive : lv'.live = 0
  · simp only [if_pos hlive]
    cases hi : x.idx p with
    | some i =>
      obtain ⟨hpos, hwf⟩ := h.vacate hi hlv
      have hbit : ({ x with levels := x.levels.set i (some lv') } : LevelIndex).bit i = true :=
        (h.bit_iff_level? hi).mpr ⟨lv, hlv⟩
      have hsub : checkedSub x.inWindow 1 = some (x.inWindow - 1) :=
        checkedSub_eq_some.mpr ⟨hpos, rfl⟩
      refine ⟨_, ?_, hwf, level?_of_window hi (h.allocated (idx_eq_some.mp hi).1) rfl rfl rfl⟩
      simp [LevelIndex.maintainLevel, hi, h.getElem?_of_idx hi, hlv, hrec, hlive, hbit, hsub,
        clearBit, set_set]
    | none =>
      have hover := getElem?_erase_nat x.overflow p
      refine ⟨{ x with overflow := x.overflow.erase p }, ?_,
        h.ofOverflow (h.price_lt p lv hlv) hi (h.base_ne_priceMax hlv) rfl rfl rfl rfl rfl hover,
        level?_of_overflow hi rfl rfl hover⟩
      simp [LevelIndex.maintainLevel, hi, ← level?_of_idx_none hi, hlv, hrec, hlive]
  · simp only [if_neg hlive]
    refine ⟨x.setLevel p lv', ?_, (h.setLevel hlv lv').1, (h.setLevel hlv lv').2⟩
    cases hi : x.idx p with
    | some i =>
      simp [LevelIndex.maintainLevel, LevelIndex.setLevel, hi, h.getElem?_of_idx hi, hlv, hrec,
        hlive]
    | none =>
      simp [LevelIndex.maintainLevel, LevelIndex.setLevel, hi, ← level?_of_idx_none hi, hlv, hrec,
        hlive]

end

/-- `maintainLevel` aborts only inside `reclaim`. -/
theorem maintainLevel_abort {pool : OrderPool} (hlv : x.level? p = some lv)
    (hrec : lv.reclaim pool = none) :
    x.maintainLevel p pool = none := by
  cases hi : x.idx p with
  | some i =>
    rw [level?_of_idx hi, join_eq_some_iff] at hlv
    simp [LevelIndex.maintainLevel, hi, hlv, hrec]
  | none =>
    rw [level?_of_idx_none hi] at hlv
    simp [LevelIndex.maintainLevel, hi, hlv, hrec]

/-! ### Best prices -/

section

variable (h : x.WF)
include h

/-- A set bit shows in the summary. -/
theorem WF.summary_of_bit {j : Fin TradeCore.window} (hj : x.bit j = true) :
    x.summary.getLsbD (j.val / 64) = true := by
  rw [bit_eq] at hj
  exact (h.summarised _).mpr ⟨wordOf j, rfl, word_ne_zero_iff.mpr ⟨_, hj⟩⟩

/-- The set window positions. -/
def HasBit (x : LevelIndex) (k : ℕ) : Prop := ∃ i : Fin TradeCore.window, i.val = k ∧ x.bit i = true

/-- **The two scans of the window**: the best word, and the best bit of it. -/
theorem WF.bestOf_scan {f : BitVec 64 → ℕ}
    (hscan : ∀ bits, bits ≠ 0 →
      bits.getLsbD (f bits) = true ∧ ∀ i, bits.getLsbD i = true → r (f bits) i)
    (hlex : ∀ v a w b, a < 64 → b < 64 → r v w → (v = w → r a b) → r (v * 64 + a) (w * 64 + b)) :
    BestOf r x.HasBit (if x.summary ≠ 0 then
      (x.l0[f x.summary]?).map fun word => f x.summary * 64 + f word else none) := by
  split
  · rename_i hl1
    obtain ⟨hsum, hle⟩ := hscan _ hl1
    obtain ⟨w, hw, hword⟩ := (h.summarised _).mp hsum
    have hword' : x.l0[w.val] ≠ 0 := hword
    obtain ⟨hset, hle'⟩ := hscan _ hword'
    have hlt := BitScan.lt_of_getLsbD hset
    have hw16 := w.isLt
    simp only [wWords] at hw16
    rw [← hw, Vector.getElem?_eq_getElem w.isLt, map_some]
    refine ⟨⟨⟨w.val * 64 + f x.l0[w.val], by unfold TradeCore.window; omega⟩, rfl, ?_⟩, ?_⟩
    · have hmod : (w.val * 64 + f x.l0[w.val]) % 64 = f x.l0[w.val] := by omega
      rw [bit_eq_of_div x w.isLt (by simp only; omega)]
      exact hmod.symm ▸ hset
    · rintro q ⟨j, rfl, hj⟩
      rw [show j.val = j.val / 64 * 64 + j.val % 64 by omega]
      refine hlex _ _ _ _ hlt (Nat.mod_lt _ (by decide)) (hw ▸ hle _ (h.summary_of_bit hj)) ?_
      intro hjw
      rw [bit_eq_of_div x w.isLt hjw.symm] at hj
      exact hle' _ hj
  · rename_i hl1
    rintro q ⟨j, rfl, hj⟩
    exact hl1 (word_ne_zero_iff.mpr ⟨_, h.summary_of_bit hj⟩)

/-- The first window scan finds the lowest set bit. -/
theorem WF.bestOf_windowMin : BestOf (· ≤ ·) x.HasBit x.windowMin :=
  h.bestOf_scan (f := fun bits => bits.ctz.toNat)
    (fun _ hne => ⟨BitVec.getLsbD_true_ctz_of_ne_zero hne, fun _ => BitScan.ctz_le_of_getLsbD⟩)
    (fun _ _ _ _ _ _ _ _ => by omega)

/-- The second window scan finds the highest set bit. -/
theorem WF.bestOf_windowMax : BestOf (· ≥ ·) x.HasBit x.windowMax := by
  have hbest := h.bestOf_scan (r := (· ≥ ·)) (f := fun bits => 63 - bits.clz.toNat)
    (fun _ hne => ⟨BitScan.getLsbD_top hne, fun _ => BitScan.le_top_of_getLsbD⟩)
    (fun _ _ _ _ _ _ _ _ => by omega)
  rw [windowMax]
  split at hbest
  · rename_i hl1
    obtain ⟨w, hw, hword⟩ := (h.summarised _).mp (BitScan.getLsbD_top hl1)
    have hw' : 63 - x.l1[0].clz.toNat = w.val := hw.symm
    -- the word that the scan reads is not zero, so that its count is below 64
    have hclz : x.l0[w.val].clz.toNat < 64 := by
      have := (BitVec.clz_lt_iff_ne_zero (x := x.l0[w.val])).mpr hword
      simpa [BitVec.lt_def] using this
    simp only [hw', Vector.getElem?_eq_getElem w.isLt, map_some] at hbest
    simp only [if_pos hl1, hw', Vector.getElem?_eq_getElem w.isLt, map_some,
      show w.val * 64 + 63 - x.l0[w.val].clz.toNat =
        w.val * 64 + (63 - x.l0[w.val].clz.toNat) by omega]
    exact hbest
  · rename_i hl1
    rw [if_neg hl1]
    exact hbest

/-- A set bit is a level, at the price of its position. -/
theorem WF.exists_level?_of_bit {i : Fin TradeCore.window} (hi : x.bit i = true) :
    x.base ≠ priceMax ∧ ∃ lv, x.level? (x.base + i.val) = some lv := by
  have hb : x.base ≠ priceMax := by
    intro hb
    obtain ⟨lv, hlv⟩ := (h.bit_iff i).mp hi
    rw [(h.uncentred hb).1] at hlv
    cases hlv
  exact ⟨hb, (h.bit_iff_level? (idx_eq_some.mpr ⟨hb, rfl⟩)).mp hi⟩

/-- A level lives in the window, under a set bit, or in the overflow map. -/
theorem WF.level?_cases (hlv : x.level? p = some lv) :
    (∃ i : Fin TradeCore.window, p = x.base + i.val ∧ x.bit i = true) ∨
      x.overflow[p]? = some lv := by
  cases hi : x.idx p with
  | some i =>
    exact .inl ⟨i, (idx_eq_some.mp hi).2, (h.bit_iff_level? hi).mpr ⟨lv, hlv⟩⟩
  | none => exact .inr (level?_of_idx_none hi ▸ hlv)

/-- An overflow level is a level. -/
theorem WF.level?_of_mem_overflow (hlv : x.overflow[p]? = some lv) : x.level? p = some lv := by
  rw [level?_of_idx_none (h.overflow_idx p lv hlv), hlv]

/-- The price of a set bit is in range, so the scan's `checked_add` succeeds. -/
theorem WF.checkedAdd_base {i : Fin TradeCore.window} (hi : x.bit i = true) :
    checkedAdd 64 x.base i.val = some (x.base + i.val) := by
  obtain ⟨-, lv, hlv⟩ := h.exists_level?_of_bit hi
  rw [checkedAdd_eq_some]
  exact ⟨h.price_lt _ lv hlv, rfl⟩

/-- The occupied prices. -/
def Occupies (x : LevelIndex) (p : ℕ) : Prop := ∃ lv, x.level? p = some lv

/-- The best price of the window, as a price. -/
theorem WF.bestOf_base {o : Option ℕ} (hbest : BestOf r x.HasBit o)
    (hle : ∀ i j, r i j → r (x.base + i) (x.base + j)) :
    BestOf r (fun p => ∃ i, p = x.base + i ∧ x.HasBit i)
      (o.bind fun i => checkedAdd 64 x.base i) := by
  cases o with
  | none => exact fun _ ⟨i, _, hi⟩ => hbest i hi
  | some k =>
    obtain ⟨⟨i, rfl, hi⟩, hmin⟩ := hbest
    rw [bind_some, h.checkedAdd_base hi]
    refine ⟨⟨i.val, rfl, i, rfl, hi⟩, ?_⟩
    rintro q ⟨j, rfl, hj⟩
    exact hle _ _ (hmin j hj)

/-- Prices are occupied in the window or in the overflow map. -/
theorem WF.occupies_iff (p : ℕ) :
    x.Occupies p ↔ (∃ i, p = x.base + i ∧ x.HasBit i) ∨ HasKey x.overflow p := by
  constructor
  · rintro ⟨lv, hlv⟩
    rcases h.level?_cases hlv with ⟨i, rfl, hi⟩ | hover
    · exact .inl ⟨i.val, rfl, i, rfl, hi⟩
    · exact .inr ⟨lv, hover⟩
  · rintro (⟨_, rfl, i, rfl, hi⟩ | ⟨lv, hlv⟩)
    · exact (h.exists_level?_of_bit hi).2
    · exact ⟨lv, h.level?_of_mem_overflow hlv⟩

/-- **`minPrice` is the least occupied price.** -/
theorem WF.bestOf_minPrice : BestOf (· ≤ ·) x.Occupies x.minPrice :=
  BestOf.merge (g := min) (fun _ _ _ => Nat.le_trans) (fun _ _ => by omega)
    (h.bestOf_base h.bestOf_windowMin fun _ _ hle => Nat.add_le_add_left hle _)
    (bestOf_keys_head? _) h.occupies_iff

/-- **`maxPrice` is the greatest occupied price.** -/
theorem WF.bestOf_maxPrice : BestOf (· ≥ ·) x.Occupies x.maxPrice :=
  BestOf.merge (g := max) (fun _ _ _ h h' => Nat.le_trans h' h) (fun _ _ => by omega)
    (h.bestOf_base h.bestOf_windowMax fun _ _ hle => Nat.add_le_add_left hle _)
    (bestOf_keys_getLast? _) h.occupies_iff

end

/-! ### Walks -/

/-- The set window positions, in ascending order. -/
def positions (x : LevelIndex) : List ℕ :=
  (List.finRange wWords).flatMap fun w =>
    (BitScan.scanAsc 64 (x.word w)).map fun i => w.val * 64 + i

/-- The positions are the set bits. -/
theorem mem_positions {k : ℕ} :
    k ∈ x.positions ↔ ∃ i : Fin TradeCore.window, i.val = k ∧ x.bit i = true := by
  simp only [positions, mem_flatMap, mem_finRange, true_and, List.mem_map, BitScan.mem_scanAsc]
  constructor
  · rintro ⟨w, i, hi, rfl⟩
    have hlt := BitScan.lt_of_getLsbD hi
    have hw := w.isLt
    simp only [wWords] at hw
    have hk : w.val * 64 + i < TradeCore.window := by unfold TradeCore.window; omega
    have hdiv : (w.val * 64 + i) / 64 = w.val := by omega
    have hmod : (w.val * 64 + i) % 64 = i := by omega
    refine ⟨⟨w.val * 64 + i, hk⟩, rfl, ?_⟩
    rw [bit_eq_of_div x w.isLt hdiv]
    exact hmod.symm ▸ hi
  · rintro ⟨i, rfl, hi⟩
    rw [bit_eq] at hi
    refine ⟨wordOf i, i.val % 64, hi, ?_⟩
    simp only [wordOf]
    omega

/-- The positions ascend. -/
theorem pairwise_positions (x : LevelIndex) : x.positions.Pairwise (· < ·) := by
  rw [positions, pairwise_flatMap]
  constructor
  · intro w _
    rw [pairwise_map]
    exact (BitScan.pairwise_scanAsc 64 _).imp fun h => by omega
  · refine (pairwise_lt_finRange wWords).imp ?_
    intro v w hvw a ha b hb
    simp only [List.mem_map, BitScan.mem_scanAsc] at ha hb
    obtain ⟨i, hi, rfl⟩ := ha
    obtain ⟨j, -, rfl⟩ := hb
    have hlt := BitScan.lt_of_getLsbD hi
    have hvw' : v.val < w.val := hvw
    omega

/-- The window part of the ascending walk. -/
theorem entries_window (x : LevelIndex) :
    ((List.finRange wWords).flatMap fun w =>
      (BitScan.scanAsc 64 (x.word w)).map fun i => x.windowEntry (w.val * 64 + i)) =
      x.positions.map x.windowEntry := by
  simp only [positions, map_flatMap, List.map_map]
  rfl

/-- The descending walk visits the same entries backwards. -/
theorem entriesDesc_eq_reverse (x : LevelIndex) : x.entriesDesc = x.entriesAsc.reverse := by
  simp only [entriesDesc, entriesAsc, reverse_append, reverse_flatMap,
    BitScan.scanDesc_eq_reverse, append_assoc]
  congr 2
  refine flatMap_congr ?_
  intro w _
  simp [map_reverse]

/-- At a set position the walk finds a level and its price. -/
theorem WF.windowEntry_of_mem (h : x.WF) {k : ℕ} (hk : k ∈ x.positions) :
    ∃ lv, x.windowEntry k = some (x.base + k, lv) ∧ x.level? (x.base + k) = some lv := by
  obtain ⟨i, rfl, hi⟩ := mem_positions.mp hk
  obtain ⟨hb, lv, hlv⟩ := h.exists_level?_of_bit hi
  have hidx : x.idx (x.base + i.val) = some i := idx_eq_some.mpr ⟨hb, rfl⟩
  have hlv' := hlv
  rw [level?_of_idx hidx] at hlv'
  refine ⟨lv, ?_, hlv⟩
  simp [windowEntry, h.checkedAdd_base hi, hlv']

/-- The overflow levels at the prices of a kind. -/
theorem mem_overflow {φ : ℕ × Level → Prop} [DecidablePred φ] {e : Option (ℕ × Level)} :
    e ∈ (x.overflow.toList.filter (decide <| φ ·)).map some ↔
      ∃ p lv, e = some (p, lv) ∧ x.overflow[p]? = some lv ∧ φ (p, lv) := by
  simp only [List.mem_map, mem_filter, decide_eq_true_iff, Prod.exists,
    ExtTreeMap.mem_toList_iff_getElem?_eq_some]
  refine exists_congr fun p => exists_congr fun lv => ?_
  rw [and_comm, eq_comm]

/-- The overflow levels below the window. -/
theorem mem_below {e : Option (ℕ × Level)} :
    e ∈ x.below ↔ ∃ p lv, e = some (p, lv) ∧ x.overflow[p]? = some lv ∧ p < x.base :=
  mem_overflow

/-- The overflow levels above the window. -/
theorem mem_above {e : Option (ℕ × Level)} :
    e ∈ x.above ↔ ∃ p lv, e = some (p, lv) ∧ x.overflow[p]? = some lv ∧
      x.base + TradeCore.window ≤ p ∧ x.base + TradeCore.window < 2 ^ 64 := by
  rw [above]
  cases hend : checkedAdd 64 x.base TradeCore.window with
  | none =>
    have hge : ¬ x.base + TradeCore.window < 2 ^ 64 := by
      intro hlt
      rw [checkedAdd, if_pos hlt] at hend
      cases hend
    simp only [elim_none, not_mem_nil, hge, and_false, exists_false]
  | some windowEnd =>
    obtain ⟨hlt, rfl⟩ := checkedAdd_eq_some.mp hend
    simp only [hlt, and_true]
    exact mem_overflow

/-- The levels of the index in ascending price order. -/
def ladder (x : LevelIndex) : List (ℕ × Level) :=
  x.entriesAsc.reduceOption

/-- **Walking never aborts**: every entry is a level. -/
theorem WF.entriesAsc_eq (h : x.WF) : x.entriesAsc = x.ladder.map some := by
  have hall : ∀ e ∈ x.entriesAsc, e.isSome = true := by
    intro e he
    rw [entriesAsc, entries_window, mem_append, mem_append] at he
    rcases he with (he | he) | he
    · obtain ⟨p, lv, rfl, -⟩ := mem_below.mp he
      rfl
    · rw [List.mem_map] at he
      obtain ⟨k, hk, rfl⟩ := he
      obtain ⟨lv, hlv, -⟩ := h.windowEntry_of_mem hk
      rw [hlv]
      rfl
    · obtain ⟨p, lv, rfl, -⟩ := mem_above.mp he
      rfl
  rw [ladder]
  generalize x.entriesAsc = l at hall
  induction l with
  | nil => rfl
  | cons e l ih =>
    obtain ⟨a, rfl⟩ := isSome_iff_exists.mp (hall e mem_cons_self)
    rw [reduceOption_cons_of_some, map_cons, ← ih fun e he => hall e (mem_cons_of_mem _ he)]

/-- The descending walk, likewise. -/
theorem WF.entriesDesc_eq (h : x.WF) :
    x.entriesDesc = x.ladder.reverse.map some := by
  rw [entriesDesc_eq_reverse, h.entriesAsc_eq, map_reverse]

/-- The walks visit exactly the stored levels. -/
theorem WF.mem_ladder (h : x.WF) :
    (p, lv) ∈ x.ladder ↔ x.level? p = some lv := by
  rw [ladder, reduceOption_mem_iff, entriesAsc, entries_window, mem_append, mem_append]
  constructor
  · rintro ((he | he) | he)
    · obtain ⟨q, lv', he, hover, -⟩ := mem_below.mp he
      cases he
      exact h.level?_of_mem_overflow hover
    · rw [List.mem_map] at he
      obtain ⟨k, hk, he⟩ := he
      obtain ⟨lv', hlv', hlevel⟩ := h.windowEntry_of_mem hk
      rw [hlv'] at he
      cases he
      exact hlevel
    · obtain ⟨q, lv', he, hover, -⟩ := mem_above.mp he
      cases he
      exact h.level?_of_mem_overflow hover
  · intro hlv
    rcases h.level?_cases hlv with ⟨i, rfl, hi⟩ | hover
    · refine .inl (.inr ?_)
      have hk := mem_positions.mpr ⟨i, rfl, hi⟩
      obtain ⟨lv', hlv', hlevel⟩ := h.windowEntry_of_mem hk
      rw [hlevel, some.injEq] at hlv
      exact List.mem_map.mpr ⟨i.val, hk, hlv ▸ hlv'⟩
    · have hp := h.price_lt p lv hlv
      rcases idx_eq_none.mp (h.overflow_idx p lv hover) with hb | hlt | hge
      · rw [(h.uncentred hb).2] at hover
        cases hover
      · exact .inl (.inl (mem_below.mpr ⟨p, lv, rfl, hover, hlt⟩))
      · exact .inr (mem_above.mpr ⟨p, lv, rfl, hover, hge, by omega⟩)

/-- **The walk visits the levels in price order.** -/
theorem WF.pairwise_ladder (h : x.WF) :
    x.ladder.Pairwise (fun a b => a.1 < b.1) := by
  have hsome : x.entriesAsc.Pairwise fun a b =>
      ∀ p lv q lv', a = some (p, lv) → b = some (q, lv') → p < q := by
    have hover : (x.overflow.toList.map some).Pairwise fun a b =>
        ∀ p lv q lv', a = some (p, lv) → b = some (q, lv') → p < q := by
      rw [pairwise_map]
      refine x.overflow.ordered_keys_toList.imp ?_
      rintro ⟨p, lv⟩ ⟨q, lv'⟩ hlt _ _ _ _ ⟨rfl, rfl⟩ ⟨rfl, rfl⟩
      exact Nat.compare_eq_lt.mp hlt
    rw [entriesAsc, entries_window, pairwise_append, pairwise_append]
    refine ⟨⟨?_, ?_, ?_⟩, ?_, ?_⟩
    · exact hover.sublist (filter_sublist.map some)
    · rw [pairwise_map]
      refine List.Pairwise.imp_of_mem ?_ x.pairwise_positions
      intro j k hj hk hjk p lv q lv' hp hq
      obtain ⟨_, hj', -⟩ := h.windowEntry_of_mem hj
      obtain ⟨_, hk', -⟩ := h.windowEntry_of_mem hk
      rw [hj', some.injEq, Prod.mk.injEq] at hp
      rw [hk', some.injEq, Prod.mk.injEq] at hq
      omega
    · intro a ha b hb p lv q lv' hp hq
      obtain ⟨p', lv₁, rfl, -, hlt⟩ := mem_below.mp ha
      obtain ⟨k, hk, rfl⟩ := List.mem_map.mp hb
      obtain ⟨_, hk', -⟩ := h.windowEntry_of_mem hk
      rw [some.injEq, Prod.mk.injEq] at hp
      rw [hk', some.injEq, Prod.mk.injEq] at hq
      omega
    · rw [above]
      cases checkedAdd 64 x.base TradeCore.window with
      | none => exact Pairwise.nil
      | some windowEnd => exact hover.sublist (filter_sublist.map some)
    · intro a ha b hb p lv q lv' hp hq
      obtain ⟨q', lv₂, rfl, -, hge, -⟩ := mem_above.mp hb
      rw [some.injEq, Prod.mk.injEq] at hq
      rcases mem_append.mp ha with ha | ha
      · obtain ⟨p', lv₁, rfl, -, hlt⟩ := mem_below.mp ha
        rw [some.injEq, Prod.mk.injEq] at hp
        omega
      · obtain ⟨k, hk, rfl⟩ := List.mem_map.mp ha
        obtain ⟨i, rfl, -⟩ := mem_positions.mp hk
        obtain ⟨_, hk', -⟩ := h.windowEntry_of_mem hk
        rw [hk', some.injEq, Prod.mk.injEq] at hp
        have hi := i.isLt
        omega
  rw [h.entriesAsc_eq, pairwise_map] at hsome
  exact hsome.imp fun {a b} hab => hab a.1 a.2 b.1 b.2 rfl rfl

end LevelIndex

end TradeCore
