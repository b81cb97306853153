import Mathlib

/-!
# Bytes

Little-endian integers and exact reads, as binary file formats use them.

* `leBytes k n` writes the low `k` bytes of `n`, least significant first; `leNat` reads
  them back (`leNat_leBytes`).
* `readExact k bs` takes exactly `k` bytes off the front of `bs`, or fails when fewer are
  left; `readLe` reads a number that way.
* `readItems` reads a number of items one after the other; written items are read back
  (`readItems_flatMap`).
* `FixedWidth read w` says that `read` takes `w` bytes whatever they are; such readers compose
  (`FixedWidth.bind`, `FixedWidth.readItems`).
-/

/-- The `k` low bytes of a number, least significant first. -/
def leBytes : ℕ → ℕ → List UInt8
  | 0, _ => []
  | k + 1, n => UInt8.ofNat n :: leBytes k (n / 256)

/-- The number that a little-endian byte string spells. -/
def leNat : List UInt8 → ℕ
  | [] => 0
  | b :: bs => b.toNat + 256 * leNat bs

@[simp] theorem length_leBytes (k n : ℕ) : (leBytes k n).length = k := by
  induction k generalizing n with
  | zero => rfl
  | succ k ih => simp [leBytes, ih]

/-- **Round trip**: `k` bytes carry a number modulo `256 ^ k`. -/
theorem leNat_leBytes (k n : ℕ) : leNat (leBytes k n) = n % 256 ^ k := by
  induction k generalizing n with
  | zero => simp [leBytes, leNat, Nat.mod_one]
  | succ k ih =>
    have hbyte : (UInt8.ofNat n).toNat = n % 256 := by simp
    rw [leBytes, leNat, ih, hbyte, pow_succ, mul_comm (256 ^ k) 256, Nat.mod_mul]

/-- A number that fits in `k` bytes is read back unchanged. -/
theorem leNat_leBytes_of_lt {k n : ℕ} (h : n < 256 ^ k) : leNat (leBytes k n) = n := by
  rw [leNat_leBytes, Nat.mod_eq_of_lt h]

/-- The value of a byte string is below the power of its length. -/
theorem leNat_lt (bs : List UInt8) : leNat bs < 256 ^ bs.length := by
  induction bs with
  | nil => exact one_pos
  | cons b bs ih =>
    have hb : b.toNat < 256 := b.toNat_lt
    rw [leNat, List.length_cons, Nat.pow_succ]
    omega

@[simp] theorem ofNat_leNat_leBytes_eight (x : UInt64) :
    UInt64.ofNat (leNat (leBytes 8 x.toNat)) = x := by
  rw [leNat_leBytes_of_lt x.toNat_lt, UInt64.ofNat_toNat]

@[simp] theorem ofNat_leNat_leBytes_four (x : UInt32) :
    UInt32.ofNat (leNat (leBytes 4 x.toNat)) = x := by
  rw [leNat_leBytes_of_lt x.toNat_lt, UInt32.ofNat_toNat]

/-- Take exactly `k` bytes off the front, together with what is left; `none` when fewer
than `k` bytes remain. -/
def readExact (k : ℕ) (bs : List UInt8) : Option (List UInt8 × List UInt8) :=
  if k ≤ bs.length then some (bs.take k, bs.drop k) else none

/-- A read that fits the front chunk returns it. -/
theorem readExact_append {k : ℕ} {bs : List UInt8} (h : bs.length = k) (rest : List UInt8) :
    readExact k (bs ++ rest) = some (bs, rest) := by
  subst h
  simp [readExact]

/-- A read past the end fails. -/
theorem readExact_of_lt {k : ℕ} {bs : List UInt8} (h : bs.length < k) :
    readExact k bs = none :=
  if_neg (by omega)

/-- A proper beginning of a byte string is shorter. -/
theorem length_lt_of_isPrefix_ne {t bs : List UInt8} (h : t <+: bs) (hne : t ≠ bs) :
    t.length < bs.length :=
  lt_of_le_of_ne h.length_le fun heq => hne (h.eq_of_length heq)

/-- A beginning of `chunk ++ rest` is too short for `chunk`, or reads `chunk` and goes on with
a beginning of `rest`. -/
theorem readExact_of_isPrefix {bs chunk rest : List UInt8} (h : bs <+: chunk ++ rest) :
    readExact chunk.length bs = none ∨
      ∃ bs', bs' <+: rest ∧ bs = chunk ++ bs' ∧ readExact chunk.length bs = some (chunk, bs') := by
  by_cases hlt : bs.length < chunk.length
  · exact .inl (readExact_of_lt hlt)
  · obtain ⟨bs', rfl⟩ := List.prefix_of_prefix_length_le (List.prefix_append chunk rest) h
      (not_lt.mp hlt)
    exact .inr ⟨bs', (List.prefix_append_right_inj chunk).mp h, rfl, readExact_append rfl bs'⟩

/-- Take a little-endian number of `k` bytes off the front. -/
def readLe (k : ℕ) (bs : List UInt8) : Option (ℕ × List UInt8) :=
  (readExact k bs).map fun r => (leNat r.1, r.2)

/-- A written number is read back modulo its width. -/
theorem readLe_leBytes (k n : ℕ) (rest : List UInt8) :
    readLe k (leBytes k n ++ rest) = some (n % 256 ^ k, rest) := by
  rw [readLe, readExact_append (length_leBytes k n), Option.map_some, leNat_leBytes]

/-- A number that fits its width is read back. -/
theorem readLe_leBytes_of_lt {k n : ℕ} (h : n < 256 ^ k) (rest : List UInt8) :
    readLe k (leBytes k n ++ rest) = some (n, rest) := by
  rw [readLe_leBytes, Nat.mod_eq_of_lt h]

theorem readLe_leBytes_four {n : ℕ} (h : n < 2 ^ 32) (rest : List UInt8) :
    readLe 4 (leBytes 4 n ++ rest) = some (n, rest) :=
  readLe_leBytes_of_lt (by norm_num at h ⊢; exact h) rest

theorem readLe_leBytes_eight {n : ℕ} (h : n < 2 ^ 64) (rest : List UInt8) :
    readLe 8 (leBytes 8 n ++ rest) = some (n, rest) :=
  readLe_leBytes_of_lt (by norm_num at h ⊢; exact h) rest

/-- Take `n` items off the front. -/
def readItems {α : Type} (read : List UInt8 → Option (α × List UInt8)) :
    ℕ → List UInt8 → Option (List α × List UInt8)
  | 0, bs => some ([], bs)
  | n + 1, bs => do
      let (a, bs) ← read bs
      let (as, bs) ← readItems read n bs
      pure (a :: as, bs)

/-- **Written items are read back** if each of them is. -/
theorem readItems_flatMap {α : Type} {read : List UInt8 → Option (α × List UInt8)}
    {write : α → List UInt8} {as : List α}
    (h : ∀ a ∈ as, ∀ rest, read (write a ++ rest) = some (a, rest)) (rest : List UInt8) :
    readItems read as.length (as.flatMap write ++ rest) = some (as, rest) := by
  induction as with
  | nil => rfl
  | cons a as ih =>
    rw [List.flatMap_cons, List.append_assoc, List.length_cons, readItems, h a List.mem_cons_self]
    simp only [Option.bind_eq_bind, Option.bind_some,
      ih fun b hb => h b (List.mem_cons_of_mem _ hb), Option.pure_def]

/-! ### Readers of a fixed width -/

/-- A reader that takes `w` bytes off the front whatever they are, and fails only when fewer are
left. -/
structure FixedWidth {α : Type} (read : List UInt8 → Option (α × List UInt8)) (w : ℕ) : Prop where
  eq_none : ∀ bs, bs.length < w → read bs = none
  exists_eq_some : ∀ bs, w ≤ bs.length → ∃ a, read bs = some (a, bs.drop w)

open List Option

namespace FixedWidth

variable {α β : Type} {read : List UInt8 → Option (α × List UInt8)} {w : ℕ}

theorem of_readExact (k : ℕ) (f : List UInt8 → α) :
    FixedWidth (fun bs => (readExact k bs).map fun r => (f r.1, r.2)) k where
  eq_none := fun bs h => by rw [readExact_of_lt h, map_none]
  exists_eq_some := fun bs h => ⟨f (bs.take k), by rw [readExact, if_pos h, map_some]⟩

/-- A value computed from what two readers take one after the other. -/
theorem bind (h : FixedWidth read w) {next : α → List UInt8 → Option (β × List UInt8)} {v : ℕ}
    (hnext : ∀ a, FixedWidth (next a) v) :
    FixedWidth (fun bs => (read bs).bind fun r => next r.1 r.2) (w + v) where
  eq_none := by
    intro bs hlt
    rcases lt_or_ge bs.length w with hw | hw
    · rw [h.eq_none bs hw, bind_none]
    · obtain ⟨a, ha⟩ := h.exists_eq_some bs hw
      rw [ha, bind_some]
      exact (hnext a).eq_none _ (by rw [length_drop]; omega)
  exists_eq_some := by
    intro bs hle
    obtain ⟨a, ha⟩ := h.exists_eq_some bs (Nat.le_of_add_right_le hle)
    obtain ⟨b, hb⟩ := (hnext a).exists_eq_some (bs.drop w) (by rw [length_drop]; omega)
    exact ⟨b, by rw [ha, bind_some, hb, drop_drop]⟩

theorem pure (a : α) : FixedWidth (fun bs => some (a, bs)) 0 where
  eq_none := fun _ h => absurd h (Nat.not_lt_zero _)
  exists_eq_some := fun _ _ => ⟨a, rfl⟩

/-- A number of items of one width. -/
theorem readItems (h : FixedWidth read w) (n : ℕ) : FixedWidth (readItems read n) (w * n) := by
  induction n with
  | zero => exact pure []
  | succ n ih =>
    have hstep := h.bind (fun a => ih.bind fun as => pure (a :: as))
    rwa [add_zero, add_comm, ← Nat.mul_succ] at hstep

end FixedWidth
