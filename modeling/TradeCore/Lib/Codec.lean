import TradeCore.Lib.Bytes

/-!
# Codecs

A **codec** turns values into byte strings and back. A **field** is a self-delimiting codec:
its reader finds the end of the value by itself, so that fields can be written one after the
other. Numbers are written in base 128 with a continuation bit, lists behind their length.

## Main results

* `ByteField.pair`, `ByteField.list`, `ByteField.comap` — fields compose.
* `ByteField.toCodec` — a field makes a codec of whole byte strings.
-/

/-- An encoding of values as byte strings with its inverse. -/
structure ByteCodec (α : Type) where
  write : α → List UInt8
  parse : List UInt8 → Option α
  parse_write : ∀ a, parse (write a) = some a

/-- A self-delimiting encoding: what follows a value does not disturb reading it. -/
structure ByteField (α : Type) where
  write : α → List UInt8
  read : List UInt8 → Option (α × List UInt8)
  read_write : ∀ a rest, read (write a ++ rest) = some (a, rest)

open List Option

namespace ByteField

variable {α β : Type}

/-- A field read alone. -/
def toCodec (f : ByteField α) : ByteCodec α where
  write := f.write
  parse := fun bs => (f.read bs).map Prod.fst
  parse_write := fun a => by
    have h := f.read_write a []
    rw [append_nil] at h
    rw [h]
    rfl

/-- Two fields, one after the other. -/
def pair (f : ByteField α) (g : ByteField β) : ByteField (α × β) where
  write := fun ab => f.write ab.1 ++ g.write ab.2
  read := fun bs => do
    let (a, bs) ← f.read bs
    let (b, bs) ← g.read bs
    return ((a, b), bs)
  read_write := fun ab rest => by
    simp [append_assoc, f.read_write, g.read_write]

/-- A field for a type whose values are recovered from another one. -/
def comap (f : ByteField β) (unpack : α → β) (pack : β → α)
    (h : ∀ a, pack (unpack a) = a) : ByteField α where
  write := fun a => f.write (unpack a)
  read := fun bs => (f.read bs).map (Prod.map pack id)
  read_write := fun a rest => by simp [f.read_write, h]

/-! ### Numbers -/

/-- The base-128 digits of a number, least significant first, all but the last marked by the
high bit. One unit of fuel is used for each digit. -/
def varintBytes : ℕ → ℕ → List UInt8
  | 0, n => [UInt8.ofNat n]
  | fuel + 1, n =>
    if n < 128 then [UInt8.ofNat n]
    else UInt8.ofNat (n % 128 + 128) :: varintBytes fuel (n / 128)

/-- Read base-128 digits up to the first without the high bit. -/
def readVarint : List UInt8 → Option (ℕ × List UInt8)
  | [] => none
  | b :: bs =>
    if b.toNat < 128 then some (b.toNat, bs)
    else (readVarint bs).map fun (n, rest) => (b.toNat - 128 + 128 * n, rest)

theorem readVarint_varintBytes (fuel n : ℕ) (h : n < 128 * 2 ^ fuel) (rest : List UInt8) :
    readVarint (varintBytes fuel n ++ rest) = some (n, rest) := by
  induction fuel generalizing n with
  | zero =>
    have hb : (UInt8.ofNat n).toNat = n := by
      simp only [UInt8.toNat_ofNat']
      omega
    simp only [varintBytes, cons_append, nil_append, readVarint, hb]
    exact if_pos (by omega)
  | succ fuel ih =>
    unfold varintBytes
    split
    · rename_i hlt
      have hb : (UInt8.ofNat n).toNat = n := by
        simp only [UInt8.toNat_ofNat']
        omega
      simp only [cons_append, nil_append, readVarint, hb, hlt, if_true]
    · have hb : (UInt8.ofNat (n % 128 + 128)).toNat = n % 128 + 128 := by
        simp only [UInt8.toNat_ofNat']
        omega
      have hrest := ih (n / 128) (by rw [pow_succ] at h; omega)
      simp only [cons_append, readVarint, hb, hrest, map_some]
      rw [if_neg (by omega), Nat.add_sub_cancel, Nat.mod_add_div]

/-- Numbers of any size. -/
def nat : ByteField ℕ where
  write := fun n => varintBytes n n
  read := readVarint
  read_write := fun n rest =>
    readVarint_varintBytes n n
      (n.lt_two_pow_self.trans_le (Nat.le_mul_of_pos_left _ (by omega))) rest

/-- A number takes at most one byte more than its value. -/
theorem length_nat_write_le (n : ℕ) : (nat.write n).length ≤ n + 1 := by
  have h : ∀ fuel n, (varintBytes fuel n).length ≤ fuel + 1 := by
    intro fuel
    induction fuel with
    | zero => exact fun n => le_rfl
    | succ fuel ih =>
      intro n
      unfold varintBytes
      split
      · simp
      · simpa using ih (n / 128)
  exact h n n

/-! ### Lists -/

/-- Read a given number of values. -/
def readMany (f : ByteField α) : ℕ → List UInt8 → Option (List α × List UInt8)
  | 0, bs => some ([], bs)
  | k + 1, bs => do
    let (a, bs) ← f.read bs
    let (as, bs) ← readMany f k bs
    return (a :: as, bs)

theorem readMany_flatMap (f : ByteField α) (as : List α) (rest : List UInt8) :
    readMany f as.length (as.flatMap f.write ++ rest) = some (as, rest) := by
  induction as with
  | nil => rfl
  | cons a as ih =>
    simp [readMany, append_assoc, f.read_write, ih]

/-- A list behind its length. -/
def list (f : ByteField α) : ByteField (List α) where
  write := fun as => nat.write as.length ++ as.flatMap f.write
  read := fun bs => do
    let (k, bs) ← nat.read bs
    readMany f k bs
  read_write := fun as rest => by
    simp [append_assoc, nat.read_write, readMany_flatMap]

/-- A single byte. -/
def byte : ByteField UInt8 where
  write := fun b => [b]
  read := fun bs => match bs with
    | [] => none
    | b :: bs => some (b, bs)
  read_write := fun _ _ => rfl

/-- Bytes behind their length. -/
theorem length_bytes_write (bs : List UInt8) :
    ((list byte).write bs).length = (nat.write bs.length).length + bs.length := by
  simp [list, byte]

end ByteField
