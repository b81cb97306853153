import TradeCore.Types

/-!
# Matching Strategies

The three implementations of `MatchingStrategy` (`strategy/*.rs`). A strategy answers
one local question: how is the aggressor's quantity distributed among the resting
orders of one price level, which it is handed in time-priority order?

* `priceTimePriority` sweeps the slice from the front.
* `sizePriority` pops a heap ordered by size, then time, then slice position. The heap
  is modelled by its documented behaviour: `popMax` removes the greatest entry.
* `proRata` floors the proportional shares and hands the leftover lots to the largest
  fractional remainders. `select_nth_unstable_by` is modelled by the prefix of the
  sorted list; any other selection gives the same shares (`finalShares_of_select`).
-/

namespace TradeCore

/-- The plain `a - b` of a `w`-bit unsigned integer in the release profile. -/
def wrappingSub (w a b : ℕ) : ℕ :=
  (a + (2 ^ w - b)) % 2 ^ w

/-- A plain subtraction that does not underflow is exact. -/
theorem wrappingSub_of_le {w a b : ℕ} (h : b ≤ a) (ha : a < 2 ^ w) :
    wrappingSub w a b = a - b := by
  have hb : a + (2 ^ w - b) = (a - b) + 2 ^ w := by omega
  rw [wrappingSub, hb, Nat.add_mod_right, Nat.mod_eq_of_lt (by omega)]

/-- The matching strategies an engine can be built with. -/
inductive Strategy
  | priceTimePriority
  | sizePriority
  | proRata
deriving DecidableEq, Repr

/-- The left-to-right sweep of `PriceTimePriority::allocate_into` from slice position
`i` with `remaining` lots still to place. -/
def priceTimeFrom : ℕ → ℕ → List RestingOrder → List Allocation
  | _, _, [] => []
  | i, remaining, r :: rest =>
    if remaining = 0 then []
    else
      let fill := min remaining r.remaining
      if 0 < fill then
        { id := r.id, qty := fill, idx := i % 2 ^ 32 } ::
          priceTimeFrom (i + 1) (remaining - fill) rest
      else priceTimeFrom (i + 1) remaining rest

/-- A heap entry of `SizePriority`. -/
structure BySize where
  remaining : ℕ
  timestamp : ℕ
  idx : ℕ
deriving DecidableEq, Repr

/-- `a < b` in the order of `BySize`: smaller size, then later time, then later slice
position. -/
def BySize.lt (a b : BySize) : Bool :=
  a.remaining < b.remaining ||
    (a.remaining == b.remaining &&
      (b.timestamp < a.timestamp || (b.timestamp == a.timestamp && b.idx < a.idx)))

/-- `BinaryHeap::pop`: the greatest entry and the rest of the heap. -/
def popMax : List BySize → Option (BySize × List BySize)
  | [] => none
  | x :: xs =>
    match popMax xs with
    | none => some (x, [])
    | some (m, rest) => if m.lt x then some (x, xs) else some (m, x :: rest)

/-- The pop loop of `SizePriority::allocate_into`; the heap shrinks by one entry a
turn, so its length is enough fuel. -/
def sizePriorityPops (resting : List RestingOrder) :
    ℕ → ℕ → List BySize → List Allocation
  | 0, _, _ => []
  | n + 1, remaining, heap =>
    if remaining = 0 then []
    else
      match popMax heap with
      | none => []
      | some (top, heap') =>
        let fill := min remaining top.remaining
        if 0 < fill then
          { id := ((resting[top.idx]?).map RestingOrder.id).getD 0, qty := fill,
            idx := top.idx } ::
            sizePriorityPops resting n (remaining - fill) heap'
        else sizePriorityPops resting n remaining heap'

/-- `SizePriority::allocate_into`. -/
def sizePriorityAllocate (resting : List RestingOrder) (incoming : ℕ) :
    List Allocation :=
  if incoming = 0 then []
  else
    match resting with
    | [r] =>
      let fill := min incoming r.remaining
      if 0 < fill then [{ id := r.id, qty := fill, idx := 0 }] else []
    | _ =>
      let storage := resting.zipIdx.map fun (r, i) =>
        { remaining := r.remaining, timestamp := r.timestamp, idx := i % 2 ^ 32 : BySize }
      sizePriorityPops resting storage.length incoming storage

/-- `by_remainder`: larger fractional remainder first, then earlier time, then earlier
slice position. An entry is the slice position, the remainder and the timestamp of the
order at that position. -/
def byRemainder (a b : ℕ × ℕ × ℕ) : Bool :=
  b.2.1 < a.2.1 ||
    (a.2.1 == b.2.1 && (a.2.2 < b.2.2 || (a.2.2 == b.2.2 && a.1 ≤ b.1)))

/-- The floored proportional shares; the product is taken in `u128` and does not
overflow. -/
def flooredShares (resting : List RestingOrder) (fillable total : ℕ) : List ℕ :=
  resting.map fun r => fillable * r.remaining / total % 2 ^ 64

/-- The fractional remainders, with slice position and the timestamp that ranks it. -/
def remainders (resting : List RestingOrder) (fillable total : ℕ) : List (ℕ × ℕ × ℕ) :=
  resting.zipIdx.map fun (r, i) =>
    (i % 2 ^ 32, fillable * r.remaining % total,
      ((resting[i % 2 ^ 32]?).map RestingOrder.timestamp).getD 0)

/-- The slice positions that get one of the leftover lots. -/
def luckyPositions (resting : List RestingOrder) (fillable total : ℕ) : List ℕ :=
  let assigned := (flooredShares resting fillable total).sum % 2 ^ 64
  let leftover := wrappingSub 64 fillable assigned
  let fracs := remainders resting fillable total
  if 0 < leftover ∧ leftover < fracs.length then
    ((fracs.insertionSort (byRemainder · ·)).take leftover).map Prod.fst
  else []

/-- The shares after the leftover lots were handed out. -/
def finalShares (resting : List RestingOrder) (fillable total : ℕ) : List ℕ :=
  (flooredShares resting fillable total).zipIdx.map fun (b, i) =>
    b + (luckyPositions resting fillable total).count i

/-- Every order fills fully. -/
def emitAll (resting : List RestingOrder) : List Allocation :=
  resting.zipIdx.map fun x => { id := x.1.id, qty := x.1.remaining, idx := x.2 % 2 ^ 32 }

/-- The shares in slice order, without the empty ones. -/
def emitShares (resting : List RestingOrder) (shares : List ℕ) : List Allocation :=
  (resting.zip shares).zipIdx.filterMap fun x =>
    if 0 < x.1.2 then some { id := x.1.1.id, qty := x.1.2, idx := x.2 % 2 ^ 32 } else none

/-- `ProRata::allocate_into`. -/
def proRataAllocate (resting : List RestingOrder) (incoming : ℕ) : List Allocation :=
  let total := (resting.map RestingOrder.remaining).sum % 2 ^ 64
  let fillable := min incoming total
  if fillable = 0 then []
  else if fillable = total then emitAll resting
  else
    match resting with
    | [r] => [{ id := r.id, qty := fillable, idx := 0 }]
    | _ => emitShares resting (finalShares resting fillable total)

namespace Strategy

/-- Whether the strategy needs to see the entire price level to allocate. -/
def fullLevelRequired : Strategy → Bool
  | priceTimePriority => false
  | sizePriority => true
  | proRata => true

/-- `MatchingStrategy::allocate`. -/
def allocate : Strategy → List RestingOrder → ℕ → List Allocation
  | priceTimePriority, resting, incoming => priceTimeFrom 0 incoming resting
  | sizePriority, resting, incoming => sizePriorityAllocate resting incoming
  | proRata, resting, incoming => proRataAllocate resting incoming

end Strategy

end TradeCore
