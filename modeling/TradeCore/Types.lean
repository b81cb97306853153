import Mathlib

/-!
# Core Value Types

The value types shared by the matching engine (`types.rs`, `order.rs`, `trade.rs`).
Prices, quantities, identifiers and timestamps are unsigned 64-bit integers in the
source and natural numbers here; `Order.InRange` says that the fields of an order are
values the source can hold, and the arithmetic that can leave the range is written out.

## Arithmetic convention

The deployed binaries are built with the release profile, so a plain `+` or `-` on a
machine integer wraps, while `checked_add(..).expect(..)`, `assert!` and an
out-of-bounds index abort the process. Every function that can abort returns an
`Option`, and `none` is the abort: `checkedAdd` and `checkedSub` are the checked
operators, `wrappingAdd` is the plain `+`. A plain `-` is written as the natural-number
`-` where the subtrahend never exceeds the minuend.
-/

namespace TradeCore

/-- `Price::MAX`, which is also `Qty::MAX`. -/
def priceMax : ℕ := 2 ^ 64 - 1

/-- `a.checked_add(b).expect(..)` on a `w`-bit unsigned integer. -/
def checkedAdd (w a b : ℕ) : Option ℕ :=
  if a + b < 2 ^ w then some (a + b) else none

/-- `a.checked_sub(b).expect(..)` on an unsigned integer. -/
def checkedSub (a b : ℕ) : Option ℕ :=
  if b ≤ a then some (a - b) else none

/-- The plain `a + b` of a `w`-bit unsigned integer in the release profile. -/
def wrappingAdd (w a b : ℕ) : ℕ :=
  (a + b) % 2 ^ w

/-- A checked addition succeeds exactly when the sum is in range. -/
@[simp] theorem checkedAdd_eq_some {w a b c : ℕ} :
    checkedAdd w a b = some c ↔ a + b < 2 ^ w ∧ c = a + b := by
  simp only [checkedAdd]
  split <;> simp_all [eq_comm]

/-- A checked subtraction succeeds exactly when it does not underflow. -/
@[simp] theorem checkedSub_eq_some {a b c : ℕ} :
    checkedSub a b = some c ↔ b ≤ a ∧ c = a - b := by
  simp only [checkedSub]
  split <;> simp_all [eq_comm]

/-- The side of an order. -/
inductive Side
  | buy
  | sell
deriving DecidableEq, Repr, Inhabited

/-- The opposite (resting) side that an aggressor of this side matches against. -/
def Side.opposite : Side → Side
  | .buy => .sell
  | .sell => .buy

/-- Whether an order rests on the book at a limit price or sweeps the book. -/
inductive OrderType
  | limit
  | market
deriving DecidableEq, Repr, Inhabited

/-- How long an order remains active. -/
inductive TimeInForce
  | gtc
  | ioc
  | fok
  /-- IOC with a total-notional budget carried in the `price` field. -/
  | iocBudget
  /-- FOK with a total-notional budget carried in the `price` field. -/
  | fokBudget
deriving DecidableEq, Repr, Inhabited

/-- An order as it lives inside the engine. -/
structure Order where
  id : ℕ
  instrument : ℕ
  user : ℕ
  side : Side
  orderType : OrderType
  tif : TimeInForce
  price : ℕ
  quantity : ℕ
  remaining : ℕ
  timestamp : ℕ
deriving DecidableEq, Repr, Inhabited

namespace Order

/-- A good-till-cancel limit order (instrument 0 by default). -/
def limit (id : ℕ) (side : Side) (price : ℕ) (quantity : ℕ) : Order where
  id := id
  instrument := 0
  user := 0
  side := side
  orderType := .limit
  tif := .gtc
  price := price
  quantity := quantity
  remaining := quantity
  timestamp := 0

/-- A market order (sweeps the book, never rests), with the sentinel price that makes
any resting order crossable. -/
def market (id : ℕ) (side : Side) (quantity : ℕ) : Order where
  id := id
  instrument := 0
  user := 0
  side := side
  orderType := .market
  tif := .ioc
  price := match side with
    | .buy => priceMax
    | .sell => 0
  quantity := quantity
  remaining := quantity
  timestamp := 0

/-- Override the time-in-force. -/
def withTif (o : Order) (tif : TimeInForce) : Order := { o with tif := tif }

/-- Route this order to a specific instrument. -/
def on (o : Order) (instrument : ℕ) : Order := { o with instrument := instrument }

/-- Attribute this order to a user. -/
def by_ (o : Order) (user : ℕ) : Order := { o with user := user }

/-- The fields are values of the source's machine integers. -/
structure InRange (o : Order) : Prop where
  id : o.id < 2 ^ 64
  instrument : o.instrument < 2 ^ 32
  user : o.user < 2 ^ 64
  price : o.price < 2 ^ 64
  quantity : o.quantity < 2 ^ 64
  remaining : o.remaining < 2 ^ 64
  timestamp : o.timestamp < 2 ^ 64

instance decidableInRange (o : Order) : Decidable o.InRange :=
  decidable_of_iff (o.id < 2 ^ 64 ∧ o.instrument < 2 ^ 32 ∧ o.user < 2 ^ 64 ∧ o.price < 2 ^ 64 ∧
      o.quantity < 2 ^ 64 ∧ o.remaining < 2 ^ 64 ∧ o.timestamp < 2 ^ 64)
    ⟨fun ⟨h₁, h₂, h₃, h₄, h₅, h₆, h₇⟩ => ⟨h₁, h₂, h₃, h₄, h₅, h₆, h₇⟩,
      fun ⟨h₁, h₂, h₃, h₄, h₅, h₆, h₇⟩ => ⟨h₁, h₂, h₃, h₄, h₅, h₆, h₇⟩⟩

end Order

/-- A single execution between an aggressing (taker) and a resting (maker) order. -/
structure Trade where
  taker : ℕ
  maker : ℕ
  aggressor : Side
  price : ℕ
  quantity : ℕ
  timestamp : ℕ
  makerUser : ℕ
  takerUser : ℕ
deriving DecidableEq, Repr

/-- The terminal (or resting) state of a submitted order. -/
inductive OrderStatus
  | filled
  | partiallyFilled
  | resting
  | cancelled
  | rejected
deriving DecidableEq, Repr

/-- The outcome of submitting an order. -/
structure SubmitReport where
  orderId : ℕ
  status : OrderStatus
  filled : ℕ
  trades : List Trade
  resting : Bool
deriving DecidableEq, Repr

/-- The outcome of a modify (amend) request. -/
inductive ModifyOutcome
  | notFound
  | reduced (orderId : ℕ) (remaining : ℕ)
  | cancelled (orderId : ℕ)
  | requoted (report : SubmitReport)
deriving DecidableEq, Repr

/-- A read-only view of one resting order, as presented to a strategy. -/
structure RestingOrder where
  id : ℕ
  remaining : ℕ
  timestamp : ℕ
  user : ℕ
deriving DecidableEq, Repr

/-- A strategy's decision to fill `qty` from resting maker order `id`, which stands at
position `idx` of the slice the strategy was handed. -/
structure Allocation where
  id : ℕ
  qty : ℕ
  idx : ℕ
deriving DecidableEq, Repr

/-- The view of a resting order that a strategy sees. -/
def Order.toResting (o : Order) : RestingOrder where
  id := o.id
  remaining := o.remaining
  timestamp := o.timestamp
  user := o.user

end TradeCore
