import TradeCore.CrossSpec
import TradeCore.BookOps
import TradeCore.Lib.Ladder

/-!
# The Reference Engine

The book as a trader would write it down: per side a list of prices, best price first, each
with the first-in first-out list of its orders. `NaiveEngine` implements the calls of
`MatchingEngine` directly on these lists: there is no slab, no index and no tombstone, every
function is total, and quantities are unbounded. `Refinement` shows that the engine computes
the same.

The reference keeps two limits of the source as predicates instead of aborts:
`NaiveBook.InBounds` (level totals) and `NaiveEngine.FokInBounds` (the sum of the
fill-or-kill precheck).
-/

namespace TradeCore

/-- The price `p` comes before `q` on a side of the book. -/
def Side.better : Side → ℕ → ℕ → Prop
  | .buy, p, q => q < p
  | .sell, p, q => p < q

instance Side.decidableBetter (s : Side) : DecidableRel s.better := by
  cases s <;> unfold Side.better <;> infer_instance

instance Side.strictBetter (s : Side) : IsStrictTotalOrder ℕ s.better := by
  cases s
  · exact inferInstanceAs (IsStrictTotalOrder ℕ (· > ·))
  · exact inferInstanceAs (IsStrictTotalOrder ℕ (· < ·))

/-- The resting orders of each side, best price first. -/
abbrev NaiveBook := (s : Side) → Ladder s.better Order

/-- The total quantity of a queue. -/
def totalQty (q : List Order) : ℕ := (q.map Order.remaining).sum

/-- Whether an aggressor with this limit reaches the price `px`. -/
def reaches (aggressor : Side) (limit px : ℕ) : Bool :=
  match aggressor with
  | .buy => px ≤ limit
  | .sell => limit ≤ px

/-- Drop the orders with one of the given ids. -/
def without (ids : List ℕ) (o : Order) : Option Order :=
  if o.id ∈ ids then none else some o

/-- Lots left over, and cost, of taking `qty` lots off the rungs in order. -/
def sweepCost : ℕ → List (ℕ × List Order) → ℕ × ℕ
  | left, [] => (left, 0)
  | left, (px, q) :: rest =>
    let take := min left (totalQty q)
    let swept := sweepCost (left - take) rest
    (swept.1, px * take + swept.2)

/-- Sweeping for nothing costs nothing. -/
@[simp] theorem sweepCost_zero (rungs : List (ℕ × List Order)) : sweepCost 0 rungs = (0, 0) := by
  induction rungs with
  | nil => rfl
  | cons e rungs ih => simp [sweepCost, ih]

namespace NaiveBook

/-- The book without orders. -/
def empty : NaiveBook := fun _ => Ladder.empty

variable (b : NaiveBook)

/-- The orders at a price, in time order. -/
def queue (s : Side) (p : ℕ) : List Order := (b s).queue p

/-- The best price of a side. -/
def best (s : Side) : Option ℕ := (b s).rungs.head?.map Prod.fst

/-- `(price, total quantity, order count)` rows, best price first. -/
def depth (s : Side) : List (ℕ × ℕ × ℕ) :=
  (b s).rungs.map fun e => (e.1, totalQty e.2, e.2.length)

/-- All resting orders. -/
def orders : List Order := (b .buy).elems ++ (b .sell).elems

/-- The resting order with this id. -/
def find? (id : ℕ) : Option Order := b.orders.find? fun o => o.id = id

/-- Rewrite or drop every resting order. -/
def rewrite (f : Order → Option Order) : NaiveBook := fun s => (b s).mapQueues f

/-- Append an order to the queue of its price. -/
def push (order : Order) : NaiveBook := fun s =>
  if s = order.side then (b s).push order.price order else b s

/-- Total quantity that an aggressor with limit `limit` reaches. -/
def crossableQty (aggressor : Side) (limit : ℕ) : ℕ :=
  (((b aggressor.opposite).rungs.filter fun e => reaches aggressor limit e.1).map
    fun e => totalQty e.2).sum

/-- Lots fillable out of `qty`, best price first, and their cost. -/
def costToFill (aggressor : Side) (qty : ℕ) : ℕ × ℕ :=
  let swept := sweepCost qty (b aggressor.opposite).rungs
  (qty - swept.1, swept.2)

/-- Every level total is a 64-bit value. -/
def InBounds : Prop :=
  ∀ e ∈ (b .buy).rungs ++ (b .sell).rungs, totalQty e.2 < 2 ^ 64

instance (b : NaiveBook) : Decidable b.InBounds := by
  unfold InBounds
  infer_instance

end NaiveBook

/-! ### Crossing -/

/-- The state of the reference crossing loop. -/
structure NaiveCross where
  book : NaiveBook
  order : Order
  trades : List Trade
  budgetLeft : ℕ
  stpCancelled : List ℕ

/-- The makers of a level that an order for `lots` lots looks at. -/
def reached (strategy : Strategy) (lots : ℕ) (q : List Order) : List RestingOrder :=
  if strategy.fullLevelRequired then q.map Order.toResting
  else OrderBook.capped lots 0 (q.map Order.toResting)

/-- The user's own orders in a view. -/
def ownIds (user : ℕ) (view : List RestingOrder) : List ℕ :=
  (view.filter fun r => r.user = user).map RestingOrder.id

namespace NaiveCross

/-- Cancel the given makers. -/
def pull (c : NaiveCross) (ids : List ℕ) : NaiveCross :=
  { c with book := c.book.rewrite (without ids), stpCancelled := c.stpCancelled ++ ids }

/-- Trade the allocations at `px`. -/
def fill (c : NaiveCross) (seq px : ℕ) (view : List RestingOrder) (allocs : List Allocation) :
    NaiveCross :=
  { c with
    book := c.book.rewrite (settle (allocs.map fillOf))
    order := { c.order with remaining := c.order.remaining - allocated allocs }
    trades := c.trades ++ allocs.map (tradeOf seq c.order px view)
    budgetLeft := c.budgetLeft - px * allocated allocs }

/-- Self-trade prevention and the fill on the makers `view` of the best level. -/
def level (strategy : Strategy) (stp : SelfTradePolicy) (seq px lots : ℕ)
    (view : List RestingOrder) (c : NaiveCross) : Flow × NaiveCross :=
  if ownInView stp c.order view then
    match stp with
    | .cancelMaker => (.continue, c.pull (ownIds c.order.user view))
    | .cancelBoth => (.takerStopped, c.pull (ownIds c.order.user view))
    | .cancelTaker => (.takerStopped, c)
    | .allow => (.takerStopped, c)
  else (.continue, c.fill seq px view (strategy.allocate view lots))

/-- One turn of the reference loop. -/
def pass (strategy : Strategy) (stp : SelfTradePolicy) (seq : ℕ) (c : NaiveCross) :
    Flow × NaiveCross :=
  match (c.book c.order.side.opposite).rungs.head? with
  | none => (.break, c)
  | some (px, q) =>
    let lots := affordable c.budgetLeft c.order.remaining px
    if crossable c.order px = false ∨ lots = 0 then (.break, c)
    else c.level strategy stp seq px lots (reached strategy lots q)

/-- The reference loop; `measure` turns are enough. -/
def loop (strategy : Strategy) (stp : SelfTradePolicy) (seq : ℕ) :
    ℕ → NaiveCross → NaiveCross × Bool
  | 0, c => (c, false)
  | n + 1, c =>
    if c.order.remaining = 0 then (c, false)
    else
      match pass strategy stp seq c with
      | (.break, c) => (c, false)
      | (.takerStopped, c) => (c, true)
      | (.continue, c) => loop strategy stp seq n c

/-- What every turn of the loop uses up: lots of the taker, or makers. -/
def measure (c : NaiveCross) : ℕ :=
  c.order.remaining + (c.book c.order.side.opposite).size

/-- The remainder of a crossed order rests. -/
def Rests (c : NaiveCross) (stopped : Bool) : Prop :=
  stopped = false ∧ 0 < c.order.remaining ∧ c.order.orderType = .limit ∧ c.order.tif = .gtc

instance (c : NaiveCross) (stopped : Bool) : Decidable (c.Rests stopped) := by
  unfold Rests
  infer_instance

/-- The status of a crossed order. -/
def status (c : NaiveCross) (stopped : Bool) : OrderStatus :=
  if c.order.remaining = 0 then .filled
  else if c.order.remaining < c.order.quantity then .partiallyFilled
  else if c.Rests stopped then .resting
  else .cancelled

end NaiveCross

/-! ### The calls -/

/-- The reference engine. -/
structure NaiveEngine where
  book : NaiveBook
  strategy : Strategy
  seq : ℕ
  stp : SelfTradePolicy
  stpCancelled : List ℕ

namespace NaiveEngine

/-- A reference engine without orders. -/
def fresh (strategy : Strategy) (stp : SelfTradePolicy) : NaiveEngine where
  book := NaiveBook.empty
  strategy := strategy
  seq := 0
  stp := stp
  stpCancelled := []

variable (n : NaiveEngine)

/-- The engine at the start of a submission. -/
def stamped : NaiveEngine :=
  { n with seq := wrappingAdd 64 n.seq 1, stpCancelled := [] }

/-- The incoming order at the start of a submission. -/
def stampOrder (order : Order) : Order :=
  { order with timestamp := wrappingAdd 64 n.seq 1, remaining := order.quantity }

/-- Budget orders: the rewritten order with its spending cap, or `none` if a fill-or-kill
budget does not cover the quantity. -/
def applyBudget (order : Order) : Option (Order × ℕ) :=
  match order.tif, order.side with
  | .iocBudget, .sell =>
    some ({ order with price := MatchingEngine.budgetFloor order.price order.quantity
                       tif := .ioc }, 2 ^ 128 - 1)
  | .fokBudget, .sell =>
    some ({ order with price := MatchingEngine.budgetFloor order.price order.quantity
                       tif := .fok }, 2 ^ 128 - 1)
  | .iocBudget, .buy => some ({ order with price := priceMax }, order.price)
  | .fokBudget, .buy =>
    let cost := n.book.costToFill .buy order.quantity
    if cost.1 < order.quantity ∨ order.price < cost.2 then none
    else some ({ order with price := priceMax, tif := .iocBudget }, order.price)
  | _, _ => some (order, 2 ^ 128 - 1)

/-- A fill-or-kill order that reaches too little. -/
def FokShort (order : Order) : Prop :=
  order.tif = .fok ∧ n.book.crossableQty order.side order.price < order.remaining

instance (n : NaiveEngine) (order : Order) : Decidable (n.FokShort order) := by
  unfold FokShort
  infer_instance

/-- Cross the book. -/
def cross (order : Order) (budgetLeft : ℕ) : NaiveCross × Bool :=
  let c : NaiveCross :=
    { book := n.book, order := order, trades := [], budgetLeft := budgetLeft
      stpCancelled := n.stpCancelled }
  c.loop n.strategy n.stp n.seq (c.measure + 1)

/-- Cross the book and rest the remainder of a good-till-cancel limit order. -/
def crossAndFinalize (order : Order) (budgetLeft : ℕ) : NaiveEngine × SubmitReport :=
  let (c, stopped) := n.cross order budgetLeft
  ({ n with
      book := if c.Rests stopped then c.book.push c.order else c.book
      stpCancelled := c.stpCancelled },
    { orderId := order.id, status := c.status stopped
      filled := c.order.quantity - c.order.remaining, trades := c.trades
      resting := c.Rests stopped })

/-- A rejection changes no order. -/
def reject (order : Order) : NaiveEngine × SubmitReport :=
  (n, { orderId := order.id, status := .rejected, filled := 0, trades := [], resting := false })

/-- Submit an order. -/
def submit (order : Order) : NaiveEngine × SubmitReport :=
  match n.stamped.applyBudget (n.stampOrder order) with
  | none => n.stamped.reject order
  | some (order', budgetLeft) =>
    if n.stamped.FokShort order' then n.stamped.reject order
    else n.stamped.crossAndFinalize order' budgetLeft

/-- Cancel a resting order. -/
def cancel (id : ℕ) : NaiveEngine × Bool :=
  ({ n with book := n.book.rewrite (without [id]) }, (n.book.find? id).isSome)

/-- The re-entered order of an amendment. -/
def requote (o : Order) (newPrice newQty : ℕ) : Order :=
  { o with price := newPrice, quantity := newQty, remaining := newQty, tif := .gtc }

/-- Amend a resting order. -/
def modify (id newPrice newQty : ℕ) : NaiveEngine × ModifyOutcome :=
  match n.book.find? id with
  | none => (n, .notFound)
  | some o =>
    if newPrice = o.price ∧ newQty ≤ o.remaining then
      if newQty = 0 then ((n.cancel id).1, .cancelled id)
      else ({ n with book := n.book.rewrite (OrderBook.shrunk id newQty) }, .reduced id newQty)
    else
      let r := (n.cancel id).1.submit (requote o newPrice newQty)
      (r.1, .requoted r.2)

/-- Cancel every resting order of a user. -/
def cancelAllForUser (user : ℕ) : NaiveEngine × List ℕ :=
  let ids := (n.book.orders.filter fun o => o.user = user).map Order.id
  ({ n with book := n.book.rewrite (without ids) }, ids)

/-- One call. -/
def call : Call → NaiveEngine × Outcome
  | .submit order => ((n.submit order).1, .submitted (n.submit order).2)
  | .modify id newPrice newQty =>
    ((n.modify id newPrice newQty).1, .modified (n.modify id newPrice newQty).2)
  | .cancel id => ((n.cancel id).1, .cancelled (n.cancel id).2)
  | .cancelAllForUser user =>
    ((n.cancelAllForUser user).1, .cancelledAll (n.cancelAllForUser user).2)

/-- A sequence of calls. -/
def run (n : NaiveEngine) : List Call → NaiveEngine × List Outcome
  | [] => (n, [])
  | c :: calls =>
    let r := (n.call c).1.run calls
    (r.1, (n.call c).2 :: r.2)

/-! ### The limits of the source -/

/-- The fill-or-kill precheck of a submission sums to a 64-bit value. -/
def FokInBounds (order : Order) : Prop :=
  ∀ r ∈ n.stamped.applyBudget (n.stampOrder order), r.1.tif = .fok →
    n.book.crossableQty r.1.side r.1.price < 2 ^ 64

instance (n : NaiveEngine) (order : Order) : Decidable (n.FokInBounds order) := by
  unfold FokInBounds
  infer_instance

/-- The remainder that rests finds its id unused and room in its level. -/
def RestInBounds (order : Order) : Prop :=
  ∀ r ∈ n.stamped.applyBudget (n.stampOrder order), ¬ n.stamped.FokShort r.1 →
    ∀ c stopped, n.stamped.cross r.1 r.2 = (c, stopped) → c.Rests stopped →
      c.book.find? c.order.id = none ∧
        totalQty (c.book.queue c.order.side c.order.price) + c.order.remaining < 2 ^ 64

/-- What a submission needs of the source's machine integers. -/
def Admits (order : Order) : Prop :=
  n.FokInBounds order ∧ n.RestInBounds order

/-- What a call needs of the source's machine integers. -/
def CallAdmits (n : NaiveEngine) : Call → Prop
  | .submit order => n.Admits order
  | .modify id newPrice newQty =>
    ∀ o ∈ n.book.find? id, ¬ (newPrice = o.price ∧ newQty ≤ o.remaining) →
      (n.cancel id).1.Admits (requote o newPrice newQty)
  | .cancel _ => True
  | .cancelAllForUser _ => True

end NaiveEngine

end TradeCore
