import TradeCore.Book
import TradeCore.Strategy

/-!
# The Matching Engine

`MatchingEngine` (`engine.rs`): order intake, crossing, time-in-force handling and
reporting for one instrument. Crossing is identical for every strategy; the strategy only
decides the allocation inside one price level.

The crossing loop is `crossLoop`, an iteration of `crossPass`, which is one turn of the
`while`. A turn that does not end the loop either fills at least one lot or removes at
least one order, so `order.remaining + book.len() + 2` turns are enough
(`crossLoop` with that fuel is `cross`).
-/

namespace TradeCore

open Std

/-- What to do when an incoming order would trade against a resting order of the same
user. -/
inductive SelfTradePolicy
  | allow
  | cancelTaker
  | cancelMaker
  | cancelBoth
deriving DecidableEq, Repr

/-- A single-instrument continuous matching engine. -/
structure MatchingEngine where
  book : OrderBook
  strategy : Strategy
  seq : ℕ
  stp : SelfTradePolicy
  /-- Maker orders cancelled by self-trade prevention during the last submit. -/
  stpCancelled : List ℕ

namespace MatchingEngine

/-- An engine whose book reserves `maxOrders` pool slots. -/
def withPool (strategy : Strategy) (maxOrders : ℕ) (prefault : Bool) : MatchingEngine where
  book := OrderBook.withCapacity maxOrders prefault
  strategy := strategy
  seq := 0
  stp := .allow
  stpCancelled := []

/-- Set the self-trade prevention policy. -/
def withStp (e : MatchingEngine) (stp : SelfTradePolicy) : MatchingEngine :=
  { e with stp := stp }

/-- An engine as the exchange builds one. -/
def fresh (strategy : Strategy) (stp : SelfTradePolicy) (maxOrders : ℕ) (prefault : Bool) :
    MatchingEngine :=
  (withPool strategy maxOrders prefault).withStp stp

end MatchingEngine

/-! ### Crossing -/

/-- The state of the crossing loop. -/
structure Cross where
  book : OrderBook
  order : Order
  trades : List Trade
  budgetLeft : ℕ
  stpCancelled : List ℕ

/-- How a turn of the crossing loop ends: `break`, another turn, or `return true`. -/
inductive Flow
  | break
  | continue
  | takerStopped
deriving DecidableEq, Repr

/-- Whether an order may trade at `px`: limit orders only at their price or better. -/
def crossable (order : Order) (px : ℕ) : Bool :=
  match order.orderType, order.side with
  | .limit, .buy => px ≤ order.price
  | .limit, .sell => order.price ≤ px
  | .market, _ => true

/-- Lots affordable at `px` under the remaining budget, at most the remaining quantity. -/
def affordable (budgetLeft : ℕ) (remaining : ℕ) (px : ℕ) : ℕ :=
  min (budgetLeft / max px 1) remaining

/-- Pull the user's own makers of the view off the book. -/
def cancelOwn (user : ℕ) :
    List RestingOrder → OrderBook → List ℕ → Option (OrderBook × List ℕ)
  | [], book, stp => some (book, stp)
  | r :: view, book, stp =>
    if r.user = user then do
      let (_, book) ← book.cancel r.id
      cancelOwn user view book (stp ++ [r.id])
    else cancelOwn user view book stp

/-- The state of the allocation loop: trades, remaining quantity, budget and fills. -/
structure Execution where
  trades : List Trade
  remaining : ℕ
  budgetLeft : ℕ
  fills : List (ℕ × ℕ)

/-- Turn the allocations of one level into trades and fills. -/
def execute (seq : ℕ) (order : Order) (px : ℕ) (view : List RestingOrder) :
    List Allocation → Execution → Option Execution
  | [], x => some x
  | a :: allocs, x =>
    if a.qty = 0 then execute seq order px view allocs x
    else do
      let maker ← view[a.idx]?
      let trade : Trade :=
        { taker := order.id, maker := a.id, aggressor := order.side, price := px
          quantity := a.qty, timestamp := seq, makerUser := maker.user
          takerUser := order.user }
      execute seq order px view allocs
        { trades := x.trades ++ [trade]
          remaining := x.remaining - a.qty
          budgetLeft := x.budgetLeft - px * a.qty
          fills := x.fills ++ [(a.id, a.qty)] }

/-- The view of the best level that the strategy is handed. -/
def levelViewFor (strategy : Strategy) (book : OrderBook) (side : Side) (px : ℕ)
    (affordable : ℕ) : Option (List RestingOrder × OrderBook) :=
  if strategy.fullLevelRequired then book.levelViewInto side px
  else book.levelViewCapped side px affordable

/-- The part of a turn after self-trade prevention: allocate, trade, fill. -/
def crossFill (strategy : Strategy) (seq : ℕ) (px : ℕ) (lots : ℕ)
    (view : List RestingOrder) (c : Cross) : Option (Flow × Cross) :=
  let allocs := strategy.allocate view lots
  if allocs = [] then some (.break, c)
  else do
    let x ← execute seq c.order px view allocs
      { trades := c.trades, remaining := c.order.remaining, budgetLeft := c.budgetLeft
        fills := [] }
    let c := { c with
      order := { c.order with remaining := x.remaining }
      trades := x.trades
      budgetLeft := x.budgetLeft }
    if x.fills = [] then pure (.break, c)
    else
      let book ← c.book.applyFills c.order.side.opposite px x.fills
      pure (.continue, { c with book := book })

/-- Self-trade prevention: does this level hold the taker's own order? -/
def ownInView (stp : SelfTradePolicy) (order : Order) (view : List RestingOrder) : Prop :=
  stp ≠ .allow ∧ order.user ≠ 0 ∧ view.any (fun r => r.user = order.user) = true

instance (stp : SelfTradePolicy) (order : Order) (view : List RestingOrder) :
    Decidable (ownInView stp order view) := by
  unfold ownInView
  infer_instance

/-- The part of a turn on the view of the best level: self-trade prevention, then the
fill. -/
def crossLevel (strategy : Strategy) (stp : SelfTradePolicy) (seq px lots : ℕ)
    (view : List RestingOrder) (c : Cross) : Option (Flow × Cross) :=
  if ownInView stp c.order view then
    match stp with
    | .cancelMaker => do
        let (book, ids) ← cancelOwn c.order.user view c.book c.stpCancelled
        pure (.continue, { c with book := book, stpCancelled := ids })
    | .cancelBoth => do
        let (book, ids) ← cancelOwn c.order.user view c.book c.stpCancelled
        pure (.takerStopped, { c with book := book, stpCancelled := ids })
    | .cancelTaker => some (.takerStopped, c)
    | .allow => none
  else if view = [] then some (.continue, c)
  else crossFill strategy seq px lots view c

/-- One turn of the crossing loop, for an order with remaining quantity. -/
def crossPass (strategy : Strategy) (stp : SelfTradePolicy) (seq : ℕ) (c : Cross) :
    Option (Flow × Cross) :=
  match c.book.best c.order.side.opposite with
  | none => some (.break, c)
  | some px =>
    if crossable c.order px = false then some (.break, c)
    else
      let lots := affordable c.budgetLeft c.order.remaining px
      if lots = 0 then some (.break, c)
      else do
        let (view, book) ← levelViewFor strategy c.book c.order.side.opposite px lots
        crossLevel strategy stp seq px lots view { c with book := book }

/-- The crossing loop with a bound on its turns; the flag says whether self-trade
prevention cancelled the taker's remainder. -/
def crossLoop (strategy : Strategy) (stp : SelfTradePolicy) (seq : ℕ) :
    ℕ → Cross → Option (Cross × Bool)
  | 0, _ => none
  | n + 1, c =>
    if c.order.remaining = 0 then some (c, false)
    else do
      match ← crossPass strategy stp seq c with
      | (.break, c) => pure (c, false)
      | (.takerStopped, c) => pure (c, true)
      | (.continue, c) => crossLoop strategy stp seq n c

namespace MatchingEngine

variable (e : MatchingEngine)

/-- Walk the opposite side best-price-first until the aggressor is exhausted or no
crossable price remains. -/
def cross (order : Order) (budgetLeft : ℕ) : Option (Cross × Bool) :=
  crossLoop e.strategy e.stp e.seq (order.remaining + e.book.len + 2)
    { book := e.book, order := order, trades := [], budgetLeft := budgetLeft
      stpCancelled := e.stpCancelled }

/-! ### Submitting -/

/-- Decide the resting/cancel outcome for any remainder. -/
def finalize (order : Order) : Option (MatchingEngine × OrderStatus × ℕ × Bool) :=
  let filled := order.quantity - order.remaining
  if order.remaining = 0 then some (e, .filled, filled, false)
  else
    match order.orderType, order.tif with
    | .limit, .gtc => do
        let book ← e.book.insert order
        pure ({ e with book := book },
          if 0 < filled then .partiallyFilled else .resting, filled, true)
    | _, _ => some (e, if 0 < filled then .partiallyFilled else .cancelled, filled, false)

/-- A total-notional sell budget as a limit: `ceil(budget / qty)`, computed as
`(budget + q - 1) / q` in wrapping 64-bit arithmetic. -/
def budgetFloor (budget quantity : ℕ) : ℕ :=
  let q := max quantity 1
  wrappingSub 64 (wrappingAdd 64 budget q) 1 / q

/-- The budget step of `submit_into`: the rewritten order with its spending cap, or
`none` where the FOK budget precheck rejects the order. -/
def applyBudget (order : Order) : Option (Option (Order × ℕ)) :=
  match order.tif, order.side with
  | .iocBudget, .sell =>
    some (some ({ order with
      price := budgetFloor order.price order.quantity, tif := .ioc }, 2 ^ 128 - 1))
  | .fokBudget, .sell =>
    some (some ({ order with
      price := budgetFloor order.price order.quantity, tif := .fok }, 2 ^ 128 - 1))
  | .iocBudget, .buy => some (some ({ order with price := priceMax }, order.price))
  | .fokBudget, .buy => do
      let (fillable, cost) ← e.book.costToFill .buy order.quantity
      if fillable < order.quantity ∨ order.price < cost then pure none
      else pure (some ({ order with price := priceMax, tif := .iocBudget }, order.price))
  | _, _ => some (some (order, 2 ^ 128 - 1))

/-- The report tuple of `submit_into`, with the trades it appends. -/
def reject (order : Order) : MatchingEngine × SubmitReport :=
  (e, { orderId := order.id, status := .rejected, filled := 0, trades := [], resting := false })

/-- The FOK precheck of `submit_into`: whether too little is reachable at the limit. -/
def fokShort (order : Order) : Option Bool :=
  if order.tif = .fok then
    (e.book.crossableQty order.side order.price).map fun reachable =>
      decide (reachable < order.remaining)
  else some false

/-- The end of `submit_into`: cross, then report the stopped taker or decide the fate of
the remainder. -/
def crossAndFinalize (order : Order) (budgetLeft : ℕ) : Option (MatchingEngine × SubmitReport) := do
  let (c, takerStopped) ← e.cross order budgetLeft
  let e := { e with book := c.book, stpCancelled := c.stpCancelled }
  if takerStopped then
    let filled := c.order.quantity - c.order.remaining
    pure (e, { orderId := order.id
               status := if 0 < filled then .partiallyFilled else .cancelled
               filled := filled, trades := c.trades, resting := false })
  else
    let (e, status, filled, resting) ← e.finalize c.order
    pure (e, { orderId := order.id, status := status, filled := filled
               trades := c.trades, resting := resting })

/-- Submit an order and match it against the book. -/
def submit (order : Order) : Option (MatchingEngine × SubmitReport) := do
  let e := { e with seq := wrappingAdd 64 e.seq 1, stpCancelled := [] }
  let order := { order with timestamp := e.seq, remaining := order.quantity }
  match ← e.applyBudget order with
  | none => pure (e.reject order)
  | some (order, budgetLeft) =>
    if ← e.fokShort order then pure (e.reject order)
    else e.crossAndFinalize order budgetLeft

/-! ### The other calls -/

/-- Cancel a resting order; `true` if an order was removed. -/
def cancel (id : ℕ) : Option (MatchingEngine × Bool) := do
  let (order, book) ← e.book.cancel id
  pure ({ e with book := book }, order.isSome)

/-- Amend a resting order: a reduction at the same price keeps its place in line, any
other change cancels and re-enters it. -/
def modify (id : ℕ) (newPrice : ℕ) (newQty : ℕ) : Option (MatchingEngine × ModifyOutcome) :=
  match e.book.locate[id]? with
  | none => some (e, .notFound)
  | some slot => do
      let existing ← e.book.pool.get slot
      if newPrice = existing.price ∧ newQty ≤ existing.remaining then
        if newQty = 0 then
          let (_, book) ← e.book.cancel id
          pure ({ e with book := book }, .cancelled id)
        else
          let (_, book) ← e.book.reduce id newQty
          pure ({ e with book := book }, .reduced id newQty)
      else
        let (order, book) ← e.book.cancel id
        let order ← order
        let (e, report) ← { e with book := book }.submit
          { order with price := newPrice, quantity := newQty, remaining := newQty, tif := .gtc }
        pure (e, .requoted report)

/-- Cancel the given orders one by one. -/
def cancelEach (book : OrderBook) (ids : List ℕ) : Option OrderBook :=
  ids.foldlM (fun book id => do
    let (_, book) ← book.cancel id
    pure book) book

/-- Cancel every resting order owned by `user`; returns the cancelled ids. -/
def cancelAllForUser (ω : HashOrder) (user : ℕ) : Option (MatchingEngine × List ℕ) := do
  let ids ← e.book.ordersOfUser ω user
  let book ← cancelEach e.book ids
  pure ({ e with book := book }, ids)

end MatchingEngine

/-! ### Whole runs -/

/-- A call of the engine's public interface. -/
inductive Call
  | submit (order : Order)
  | modify (id newPrice newQty : ℕ)
  | cancel (id : ℕ)
  | cancelAllForUser (user : ℕ)

/-- What a call returns. -/
inductive Outcome
  | submitted (report : SubmitReport)
  | modified (outcome : ModifyOutcome)
  | cancelled (removed : Bool)
  | cancelledAll (ids : List ℕ)

/-- The arguments are values of the source's machine integers. -/
def Call.InRange : Call → Prop
  | .submit order => order.InRange
  | .modify id newPrice newQty => id < 2 ^ 64 ∧ newPrice < 2 ^ 64 ∧ newQty < 2 ^ 64
  | .cancel id => id < 2 ^ 64
  | .cancelAllForUser user => user < 2 ^ 64

instance Call.decidableInRange (c : Call) : Decidable c.InRange := by
  cases c <;> unfold Call.InRange <;> infer_instance

namespace MatchingEngine

/-- One call. The iteration order of the hash map is chosen anew for each call. -/
def call (e : MatchingEngine) (ω : HashOrder) : Call → Option (MatchingEngine × Outcome)
  | .submit order => (e.submit order).map fun r => (r.1, .submitted r.2)
  | .modify id newPrice newQty =>
    (e.modify id newPrice newQty).map fun r => (r.1, .modified r.2)
  | .cancel id => (e.cancel id).map fun r => (r.1, .cancelled r.2)
  | .cancelAllForUser user =>
    (e.cancelAllForUser ω user).map fun r => (r.1, .cancelledAll r.2)

/-- The engine after a sequence of calls, with what they returned. -/
def run (e : MatchingEngine) : List (HashOrder × Call) → Option (MatchingEngine × List Outcome)
  | [] => some (e, [])
  | (ω, call) :: calls => do
      let (e, outcome) ← e.call ω call
      let (e, outcomes) ← e.run calls
      pure (e, outcome :: outcomes)

end MatchingEngine

end TradeCore
