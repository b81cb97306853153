import TradeCore.LevelIndex

/-!
# The Limit Order Book

`OrderBook` (`book.rs`): resting liquidity organised by price and time over a slab pool.
Each side is a `LevelIndex` of pool slots; `locate` finds the slot of a resting order by
id, and `userCounts` counts the resting orders of each attributed user.

The hash maps of the source are finite maps here. Where the source iterates over one, the
iteration order is a parameter: a `HashOrder` picks a permutation for every length.
-/

namespace TradeCore

open Std

/-- An iteration order of a hash map or hash set: one permutation for each size. -/
abbrev HashOrder := (n : ℕ) → Equiv.Perm (Fin n)

/-- The entries of a map in the chosen iteration order. -/
def HashOrder.apply {α : Type} (ω : HashOrder) (entries : List α) : List α :=
  List.ofFn fun i => entries.get (ω entries.length i)

/-- A price-time ordered limit order book over a slab pool. -/
structure OrderBook where
  pool : OrderPool
  bids : LevelIndex
  asks : LevelIndex
  locate : ExtTreeMap ℕ ℕ
  userCounts : ExtTreeMap ℕ ℕ

namespace OrderBook

/-- A book whose pool reserves `maxOrders` slots up front. -/
def withCapacity (maxOrders : ℕ) (prefault : Bool) : OrderBook where
  pool := OrderPool.withCapacity maxOrders prefault
  bids := LevelIndex.empty
  asks := LevelIndex.empty
  locate := ∅
  userCounts := ∅

variable (b : OrderBook)

/-- The index of one side. -/
def side : Side → LevelIndex
  | .buy => b.bids
  | .sell => b.asks

/-- Replace the index of one side. -/
def setSide : Side → LevelIndex → OrderBook
  | .buy, x => { b with bids := x }
  | .sell, x => { b with asks := x }

/-- Number of orders `user` currently has resting (0 for user 0). -/
def userOpenOrders (user : ℕ) : ℕ :=
  b.userCounts[user]?.getD 0

/-- `count_user` with delta `+1`. -/
def countUserUp (counts : ExtTreeMap ℕ ℕ) (user : ℕ) :
    Option (ExtTreeMap ℕ ℕ) :=
  if user = 0 then some counts
  else do
    let n ← checkedAdd 32 (counts[user]?.getD 0) 1
    pure (counts.insert user n)

/-- `count_user` with delta `-1`: the entry disappears with the last order. -/
def countUserDown (counts : ExtTreeMap ℕ ℕ) (user : ℕ) :
    Option (ExtTreeMap ℕ ℕ) :=
  if user = 0 then some counts
  else do
    let n ← checkedSub (← counts[user]?) 1
    pure (if n = 0 then counts.erase user else counts.insert user n)

/-- Number of resting orders. -/
def len : ℕ := b.locate.size

/-- Borrow a resting order by id. -/
def get (id : ℕ) : Option Order :=
  b.locate[id]?.bind b.pool.get

/-- Best price on the given resting side. -/
def best : Side → Option ℕ
  | .buy => b.bids.maxPrice
  | .sell => b.asks.minPrice

/-- The live orders among the given slots, in order. -/
def liveOrders (pool : OrderPool) (slots : List ℕ) : List Order :=
  slots.filterMap fun i => (pool.get i).filter fun o => 0 < o.remaining

/-- The copying loop of `level_view_capped`: skip tombstones, stop once `covered`
reaches the cap. -/
def viewCapped (pool : OrderPool) (cap : ℕ) : ℕ → List ℕ → Option (List RestingOrder)
  | _, [] => some []
  | covered, i :: rest => do
      let o ← pool.get i
      if o.remaining = 0 then viewCapped pool cap covered rest
      else
        let covered ← checkedAdd 64 covered o.remaining
        if cap ≤ covered then pure [o.toResting]
        else
          let out ← viewCapped pool cap covered rest
          pure (o.toResting :: out)

/-- The level view of the matching engine, capped at `capQty` lots: reclaims first. -/
def levelViewCapped (side : Side) (price : ℕ) (capQty : ℕ) :
    Option (List RestingOrder × OrderBook) := do
  let (x, pool) ← (b.side side).maintainLevel price b.pool
  let b := { b.setSide side x with pool := pool }
  match x.get price with
  | some lv =>
    let out ← viewCapped pool capQty 0 lv.orders
    pure (out, b)
  | none => pure ([], b)

/-- The level view of the matching engine, uncapped. -/
def levelViewInto (side : Side) (price : ℕ) : Option (List RestingOrder × OrderBook) :=
  b.levelViewCapped side price priceMax

/-- The visit of `cost_to_fill` at one level: the lots left to fill and the cost so far. -/
def fillLevel (s : ℕ × ℕ) (px : ℕ) (lv : Level) : Option ((ℕ × ℕ) × Bool) := do
  let take := min s.1 lv.qty
  guard (px * take < 2 ^ 128)
  let cost ← checkedAdd 128 s.2 (px * take)
  let left ← checkedSub s.1 take
  pure ((left, cost), decide (0 < left))

/-- Cost to fill up to `qty` lots best-price-first: fillable lots and total cost. -/
def costToFill (aggressor : Side) (qty : ℕ) : Option (ℕ × ℕ) := do
  let levels := b.side aggressor.opposite
  let (left, cost) ← match aggressor with
    | .buy => levels.walkAsc fillLevel (qty, 0)
    | .sell => levels.walkDesc fillLevel (qty, 0)
  pure (qty - left, cost)

/-- Total resting quantity reachable by an aggressor with limit `limit`. -/
def crossableQty (aggressor : Side) (limit : ℕ) : Option ℕ :=
  let levels := b.side aggressor.opposite
  match aggressor with
  | .buy => levels.walkAsc (fun sum px lv =>
    if limit < px then some (sum, false)
    else do
      let sum ← checkedAdd 64 sum lv.qty
      pure (sum, true)) 0
  | .sell => levels.walkDesc (fun sum px lv =>
    if px < limit then some (sum, false)
    else do
      let sum ← checkedAdd 64 sum lv.qty
      pure (sum, true)) 0

/-- Try to insert a resting order; `false` for a duplicate id or a zero quantity. -/
def tryInsert (order : Order) : Option (Bool × OrderBook) :=
  if order.remaining = 0 ∨ order.id ∈ b.locate then some (false, b)
  else do
    let (slot, pool) ← b.pool.alloc order
    let x ← (b.side order.side).push order.price slot order.remaining
    let counts ← countUserUp b.userCounts order.user
    pure (true, { b.setSide order.side x with
      pool := pool, locate := b.locate.insert order.id slot, userCounts := counts })

/-- Insert a resting order, aborting on a duplicate id or a zero quantity. -/
def insert (order : Order) : Option OrderBook := do
  let (inserted, b) ← b.tryInsert order
  guard inserted
  pure b

/-- One turn of the loop of `apply_fills`. -/
def applyFill (side : Side) (price : ℕ) (fill : ℕ × ℕ) : Option OrderBook := do
  guard (0 < fill.2)
  let slot ← b.locate[fill.1]?
  let order ← b.pool.get slot
  guard (order.side = side ∧ order.price = price)
  guard (fill.2 ≤ order.remaining)
  let lv ← (b.side side).get price
  let qty ← checkedSub lv.qty fill.2
  let live ← if fill.2 = order.remaining then checkedSub lv.live 1 else some lv.live
  let b := { b.setSide side ((b.side side).setLevel price { lv with qty := qty, live := live })
    with pool := b.pool.setRemaining slot (order.remaining - fill.2) }
  if order.remaining - fill.2 = 0 then
    let counts ← countUserDown b.userCounts order.user
    pure { b with locate := b.locate.erase fill.1, userCounts := counts }
  else pure b

/-- Apply fills produced by a strategy against the resting `side` at `price`. -/
def applyFills (side : Side) (price : ℕ) (fills : List (ℕ × ℕ)) : Option OrderBook :=
  if fills = [] then some b
  else do
    guard ((b.side side).get price).isSome
    let b ← fills.foldlM (fun b fill => b.applyFill side price fill) b
    let (x, pool) ← (b.side side).maintainLevel price b.pool
    pure { b.setSide side x with pool := pool }

/-- Cancel a resting order by id. -/
def cancel (id : ℕ) : Option (Option Order × OrderBook) :=
  match b.locate[id]? with
  | none => some (none, b)
  | some slot => do
      let order ← b.pool.get slot
      guard (0 < order.remaining)
      let pool := b.pool.setRemaining slot 0
      let lv ← (b.side order.side).get order.price
      let qty ← checkedSub lv.qty order.remaining
      let live ← checkedSub lv.live 1
      let x := (b.side order.side).setLevel order.price { lv with qty := qty, live := live }
      let (x, pool) ← x.maintainLevel order.price pool
      let counts ← countUserDown b.userCounts order.user
      pure (some order, { b.setSide order.side x with
        pool := pool, locate := b.locate.erase id, userCounts := counts })

/-- Reduce a resting order's remaining quantity in place, keeping its queue position. -/
def reduce (id : ℕ) (newRemaining : ℕ) : Option (Bool × OrderBook) :=
  match b.locate[id]? with
  | none => some (false, b)
  | some slot =>
    if newRemaining = 0 then do
      let (order, b) ← b.cancel id
      pure (order.isSome, b)
    else do
      let order ← b.pool.get slot
      if order.remaining < newRemaining then pure (false, b)
      else
        let delta ← checkedSub order.remaining newRemaining
        let pool := b.pool.setRemaining slot newRemaining
        match (b.side order.side).get order.price with
        | some lv =>
          let qty ← checkedSub lv.qty delta
          let x := (b.side order.side).setLevel order.price { lv with qty := qty }
          pure (true, { b.setSide order.side x with pool := pool })
        | none => pure (true, { b with pool := pool })

/-- Every resting order in the iteration order of `locate`. -/
def iterOrders (ω : HashOrder) : Option (List Order) :=
  (ω.apply b.locate.toList).mapM fun e => b.pool.get e.2

/-- All resting order ids belonging to `user`, in the iteration order of `locate`. -/
def ordersOfUser (ω : HashOrder) (user : ℕ) : Option (List ℕ) := do
  let orders ← (ω.apply b.locate.toList).mapM fun e => (b.pool.get e.2).map (e.1, ·)
  pure ((orders.filter fun e => e.2.user = user).map Prod.fst)

/-- The book as `(price, total quantity, order count)` rows, best price first. -/
def depth (side : Side) : Option (List (ℕ × ℕ × ℕ)) :=
  let visit : List (ℕ × ℕ × ℕ) → ℕ → Level → Option (List (ℕ × ℕ × ℕ) × Bool) :=
    fun rows px lv => some (if 0 < lv.qty then rows ++ [(px, lv.qty, lv.live)] else rows, true)
  match side with
  | .buy => b.bids.walkDesc visit []
  | .sell => b.asks.walkAsc visit []

end OrderBook

end TradeCore
