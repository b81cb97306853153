import TradeCore.Types
import TradeCore.Lib.BitScan

/-!
# The Price-Level Index

`LevelIndex` and the order pool it reclaims into (`book.rs`). One side of the book maps
each price to a time-ordered queue of pool slots. Prices inside a window of `1024` ticks
live in a dense array with a two-level occupancy bitmap; every other price lives in an
ordered map. The window is centred by the first insertion and never moves.

`none` is an abort of the process: an `assert!`, an `expect`, or an index out of bounds.
The `debug_assert!`s are absent from the release profile and from the model.
-/

namespace TradeCore

open Std

/-! ### The order pool -/

/-- A slab of order slots with a free list, whose top is the head of `free`. -/
structure OrderPool where
  slots : List Order
  free : List ℕ

namespace OrderPool

/-- Reserve `capacity` slots; `prefault` touches them and then empties the slab. -/
def withCapacity (capacity : ℕ) (prefault : Bool) : OrderPool where
  slots :=
    if prefault then (List.replicate capacity (Order.limit 0 .buy 0 0)).take 0 else []
  free := []

/-- Store an order in a recycled slot, or in a new one whose index is cast to `u32`. -/
def alloc (pool : OrderPool) (order : Order) : Option (ℕ × OrderPool) :=
  match pool.free with
  | i :: free =>
    if i < pool.slots.length then
      some (i, { slots := pool.slots.set i order, free := free })
    else none
  | [] =>
    some (pool.slots.length % 2 ^ 32, { pool with slots := pool.slots ++ [order] })

/-- Hand a slot back to the free list. -/
def release (pool : OrderPool) (slot : ℕ) : OrderPool :=
  { pool with free := slot :: pool.free }

/-- The order in a slot. -/
def get (pool : OrderPool) (slot : ℕ) : Option Order :=
  pool.slots[slot]?

/-- Overwrite the remaining quantity of the order in a slot. -/
def setRemaining (pool : OrderPool) (slot : ℕ) (remaining : ℕ) : OrderPool :=
  { pool with
    slots := pool.slots.modify slot fun order => { order with remaining := remaining } }

end OrderPool

/-! ### One level -/

/-- One price level: time-ordered slots with their running aggregates. The queue may
hold tombstones (slots of orders without remaining quantity) awaiting reclaim. -/
structure Level where
  orders : List ℕ
  qty : ℕ
  live : ℕ
deriving DecidableEq, Repr

namespace Level

/-- `Level::default()`. -/
def empty : Level where
  orders := []
  qty := 0
  live := 0

/-- Append a live order of `remaining` lots and update the aggregates. -/
def append (lv : Level) (slot : ℕ) (remaining : ℕ) : Option Level := do
  let qty ← checkedAdd 64 lv.qty remaining
  let live ← checkedAdd 32 lv.live 1
  pure { orders := lv.orders ++ [slot], qty := qty, live := live }

/-- The front loop of `reclaim`: pop and release tombstones until a live order heads
the queue. -/
def trimFront (pool : OrderPool) : List ℕ → Option (List ℕ × OrderPool)
  | [] => some ([], pool)
  | front :: rest => do
      let order ← pool.get front
      if order.remaining ≠ 0 then pure (front :: rest, pool)
      else trimFront (pool.release front) rest

/-- `retain` with a release of every dead slot. -/
def compact (pool : OrderPool) : List ℕ → Option (List ℕ × OrderPool)
  | [] => some ([], pool)
  | slot :: rest => do
      let order ← pool.get slot
      if order.remaining = 0 then compact (pool.release slot) rest
      else
        let (kept, pool) ← compact pool rest
        pure (slot :: kept, pool)

/-- Queues below this length are never compacted. -/
def compactMinSlots : ℕ := 1024

/-- `reclaim`: trim the front, drain a level without live orders, and compact a long
queue in which tombstones dominate. -/
def reclaim (lv : Level) (pool : OrderPool) : Option (Level × OrderPool) := do
  let (orders, pool) ← trimFront pool lv.orders
  if lv.live = 0 then
    pure ({ orders := [], qty := 0, live := lv.live }, orders.foldl OrderPool.release pool)
  else if compactMinSlots ≤ orders.length ∧ min (lv.live * 2) priceMax < orders.length then
    let (kept, pool) ← compact pool orders
    pure ({ lv with orders := kept }, pool)
  else
    pure ({ lv with orders := orders }, pool)

end Level

/-! ### The index -/

/-- Ticks covered by the dense window. -/
def window : ℕ := 1024

/-- Words of the occupancy bitmap. -/
def wWords : ℕ := 16

/-- A price-level index: dense window with a two-level bitmap, and an overflow map. -/
structure LevelIndex where
  /-- Window start price; `priceMax` until the first insertion centres it. -/
  base : ℕ
  /-- Dense per-tick levels, allocated by the first insertion. -/
  levels : List (Option Level)
  /-- Logical occupancy bitmap. -/
  l0 : Vector (BitVec 64) wWords
  /-- Summary bitmap of the words of `l0`. -/
  l1 : Vector (BitVec 64) 1
  /-- Occupied levels inside the window. -/
  inWindow : ℕ
  /-- Levels outside the window. -/
  overflow : ExtTreeMap ℕ Level

namespace LevelIndex

/-- `LevelIndex::default()`. -/
def empty : LevelIndex where
  base := priceMax
  levels := []
  l0 := Vector.replicate wWords 0
  l1 := Vector.replicate 1 0
  inWindow := 0
  overflow := ∅

variable (x : LevelIndex)

/-- The window position of a price, if the window covers it. -/
def idx (price : ℕ) : Option (Fin window) :=
  if x.base = priceMax ∨ price < x.base then none
  else if h : price - x.base < window then some ⟨price - x.base, h⟩
  else none

/-- The bitmap word that holds the bit of window position `i`. -/
def wordOf (i : Fin window) : Fin wWords :=
  ⟨i / 64, by have := i.isLt; simp only [window] at this; simp only [wWords]; omega⟩

/-- One word of the occupancy bitmap. -/
abbrev word (w : Fin wWords) : BitVec 64 := x.l0[w]

/-- The summary bitmap: which words of the occupancy bitmap are non-zero. -/
abbrev summary : BitVec 64 := x.l1[0]

/-- Whether the occupancy bit of position `i` is set. -/
def bit (i : Fin window) : Bool :=
  ((x.l0[wordOf i] >>> (i.val % 64)) &&& 1) == 1

/-- Set the occupancy bit of position `i` and the summary bit of its word. -/
def setBit (i : Fin window) : LevelIndex :=
  { x with
    l0 := x.l0.set (wordOf i) (x.l0[wordOf i] ||| BitVec.twoPow 64 (i.val % 64))
    l1 := x.l1.set 0 (x.l1[0] ||| BitVec.twoPow 64 (i.val / 64 % 64)) }

/-- Clear the occupancy bit of position `i`, and the summary bit with the last bit of
its word. -/
def clearBit (i : Fin window) : LevelIndex :=
  let word := x.l0[wordOf i] &&& ~~~(BitVec.twoPow 64 (i.val % 64))
  { x with
    l0 := x.l0.set (wordOf i) word
    l1 :=
      if word = 0 then x.l1.set 0 (x.l1[0] &&& ~~~(BitVec.twoPow 64 (i.val / 64 % 64)))
      else x.l1 }

/-- Centre the window on the first price seen. -/
def centre (price : ℕ) : LevelIndex :=
  if x.base = priceMax then
    { x with
      base := price - window / 2
      levels := (x.levels ++ List.replicate (window - x.levels.length) none).take window }
  else x

/-- Append `slot`, a live order of `remaining` lots, to the level at `price`. -/
def push (price : ℕ) (slot : ℕ) (remaining : ℕ) : Option LevelIndex := do
  guard (0 < remaining)
  let x := x.centre price
  match x.idx price with
  | some i =>
    let cur ← x.levels[i.val]?
    let x ←
      if (cur.getD Level.empty).live = 0 then do
        let inWindow ← checkedAdd 64 x.inWindow 1
        pure { x.setBit i with inWindow := inWindow }
      else pure x
    let lv ← (cur.getD Level.empty).append slot remaining
    pure { x with levels := x.levels.set i (some lv) }
  | none =>
    let lv ← (x.overflow[price]?.getD Level.empty).append slot remaining
    pure { x with overflow := x.overflow.insert price lv }

/-- The level stored for `price`, empty or not. -/
def level? (price : ℕ) : Option Level :=
  match x.idx price with
  | some i => (x.levels[i.val]?).join
  | none => x.overflow[price]?

/-- The logically non-empty level at `price`. -/
def get (price : ℕ) : Option Level :=
  (x.level? price).filter fun lv => 0 < lv.live

/-- Write a level back through the reference that `get_mut` hands out. -/
def setLevel (price : ℕ) (lv : Level) : LevelIndex :=
  match x.idx price with
  | some i => { x with levels := x.levels.set i (some lv) }
  | none => { x with overflow := x.overflow.insert price lv }

/-- Reclaim dead slots at `price` and make the logical occupancy match `live`. -/
def maintainLevel (price : ℕ) (pool : OrderPool) : Option (LevelIndex × OrderPool) :=
  match x.idx price with
  | some i => do
      match ← x.levels[i.val]? with
      | none => pure (x, pool)
      | some lv =>
        let (lv, pool) ← lv.reclaim pool
        let x := { x with levels := x.levels.set i (some lv) }
        if lv.live = 0 ∧ x.bit i then
          let inWindow ← checkedSub x.inWindow 1
          pure ({ x.clearBit i with inWindow := inWindow, levels := x.levels.set i none },
            pool)
        else pure (x, pool)
  | none =>
    match x.overflow[price]? with
    | none => some (x, pool)
    | some lv => do
        let (lv, pool) ← lv.reclaim pool
        if lv.live = 0 then pure ({ x with overflow := x.overflow.erase price }, pool)
        else pure ({ x with overflow := x.overflow.insert price lv }, pool)

/-! ### Best prices -/

/-- Lowest occupied window position, by two bit scans. -/
def windowMin : Option ℕ :=
  if x.l1[0] ≠ 0 then
    let w := x.l1[0].ctz.toNat
    (x.l0[w]?).map fun word => w * 64 + word.ctz.toNat
  else none

/-- Highest occupied window position. -/
def windowMax : Option ℕ :=
  if x.l1[0] ≠ 0 then
    let w := 63 - x.l1[0].clz.toNat
    (x.l0[w]?).map fun word => w * 64 + 63 - word.clz.toNat
  else none

/-- Lowest occupied price across window and overflow. -/
def minPrice : Option ℕ :=
  let w := x.windowMin.bind fun i => checkedAdd 64 x.base i
  let o := x.overflow.keys.head?
  match w, o with
  | some a, some b => some (min a b)
  | a, b => a.or b

/-- Highest occupied price across window and overflow. -/
def maxPrice : Option ℕ :=
  let w := x.windowMax.bind fun i => checkedAdd 64 x.base i
  let o := x.overflow.keys.getLast?
  match w, o with
  | some a, some b => some (max a b)
  | a, b => a.or b

/-! ### Walks -/

/-- The window level at position `i` with its price; `none` where one of the two
`expect`s of the walk aborts. -/
def windowEntry (i : ℕ) : Option (ℕ × Level) := do
  let price ← checkedAdd 64 x.base i
  let lv ← (x.levels[i]?).join
  pure (price, lv)

/-- Overflow levels below the window. -/
def below : List (Option (ℕ × Level)) :=
  (x.overflow.toList.filter fun e => e.1 < x.base).map some

/-- Overflow levels above the window, if it does not reach the end of the price range. -/
def above : List (Option (ℕ × Level)) :=
  (checkedAdd 64 x.base window).elim [] fun windowEnd =>
    (x.overflow.toList.filter fun e => windowEnd ≤ e.1).map some

/-- What `walk_asc` visits, in order. -/
def entriesAsc : List (Option (ℕ × Level)) :=
  x.below ++
  (List.finRange wWords).flatMap (fun w =>
    (BitScan.scanAsc 64 x.l0[w]).map fun i => x.windowEntry (w.val * 64 + i)) ++
  x.above

/-- What `walk_desc` visits, in order. -/
def entriesDesc : List (Option (ℕ × Level)) :=
  x.above.reverse ++
  (List.finRange wWords).reverse.flatMap (fun w =>
    (BitScan.scanDesc 64 x.l0[w]).map fun i => x.windowEntry (w.val * 64 + i)) ++
  x.below.reverse

/-- The visiting loop of both walks: `f` updates the captured state and says whether to
go on; `none` is an abort, of the walk or of `f`. -/
def walk {σ : Type} (f : σ → ℕ → Level → Option (σ × Bool)) :
    List (Option (ℕ × Level)) → σ → Option σ
  | [], s => some s
  | none :: _, _ => none
  | some (px, lv) :: rest, s => do
      let (s, more) ← f s px lv
      if more then walk f rest s else pure s

/-- Visit occupied levels in ascending price order until `f` says to stop. -/
def walkAsc {σ : Type} (x : LevelIndex) (f : σ → ℕ → Level → Option (σ × Bool))
    (s : σ) : Option σ :=
  walk f x.entriesAsc s

/-- Visit occupied levels in descending price order until `f` says to stop. -/
def walkDesc {σ : Type} (x : LevelIndex) (f : σ → ℕ → Level → Option (σ × Bool))
    (s : σ) : Option σ :=
  walk f x.entriesDesc s

end LevelIndex

end TradeCore
