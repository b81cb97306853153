import TradeCore.BookRun
import TradeCore.CrossSpec

/-!
# Running Out of Slot Numbers

Levels hold 32-bit slot numbers and count their orders in 32 bits. This module follows an
engine that only ever rests sell orders, past the point where the slot numbers wrap: the
`i`-th order is stored at position `i` of the slab but queued under the number
`i % 2 ^ 32`. The state after any number of such orders is known exactly
(`AfterSells`), which is what the boundary cases of the run theorems are built from.
-/

namespace TradeCore

open Std List
open Option hiding guard

namespace MatchingEngine

/-! ### Resting without crossing -/

/-- A good-till-cancel limit order that meets an empty side rests as it is. -/
theorem submit_rests {e : MatchingEngine} {order : Order}
    (hbest : e.book.best order.side.opposite = none) (htype : order.orderType = .limit)
    (htif : order.tif = .gtc) (hqty : 0 < order.quantity) :
    e.submit order =
      (e.book.insert { order with timestamp := wrappingAdd 64 e.seq 1
                                  remaining := order.quantity }).map fun book =>
        ({ e with book := book, seq := wrappingAdd 64 e.seq 1, stpCancelled := [] },
          { orderId := order.id, status := .resting, filled := 0, trades := []
            resting := true }) := by
  obtain ⟨id, instrument, user, side, orderType, tif, price, quantity, remaining, timestamp⟩ :=
    order
  obtain rfl : orderType = .limit := htype
  obtain rfl : tif = .gtc := htif
  have hz : quantity ≠ 0 := Nat.ne_of_gt hqty
  have hbest' : e.book.best side.opposite = none := hbest
  cases side <;>
    simp only [submit, applyBudget, bind, bind_some, fokShort, reduceCtorEq, if_false,
      Bool.false_eq_true, crossAndFinalize, cross, crossLoop, if_neg hz, crossPass, hbest',
      finalize, Nat.sub_self, Nat.lt_irrefl, Option.pure_def] <;>
    rw [map_eq_bind] <;>
    rw [bind_assoc] <;>
    rfl

/-- A run in two parts. -/
theorem run_append (e : MatchingEngine) (calls calls' : List (HashOrder × Call)) :
    e.run (calls ++ calls') = (e.run calls).bind fun r =>
      (r.1.run calls').map fun r' => (r'.1, r.2 ++ r'.2) := by
  induction calls generalizing e with
  | nil =>
    simp only [nil_append, run, bind_some]
    cases e.run calls' <;> rfl
  | cons c calls ih =>
    obtain ⟨ω, c⟩ := c
    simp only [cons_append, run, bind]
    cases e.call ω c with
    | none => rfl
    | some r =>
      simp only [bind_some, ih]
      cases r.1.run calls with
      | none => rfl
      | some r' =>
        simp only [bind_some, Option.pure_def]
        cases r'.1.run calls' <;> rfl

end MatchingEngine

/-! ### Resting sell orders -/

/-- The book with other sell orders. -/
def OrderBook.resell (b : OrderBook) (asks : LevelIndex) (pool : OrderPool)
    (locate : ExtTreeMap ℕ ℕ) : OrderBook :=
  { b with asks := asks, pool := pool, locate := locate }

/-- An insertion on the sell side for user 0. -/
theorem OrderBook.insert_sell {b : OrderBook} {o : Order} {slot : ℕ} {pool : OrderPool}
    {x : LevelIndex} (hside : o.side = .sell) (huser : o.user = 0) (hrem : 0 < o.remaining)
    (hnew : b.locate[o.id]? = none) (halloc : b.pool.alloc o = some (slot, pool))
    (hpush : b.asks.push o.price slot o.remaining = some x) :
    b.insert o = some (b.resell x pool (b.locate.insert o.id slot)) := by
  have hcond : ¬ (o.remaining = 0 ∨ o.id ∈ b.locate) := by
    rw [ExtTreeMap.mem_iff_isSome_getElem?, hnew]
    simp [hrem.ne']
  simp only [insert, tryInsert, if_neg hcond, halloc, hside, side, hpush, setSide, countUserUp,
    huser, if_true, bind, bind_some, Option.pure_def, guard]
  rfl

section Sells

variable (price : ℕ → ℕ)

/-- The `i`-th order: one lot for sale at `price i`. -/
def restingSell (i : ℕ) : Order := Order.limit (i + 1) .sell (price i) 1

/-- The `i`-th order as it rests. -/
def restedSell (i : ℕ) : Order := { restingSell price i with timestamp := i + 1 }

/-- The report of the `i`-th order. -/
def sellReport (i : ℕ) : SubmitReport where
  orderId := i + 1
  status := .resting
  filled := 0
  trades := []
  resting := true

/-- The orders `k, …, k + m - 1` are submitted. -/
def sells (k m : ℕ) : List (HashOrder × Call) :=
  (List.range' k m).map fun i => (1, .submit (restingSell price i))

/-- The orders among the first `k` that rest at `p`. -/
def sellsAt (k p : ℕ) : List ℕ := (List.range k).filter fun i => price i = p

/-- The level of the price `p` after the first `k` orders. -/
def sellLevel (k p : ℕ) : Option Level :=
  if sellsAt price k p = [] then none
  else some { orders := (sellsAt price k p).map (· % 2 ^ 32)
              qty := (sellsAt price k p).length
              live := (sellsAt price k p).length }

/-- The engine after the first `k` orders. -/
structure AfterSells (k : ℕ) (e : MatchingEngine) : Prop where
  bids : e.book.bids = LevelIndex.empty
  wf : e.book.asks.WF
  free : e.book.pool.free = []
  slots : e.book.pool.slots = (List.range k).map (restedSell price)
  level? : ∀ p, e.book.asks.level? p = sellLevel price k p
  locate : ∀ id, e.book.locate[id]? = if 0 < id ∧ id ≤ k then some ((id - 1) % 2 ^ 32) else none
  seq : e.seq = k

/-- The submissions in two parts. -/
theorem sells_append (k m m' : ℕ) :
    sells price k (m + m') = sells price k m ++ sells price (k + m) m' := by
  rw [sells, sells, sells, ← map_append, range'_append_1]

variable {price} {k : ℕ} {e : MatchingEngine}

/-- One more order at a price. -/
theorem sellsAt_succ (k p : ℕ) :
    sellsAt price (k + 1) p = sellsAt price k p ++ if price k = p then [k] else [] := by
  rw [sellsAt, range_succ, filter_append, ← sellsAt]
  by_cases h : price k = p <;> simp [h]

/-- The stored level, or the empty one. -/
theorem sellLevel_getD (k p : ℕ) :
    (sellLevel price k p).getD Level.empty =
      { orders := (sellsAt price k p).map (· % 2 ^ 32), qty := (sellsAt price k p).length
        live := (sellsAt price k p).length } := by
  rw [sellLevel]
  split
  · rename_i hnil
    rw [hnil]
    rfl
  · rfl

/-- Appending the next order to its level. -/
theorem append_sellLevel (k : ℕ) (hlive : (sellsAt price k (price k)).length + 1 < 2 ^ 32) :
    ∃ lv, ((sellLevel price k (price k)).getD Level.empty).append (k % 2 ^ 32) 1 = some lv ∧
      sellLevel price (k + 1) (price k) = some lv := by
  refine ⟨{ orders := (sellsAt price k (price k)).map (· % 2 ^ 32) ++ [k % 2 ^ 32]
            qty := (sellsAt price k (price k)).length + 1
            live := (sellsAt price k (price k)).length + 1 }, ?_, ?_⟩
  · rw [sellLevel_getD]
    simp only [Level.append, checkedAdd, bind, if_pos hlive,
      if_pos (show (sellsAt price k (price k)).length + 1 < 2 ^ 64 by omega), bind_some,
      Option.pure_def]
  · rw [sellLevel, sellsAt_succ, if_pos rfl, if_neg (by simp)]
    simp

/-- The levels of the other prices stay. -/
theorem sellLevel_succ_of_ne {k p : ℕ} (h : p ≠ price k) :
    sellLevel price (k + 1) p = sellLevel price k p := by
  rw [sellLevel, sellLevel, sellsAt_succ, if_neg (Ne.symm h), append_nil]

/-- The state that the first order finds. -/
theorem AfterSells.fresh (price : ℕ → ℕ) (strategy : Strategy) (stp : SelfTradePolicy)
    (maxOrders : ℕ) (prefault : Bool) :
    AfterSells price 0 (MatchingEngine.fresh strategy stp maxOrders prefault) where
  bids := rfl
  wf := LevelIndex.WF.empty
  free := by cases prefault <;> rfl
  slots := by cases prefault <;> rfl
  level? := fun p => LevelIndex.level?_empty p
  locate := by
    intro id
    rw [if_neg (by omega)]
    rfl
  seq := rfl

/-- A side without levels has no best price. -/
theorem best_buy_of_bids {b : OrderBook} (h : b.bids = LevelIndex.empty) : b.best .buy = none := by
  have hbest := LevelIndex.WF.empty.bestOf_maxPrice
  rw [OrderBook.best, h]
  cases hmax : LevelIndex.empty.maxPrice with
  | none => rfl
  | some p =>
    rw [hmax] at hbest
    obtain ⟨⟨lv, hlv⟩, -⟩ := hbest
    rw [LevelIndex.level?_empty] at hlv
    cases hlv

section

variable (h : AfterSells price k e)
include h

/-- The next order rests, whatever the slot number it gets. -/
theorem AfterSells.submit_eq (hk : k + 1 < 2 ^ 64) :
    e.submit (restingSell price k) =
      (e.book.insert (restedSell price k)).map fun book =>
        ({ e with book := book, seq := k + 1, stpCancelled := [] }, sellReport k) := by
  have hseq : wrappingAdd 64 e.seq 1 = k + 1 := by
    rw [h.seq, wrappingAdd, Nat.mod_eq_of_lt hk]
  have hrest := @MatchingEngine.submit_rests e (restingSell price k)
    (best_buy_of_bids h.bids) rfl rfl
    one_pos
  rw [hseq] at hrest
  exact hrest

/-- **One more order.** -/
theorem AfterSells.submit (hk : k + 1 < 2 ^ 64) (hprice : price k < 2 ^ 64)
    (hlive : (sellsAt price k (price k)).length + 1 < 2 ^ 32) :
    ∃ e', e.submit (restingSell price k) = some (e', sellReport k) ∧
      AfterSells price (k + 1) e' ∧ e'.strategy = e.strategy ∧ e'.stp = e.stp ∧
      e'.stpCancelled = [] := by
  obtain ⟨lv, happ, hlv⟩ := append_sellLevel k hlive
  rw [← h.level?] at happ
  have hpos : ∀ lv, e.book.asks.level? (price k) = some lv → 0 < lv.live := by
    intro lv hlv
    rw [h.level?, sellLevel] at hlv
    split at hlv
    · cases hlv
    · rename_i hne
      rw [← some.inj hlv]
      exact length_pos_iff_ne_nil.mpr hne
  obtain ⟨x, hpush, hwf, hlevel⟩ := h.wf.push hprice hpos one_pos happ
  have halloc : e.book.pool.alloc (restedSell price k) = some (k % 2 ^ 32,
      { e.book.pool with slots := e.book.pool.slots ++ [restedSell price k] }) := by
    have hlen : e.book.pool.slots.length = k := by rw [h.slots, length_map, length_range]
    simp only [OrderPool.alloc, h.free, hlen]
  have hins := OrderBook.insert_sell rfl rfl one_pos
    (show e.book.locate[k + 1]? = none by rw [h.locate, if_neg (by omega)]) halloc hpush
  refine ⟨_, (h.submit_eq hk).trans (congrArg _ hins), ?_, rfl, rfl, rfl⟩
  exact
    { bids := h.bids
      wf := hwf
      free := h.free
      slots := by
        rw [range_succ, map_append, ← h.slots]
        rfl
      level? := by
        intro p
        change x.level? p = _
        rw [hlevel]
        by_cases hp : p = price k
        · rw [if_pos hp, hp, hlv]
        · rw [if_neg hp, h.level?, sellLevel_succ_of_ne hp]
      locate := by
        intro id
        change (e.book.locate.insert (k + 1) (k % 2 ^ 32))[id]? = _
        rw [getElem?_insert_nat, h.locate]
        by_cases hid : id = k + 1
        · rw [if_pos hid, if_pos (by omega), hid, Nat.add_sub_cancel]
        · rw [if_neg hid]
          congr 1
          exact propext ⟨fun hc => ⟨hc.1, by omega⟩, fun hc => ⟨hc.1, by omega⟩⟩
      seq := rfl }

/-- The order that would make the live counter of its level wrap aborts. -/
theorem AfterSells.submit_abort (hk : k + 1 < 2 ^ 64) (hprice : price k < 2 ^ 64)
    (hlive : ¬ (sellsAt price k (price k)).length + 1 < 2 ^ 32) :
    e.submit (restingSell price k) = none := by
  have hpush : ∀ slot, e.book.asks.push (price k) slot 1 = none := by
    intro slot
    refine h.wf.push_eq_none hprice ?_
    rw [h.level?, sellLevel_getD]
    simp only [Level.append, checkedAdd, if_neg hlive, bind]
    split <;> rfl
  rw [h.submit_eq hk]
  have hfresh : k + 1 ∉ e.book.locate := by
    rw [ExtTreeMap.mem_iff_isSome_getElem?, h.locate, if_neg (by omega)]
    exact Bool.false_ne_true
  have hcond : ¬ ((restedSell price k).remaining = 0 ∨
      (restedSell price k).id ∈ e.book.locate) :=
    not_or.mpr ⟨one_ne_zero, hfresh⟩
  simp only [OrderBook.insert, OrderBook.tryInsert, if_neg hcond, bind]
  cases e.book.pool.alloc (restedSell price k) with
  | none => rfl
  | some r =>
    simp only [bind_some]
    rw [show (e.book.side (restedSell price k).side).push (restedSell price k).price r.1
      (restedSell price k).remaining = none from hpush r.1]
    rfl

/-- **A whole run of resting orders.** -/
theorem AfterSells.run {m : ℕ} (hm : k + m < 2 ^ 64)
    (hprice : ∀ i, k ≤ i → i < k + m → price i < 2 ^ 64)
    (hlive : ∀ i, k ≤ i → i < k + m → (sellsAt price i (price i)).length + 1 < 2 ^ 32) :
    ∃ e', e.run (sells price k m) =
        some (e', (List.range' k m).map fun i => .submitted (sellReport i)) ∧
      AfterSells price (k + m) e' ∧ e'.strategy = e.strategy ∧ e'.stp = e.stp := by
  induction m generalizing k e with
  | zero => exact ⟨e, rfl, h, rfl, rfl⟩
  | succ m ih =>
    obtain ⟨e₁, hsubmit, h₁, hstrat, hstp, -⟩ := h.submit (by omega)
      (hprice k le_rfl (by omega)) (hlive k le_rfl (by omega))
    obtain ⟨e', hrun, h', hstrat', hstp'⟩ := ih h₁ (by omega)
      (fun i hi hlt => hprice i (by omega) (by omega))
      (fun i hi hlt => hlive i (by omega) (by omega))
    refine ⟨e', ?_, by rw [← add_assoc, add_right_comm]; exact h',
      hstrat'.trans hstrat, hstp'.trans hstp⟩
    rw [sells, range'_succ, map_cons, MatchingEngine.run, MatchingEngine.call, hsubmit]
    simp only [map_some, bind, bind_some]
    rw [show (List.range' (k + 1) m).map (fun i => (1, Call.submit (restingSell price i))) =
      sells price (k + 1) m from rfl, hrun]
    rfl

/-- **What the queues show**: the order `i` is queued under the slot of order
`i % 2 ^ 32`. -/
theorem AfterSells.queue_sell (p : ℕ) :
    e.book.queue .sell p = (sellsAt price k p).map fun i => restedSell price (i % 2 ^ 32) := by
  have hslots : e.book.queueSlots .sell p = (sellsAt price k p).map (· % 2 ^ 32) := by
    rw [OrderBook.queueSlots, show (e.book.side .sell).level? p = sellLevel price k p from
      h.level? p, sellLevel]
    split
    · rename_i hnil
      rw [hnil]
      rfl
    · rfl
  have hget : ∀ i ∈ sellsAt price k p, (e.book.pool.get (i % 2 ^ 32)).filter
      (fun o => 0 < o.remaining) = some (restedSell price (i % 2 ^ 32)) := by
    intro i hi
    have hlt : i < k := mem_range.mp (mem_of_mem_filter hi)
    have hmod : i % 2 ^ 32 < k := Nat.lt_of_le_of_lt (Nat.mod_le _ _) hlt
    rw [OrderPool.get, h.slots, getElem?_map, getElem?_range hmod]
    rfl
  rw [OrderBook.queue, hslots, OrderBook.liveOrders, filterMap_map, ← filterMap_eq_map]
  exact filterMap_congr hget

end

/-- A price that one order has. -/
theorem sellsAt_eq_singleton {p j : ℕ} (hj : j < k) (h : ∀ i < k, price i = p ↔ i = j) :
    sellsAt price k p = [j] := by
  have hfilter : sellsAt price k p = (List.range k).filter fun i => i = j := by
    refine filter_congr fun i hi => ?_
    rw [decide_eq_decide]
    exact h i (mem_range.mp hi)
  rw [hfilter, filter_eq, count_eq_one_of_mem nodup_range (mem_range.mpr hj)]
  rfl

/-- Distinct prices put every order on a level of its own. -/
theorem sellsAt_eq_nil {p : ℕ} (h : ∀ i < k, price i ≠ p) : sellsAt price k p = [] := by
  refine filter_eq_nil_iff.mpr fun i hi => ?_
  simpa using h i (mem_range.mp hi)

end Sells

/-! ### Moving a resting sell order -/

/-- An engine that holds sell orders only and has no free slot. -/
structure SellBook (slots : List Order) (levels : ℕ → Option Level) (loc : ℕ → Option ℕ)
    (e : MatchingEngine) : Prop where
  bids : e.book.bids = LevelIndex.empty
  wf : e.book.asks.WF
  free : e.book.pool.free = []
  slots_eq : e.book.pool.slots = slots
  level?_eq : ∀ p, e.book.asks.level? p = levels p
  locate_eq : ∀ id, e.book.locate[id]? = loc id

/-- The state after resting orders is such an engine. -/
theorem AfterSells.sellBook {price : ℕ → ℕ} {k : ℕ} {e : MatchingEngine}
    (h : AfterSells price k e) :
    SellBook ((List.range k).map (restedSell price)) (sellLevel price k)
      (fun id => if 0 < id ∧ id ≤ k then some ((id - 1) % 2 ^ 32) else none) e :=
  ⟨h.bids, h.wf, h.free, h.slots, h.level?, h.locate⟩

namespace SellBook

variable {slots : List Order} {levels : ℕ → Option Level} {loc : ℕ → Option ℕ}
  {e : MatchingEngine}

variable (h : SellBook slots levels loc e)
include h

theorem get_slot {s : ℕ} {o : Order} (hslot : slots[s]? = some o) : e.book.pool.get s = some o := by
  rw [OrderPool.get, h.slots_eq, hslot]

theorem index (s : Side) : (e.book.side s).WF := by
  cases s with
  | buy =>
    rw [OrderBook.side, h.bids]
    exact LevelIndex.WF.empty
  | sell => exact h.wf

/-- The orders can be shrunk. -/
theorem shrinkable {s r : ℕ} {o : Order} {lv : Level} (hloc : loc o.id = some s)
    (hslot : slots[s]? = some o) (hside : o.side = .sell) (huser : o.user = 0)
    (hpos : 0 < o.remaining) (hlevel : levels o.price = some lv) (hr : r ≤ o.remaining)
    (hqty : o.remaining - r ≤ lv.qty) (hlive : 0 < lv.live) :
    e.book.Shrinkable o.id s o lv r e.book.userCounts where
  located := by rw [h.locate_eq, hloc]
  record := h.get_slot hslot
  pos := hpos
  le := hr
  level := by
    have hlv : e.book.asks.level? o.price = some lv := by rw [h.level?_eq, hlevel]
    simp [hside, OrderBook.side, LevelIndex.get, hlv, hlive]
  qty := hqty
  live := fun _ => hlive
  counted := fun _ => if_pos huser

/-- Cancelling the only order of a level frees its slot. -/
theorem cancel {s : ℕ} {o : Order} (hloc : loc o.id = some s) (hslot : slots[s]? = some o)
    (hside : o.side = .sell) (huser : o.user = 0) (hpos : 0 < o.remaining)
    (hlevel : levels o.price = some ⟨[s], o.remaining, 1⟩) :
    ∃ b, e.book.cancel o.id = some (some o, b) ∧ b.bids = LevelIndex.empty ∧ b.asks.WF ∧
      b.pool = ⟨slots.set s { o with remaining := 0 }, [s]⟩ ∧
      (∀ p, b.asks.level? p = if p = o.price then none else levels p) ∧
      b.locate = e.book.locate.erase o.id := by
  have hs := @shrinkable _ _ _ _ h s 0 o _ hloc hslot hside huser hpos hlevel (Nat.zero_le _)
    le_rfl one_pos
  have hpool : (e.book.shrinkAs o.id s o ⟨[s], o.remaining, 1⟩ 0 e.book.userCounts).pool =
      ⟨slots.set s { o with remaining := 0 }, []⟩ := by
    have hslots := @OrderBook.shrink_slots e.book s 0 o ⟨[s], o.remaining, 1⟩ e.book.userCounts
      hs.record
    rw [h.slots_eq] at hslots
    rw [← hslots, ← h.free]
    rfl
  have hreclaim : Level.reclaim ⟨[s], o.remaining - (o.remaining - 0), 0⟩
      ⟨slots.set s { o with remaining := 0 }, []⟩ =
        some (⟨[], 0, 0⟩, ⟨slots.set s { o with remaining := 0 }, [s]⟩) := by
    simp [Level.reclaim, Level.trimFront, OrderPool.get, OrderPool.release,
      (List.getElem?_eq_some_iff.mp hslot).1]
  have hrel := hs.relevels h.index
  rw [← hpool] at hreclaim
  obtain ⟨b, hb, hrec⟩ := OrderBook.maintain_of_reclaim hrel.index
    ((hrel.level? _ _).trans (if_pos ⟨rfl, rfl⟩)) hreclaim
  refine ⟨b, by rw [hs.cancel_eq, hb]; rfl, ?_, hrec.relevels.index .sell, ?_, fun p => ?_,
    hrec.locate⟩
  · -- maintenance of a level of the sell side
    simp only [OrderBook.maintain, hside, bind, bind_eq_some_iff, Option.pure_def, some.injEq] at hb
    obtain ⟨r, -, rfl⟩ := hb
    simp [OrderBook.shrinkAs, OrderBook.shrink, OrderBook.setSide, hside, h.bids]
  · exact (Prod.mk.inj (some.inj (hrec.reclaim.symm.trans hreclaim))).2
  · have hlevels : b.asks.level? p = _ := hrec.relevels.level? .sell p
    rw [hrel.level?, hside] at hlevels
    by_cases hp : p = o.price
    · simpa [hp] using hlevels
    · simpa [hp, OrderBook.side, h.level?_eq] using hlevels

/-- **Moving the only order of a level** to another level puts its slot at the back there. -/
theorem requote {id s newPrice newQty : ℕ} {o : Order} {lv : Level} (hloc : loc id = some s)
    (hslot : slots[s]? = some o) (hid : o.id = id) (hside : o.side = .sell)
    (hlimit : o.orderType = .limit) (huser : o.user = 0) (hpos : 0 < o.remaining)
    (hlevel : levels o.price = some ⟨[s], o.remaining, 1⟩) (hne : newPrice ≠ o.price)
    (hprice : newPrice < 2 ^ 64) (hlv : levels newPrice = some lv) (hlive : 0 < lv.live)
    (hnew : 0 < newQty) (hqty : lv.qty + newQty < 2 ^ 64) (hcount : lv.live + 1 < 2 ^ 32) :
    ∃ e' o' report, e.modify id newPrice newQty = some (e', .requoted report) ∧
      report.resting = true ∧ e'.strategy = e.strategy ∧ e'.stp = e.stp ∧
      (o'.id = id ∧ o'.side = .sell ∧ o'.price = newPrice ∧ o'.remaining = newQty ∧
        o'.user = 0) ∧
      SellBook (slots.set s o')
        (fun p => if p = newPrice then some ⟨lv.orders ++ [s], lv.qty + newQty, lv.live + 1⟩
          else if p = o.price then none else levels p) loc e' := by
  subst hid
  obtain ⟨b, hcancel, hbids, hwf, hpool, hlevels, hlocate⟩ :=
    h.cancel hloc hslot hside huser hpos hlevel
  -- the level that the order joins
  have hx : b.asks.level? newPrice = some lv := by rw [hlevels, if_neg hne, hlv]
  have happ : ((b.asks.level? newPrice).getD Level.empty).append s newQty =
      some ⟨lv.orders ++ [s], lv.qty + newQty, lv.live + 1⟩ := by
    rw [hx, getD_some, Level.append, checkedAdd, checkedAdd, if_pos hqty, if_pos hcount]
    rfl
  obtain ⟨x, hpush, hwf', hlevels'⟩ := hwf.push hprice (fun lv' hlv' => by
    rw [hx] at hlv'
    rwa [← some.inj hlv']) hnew happ
  have hfresh : b.locate[o.id]? = none := by rw [hlocate, getElem?_erase_nat, if_pos rfl]
  have halloc : ∀ o' : Order, b.pool.alloc o' = some (s, ⟨slots.set s o', []⟩) := by
    simp [hpool, OrderPool.alloc, (List.getElem?_eq_some_iff.mp hslot).1]
  have hmodify : e.modify o.id newPrice newQty = (MatchingEngine.submit { e with book := b }
      { o with price := newPrice, quantity := newQty, remaining := newQty, tif := .gtc }).map
        fun r => (r.1, .requoted r.2) := by
    have hmoved : ¬ (newPrice = o.price ∧ newQty ≤ o.remaining) := fun hc => hne hc.1
    simp only [MatchingEngine.modify, h.locate_eq, hloc, bind, h.get_slot hslot, bind_some,
      if_neg hmoved, hcancel, Option.pure_def]
    rw [map_eq_bind]
    rfl
  rw [@MatchingEngine.submit_rests { e with book := b }
    { o with price := newPrice, quantity := newQty, remaining := newQty, tif := .gtc }
    (by rw [hside]; exact best_buy_of_bids hbids) hlimit rfl hnew] at hmodify
  simp only at hmodify
  rw [@OrderBook.insert_sell b { o with
    price := newPrice, quantity := newQty, remaining := newQty, tif := .gtc
    timestamp := wrappingAdd 64 e.seq 1 } s _ x hside huser hnew hfresh (halloc _) hpush,
    map_some, map_some] at hmodify
  refine ⟨_, { o with
    price := newPrice, quantity := newQty, remaining := newQty, tif := .gtc
    timestamp := wrappingAdd 64 e.seq 1 }, _, hmodify, rfl, rfl, rfl,
    ⟨rfl, hside, rfl, rfl, huser⟩, hbids, hwf', rfl, rfl, fun p => ?_, fun id => ?_⟩
  · rw [← hlevels]
    exact hlevels' p
  · change (b.locate.insert o.id s)[id]? = loc id
    rw [getElem?_insert_nat, hlocate, getElem?_erase_nat, h.locate_eq]
    by_cases hid : id = o.id
    · rw [if_pos hid, hid, hloc]
    · rw [if_neg hid, if_neg hid]

/-- The best ask. -/
theorem best_sell {px : ℕ} {lv : Level} (hlevel : levels px = some lv)
    (hbest : ∀ p lv, levels p = some lv → px ≤ p) : e.book.best .sell = some px := by
  refine BestOf.unique (r := (· ≤ ·)) (fun p q => Nat.le_antisymm) h.wf.bestOf_minPrice
    ⟨⟨lv, by rw [h.level?_eq, hlevel]⟩, ?_⟩
  rintro q ⟨lv', hlv'⟩
  exact hbest q lv' (by rw [← h.level?_eq, hlv'])

/-- Reading a level whose front is live changes nothing. -/
theorem levelViewCapped {px s : ℕ} {more : List ℕ} {o : Order} {qty live : ℕ}
    (hlevel : levels px = some ⟨s :: more, qty, live + 1⟩) (hlen : more.length + 1 < 1024)
    (hslot : slots[s]? = some o) (hpos : 0 < o.remaining) :
    ∃ x, (∀ cap, e.book.levelViewCapped .sell px cap =
        (OrderBook.viewCapped e.book.pool cap 0 (s :: more)).map
          fun view => (view, e.book.resell x e.book.pool e.book.locate)) ∧
      x.WF ∧ ∀ p, x.level? p = levels p := by
  have hlv := h.level?_eq px
  rw [hlevel] at hlv
  have hget := h.get_slot hslot
  have hshort : ¬ (Level.compactMinSlots ≤ (s :: more).length ∧
      min ((live + 1) * 2) priceMax < (s :: more).length) := by
    simp only [Level.compactMinSlots, length_cons]
    omega
  have hreclaim : Level.reclaim ⟨s :: more, qty, live + 1⟩ e.book.pool =
      some (⟨s :: more, qty, live + 1⟩, e.book.pool) := by
    simp only [Level.reclaim, Level.trimFront, hget, bind, bind_some, hpos.ne', ne_eq,
      one_ne_zero, not_false_eq_true, if_true, Option.pure_def, Nat.add_eq_zero_iff, and_false,
      if_false, if_neg hshort]
  obtain ⟨x, hx, hwf, hlevels⟩ := h.wf.maintainLevel hlv hreclaim
  have hsame : ∀ p, x.level? p = levels p := by
    intro p
    rw [hlevels, h.level?_eq]
    by_cases hp : p = px
    · rw [if_pos hp, if_neg (Nat.succ_ne_zero _), hp, hlevel]
    · rw [if_neg hp]
  refine ⟨x, ?_, hwf, hsame⟩
  have hxget : x.get px = some ⟨s :: more, qty, live + 1⟩ := by
    simp [LevelIndex.get, hsame, hlevel]
  intro cap
  simp only [OrderBook.levelViewCapped, OrderBook.side, hx, bind, bind_some, hxget,
    Option.pure_def, map_eq_bind]
  rfl

/-- One lot of an order can be filled. -/
theorem exists_applyFills {s : ℕ} {o : Order} {lv : Level} (hloc : loc o.id = some s)
    (hslot : slots[s]? = some o) (hside : o.side = .sell) (huser : o.user = 0)
    (hpos : 0 < o.remaining) (hlevel : levels o.price = some lv) (hqty : 0 < lv.qty)
    (hlive : 0 < lv.live) (hbound : ∀ i ∈ lv.orders, i < slots.length) :
    ∃ book, e.book.applyFills .sell o.price [(o.id, 1)] = some book := by
  have hs := @shrinkable _ _ _ _ h s (o.remaining - 1) o _ hloc hslot hside huser hpos hlevel
    (Nat.sub_le _ _) (by omega) hlive
  have hfill := hs.applyFill_eq (by omega)
  have hrel := hs.relevels h.index
  have hlen : (e.book.shrinkAs o.id s o lv (o.remaining - 1) e.book.userCounts).pool.slots.length =
      slots.length := by
    simp [OrderBook.shrinkAs, OrderBook.shrink, OrderPool.setRemaining, h.slots_eq]
  obtain ⟨r, hr⟩ := @Level.exists_reclaim
    (e.book.shrinkAs o.id s o lv (o.remaining - 1) e.book.userCounts).pool
    { lv with qty := lv.qty - (o.remaining - (o.remaining - 1))
              live := if o.remaining - 1 = 0 then lv.live - 1 else lv.live }
    fun i hi => hlen ▸ hbound i hi
  obtain ⟨b, hb, -⟩ := OrderBook.maintain_of_reclaim hrel.index
    ((hrel.level? _ _).trans (if_pos ⟨rfl, rfl⟩)) hr
  refine ⟨b, ?_⟩
  rw [show o.remaining - (o.remaining - 1) = 1 by omega, hside] at hfill
  rw [hside, OrderBook.maintain] at hb
  have hget := hs.level
  rw [hside] at hget
  simp only [OrderBook.applyFills, cons_ne_nil, if_false, hget, isSome_some, guard, if_true,
    bind, bind_some, foldlM_cons, foldlM_nil, hfill, Option.pure_def]
  exact hb

/-- **A bid for one lot** at the best price takes it from the front of the level. -/
theorem crossPass_front {px s : ℕ} {more : List ℕ} {o : Order} {qty live : ℕ} (seq : ℕ)
    (order : Order) (hlevel : levels px = some ⟨s :: more, qty + 1, live + 1⟩)
    (hbest : ∀ p lv, levels p = some lv → px ≤ p) (hlen : more.length + 1 < 1024)
    (hbound : ∀ i ∈ s :: more, i < slots.length) (hslot : slots[s]? = some o)
    (hside : o.side = .sell) (hprice : o.price = px) (hpos : 0 < o.remaining)
    (hrem : o.remaining < 2 ^ 64) (huser : o.user = 0) (hloc : loc o.id = some s)
    (hpx : px < 2 ^ 64) (hbuy : order.side = .buy) (htype : order.orderType = .limit)
    (hlimit : order.price = px) (hone : order.remaining = 1) :
    ∃ c t, crossPass .priceTimePriority .allow seq ⟨e.book, order, [], 2 ^ 128 - 1, []⟩ =
        some (.continue, c) ∧ c.order = { order with remaining := 0 } ∧ c.trades = [t] ∧
      t.maker = o.id ∧ t.price = px := by
  obtain ⟨x, hview, hwf, hlevels⟩ := h.levelViewCapped hlevel hlen hslot hpos
  obtain ⟨book, hbook⟩ := @exists_applyFills slots levels loc
    { e with book := e.book.resell x e.book.pool e.book.locate }
    ⟨h.bids, hwf, h.free, h.slots_eq, hlevels, h.locate_eq⟩ s o _ hloc hslot hside huser hpos
    (hprice ▸ hlevel) (Nat.succ_pos _) (Nat.succ_pos _) hbound
  rw [hprice] at hbook
  have hfront : OrderBook.viewCapped e.book.pool 1 0 (s :: more) = some [o.toResting] := by
    have hget := h.get_slot hslot
    have hcap : 1 ≤ 0 + o.remaining := by omega
    simp only [OrderBook.viewCapped, hget, bind, bind_some, if_neg hpos.ne', checkedAdd,
      if_pos (show 0 + o.remaining < 2 ^ 64 by omega), if_pos hcap, Option.pure_def]
  have hallocs : Strategy.priceTimePriority.allocate [o.toResting] 1 = [⟨o.id, 1, 0⟩] := by
    have hmin : min 1 o.remaining = 1 := by omega
    simp [Strategy.allocate, priceTimeFrom, Order.toResting, hmin]
  have hlots : affordable (2 ^ 128 - 1) order.remaining px = 1 := by
    rw [hone]
    exact affordable_of_le (by norm_num) hpx
  have hfill := @crossFill_eq .priceTimePriority seq 1
    ⟨e.book.resell x e.book.pool e.book.locate, order, [], 2 ^ 128 - 1, []⟩ px [o.toResting]
    book (fun r hr => by
      rw [mem_singleton.mp hr]
      exact hpos)
    (by simpa [viewTotal, Order.toResting] using hrem) (by simp) (cons_ne_nil _ _)
    one_pos (by
      rw [hallocs, hbuy]
      exact hbook)
  rw [hallocs] at hfill
  have hcross : crossable order px = true := by
    simp [crossable, htype, hbuy, hlimit]
  have hopp : order.side.opposite = .sell := by rw [hbuy]; rfl
  have hown : ¬ ownInView .allow order [o.toResting] := fun hc => hc.1 rfl
  have hpass : crossPass .priceTimePriority .allow seq ⟨e.book, order, [], 2 ^ 128 - 1, []⟩ =
      crossFill .priceTimePriority seq px 1 [o.toResting]
        ⟨e.book.resell x e.book.pool e.book.locate, order, [], 2 ^ 128 - 1, []⟩ := by
    simp only [crossPass, hopp, h.best_sell hlevel hbest, hcross, Bool.true_eq_false, if_false,
      hlots, one_ne_zero, levelViewFor, Strategy.fullLevelRequired, Bool.false_eq_true, hview,
      hfront, map_some, bind, bind_some]
    unfold crossLevel
    rw [if_neg hown, if_neg (cons_ne_nil _ _)]
  refine ⟨_, tradeOf seq order px [o.toResting] ⟨o.id, 1, 0⟩, hpass.trans hfill, ?_, rfl, rfl, rfl⟩
  simp [Cross.filled, hone]

end SellBook

end TradeCore
