import TradeCore.BookRun
import TradeCore.Naive
import TradeCore.Lib.OptionRel

/-!
# The Book Refines the Reference Book

`OrderBook.Refines b n` says that a book in good order has the queues of the reference book
`n`. By extensionality of ladders everything else the reference book can be asked follows
from the queues: its rungs are the stored levels in walking order, so the best prices, the
depth and the two precheck sums agree, and each operation of the book is the rewriting or
the append that the reference does.

## Main results

* `Refines.rungs_eq` — the rungs of the reference are the stored levels.
* `Refines.best`, `Refines.depth`, `Refines.crossableQty`, `Refines.costToFill` — the
  queries.
* `Refines.levelViewFor`, `Refines.cancel`, `Refines.cancelEach`, `Refines.cancelOwn`,
  `Refines.reduce`, `Refines.insert` — the operations.
-/

namespace TradeCore

open Std List

variable {n : NaiveBook} {b : OrderBook} {lv : Level} {levels : List (ℕ × Level)} {o : Order}
  {s : Side} {id p : ℕ}

namespace OrderBook

/-- The book is in good order and has the queues of the reference book `n`. -/
structure Refines (b : OrderBook) (n : NaiveBook) : Prop where
  inv : b.Inv
  occupied : b.Occupied
  queue : ∀ s p, b.queue s p = n.queue s p

/-- The stored levels of a side, best price first. -/
def bestFirst (b : OrderBook) : Side → List (ℕ × Level)
  | .buy => b.bids.ladder.reverse
  | .sell => b.asks.ladder

/-- The stored levels are listed once each. -/
theorem Inv.mem_bestFirst (h : b.Inv) :
    (p, lv) ∈ b.bestFirst s ↔ (b.side s).level? p = some lv := by
  cases s with
  | buy =>
    rw [bestFirst, mem_reverse]
    exact (h.index .buy).mem_ladder
  | sell => exact (h.index .sell).mem_ladder

/-- The stored levels are listed best price first. -/
theorem Inv.pairwise_bestFirst (h : b.Inv) (s : Side) :
    (b.bestFirst s).Pairwise fun a b => s.better a.1 b.1 := by
  cases s with
  | buy =>
    rw [bestFirst, pairwise_reverse]
    exact (h.index .buy).pairwise_ladder
  | sell => exact (h.index .sell).pairwise_ladder

/-- A price without a level has no queue. -/
theorem queue_of_level?_none (h : (b.side s).level? p = none) :
    b.queue s p = [] := by
  rw [OrderBook.queue, queueSlots, h]
  rfl

section

variable (h : b.Refines n)
include h

/-- A stored level has a queue. -/
theorem Refines.queue_ne_nil (hlv : (b.side s).level? p = some lv) : n.queue s p ≠ [] := by
  have hlive := h.inv.live s p lv hlv
  have hpos := h.occupied s p lv hlv
  rw [← h.queue, ← length_pos_iff_ne_nil]
  omega

/-- **The rungs of the reference are the stored levels**, with their queues. -/
theorem Refines.rungs_eq (s : Side) :
    (n s).rungs = (b.bestFirst s).map fun e => (e.1, n.queue s e.1) := by
  -- the stored levels form a ladder, which has the queues of the reference
  let l : Ladder s.better Order :=
    { rungs := (b.bestFirst s).map fun e => (e.1, n.queue s e.1)
      sorted := pairwise_map.mpr (h.inv.pairwise_bestFirst s)
      occupied := by
        intro e he
        obtain ⟨⟨p, lv⟩, hmem, rfl⟩ := List.mem_map.mp he
        exact h.queue_ne_nil (h.inv.mem_bestFirst.mp hmem) }
  have hl : n s = l := by
    refine Ladder.ext_queue fun p => ?_
    cases hlv : (b.side s).level? p with
    | none =>
      have hnil : n.queue s p = [] := by
        rw [← h.queue, queue_of_level?_none hlv]
      refine hnil.trans (Ladder.queueIn_of_notMem ?_).symm
      intro e he hp
      obtain ⟨⟨p', lv⟩, hmem, rfl⟩ := List.mem_map.mp he
      rw [show p' = p from hp.symm, h.inv.mem_bestFirst, hlv] at hmem
      cases hmem
    | some lv =>
      refine (Ladder.mem_rungs.mp (?_ : (p, n.queue s p) ∈ l.rungs)).1.symm
      exact List.mem_map.mpr ⟨(p, lv), h.inv.mem_bestFirst.mpr hlv, rfl⟩
  rw [hl]

/-- The aggregates of a stored level are those of its queue. -/
theorem Refines.aggregates {e : ℕ × Level} (he : e ∈ b.bestFirst s) :
    e.2.qty = totalQty (n.queue s e.1) ∧ e.2.live = (n.queue s e.1).length ∧ 0 < e.2.qty ∧
      e.1 < 2 ^ 64 ∧ e.2.qty < 2 ^ 64 := by
  have hlv := h.inv.mem_bestFirst.mp (show (e.1, e.2) ∈ b.bestFirst s from he)
  obtain ⟨hqty, hlt⟩ := h.inv.qty s e.1 e.2 hlv
  rw [h.queue] at hqty
  obtain ⟨o, rest, hq⟩ := exists_cons_of_ne_nil (h.queue_ne_nil hlv)
  have ho : o ∈ b.queue s e.1 := by
    rw [h.queue, hq]
    exact mem_cons_self
  have hpos := (h.inv.of_mem_queue ho).1
  refine ⟨hqty, by rw [h.inv.live s e.1 e.2 hlv, h.queue], ?_, (h.inv.index s).price_lt _ _ hlv,
    hlt⟩
  rw [hqty, hq, map_cons, sum_cons]
  omega

/-! ### Queries -/

/-- A resting order of the reference is in the queue of its side and price. -/
theorem Refines.mem_orders : o ∈ n.orders ↔ o ∈ b.queue o.side o.price := by
  rw [NaiveBook.orders, mem_append, Ladder.mem_elems, Ladder.mem_elems]
  constructor
  · rintro (⟨p, hp⟩ | ⟨p, hp⟩)
    · have ho : o ∈ b.queue .buy p := by rw [h.queue]; exact hp
      obtain ⟨-, hs, hpr⟩ := h.inv.of_mem_queue ho
      rw [hs, hpr]
      exact ho
    · have ho : o ∈ b.queue .sell p := by rw [h.queue]; exact hp
      obtain ⟨-, hs, hpr⟩ := h.inv.of_mem_queue ho
      rw [hs, hpr]
      exact ho
  · intro ho
    rw [h.queue] at ho
    cases hs : o.side with
    | buy =>
      rw [hs] at ho
      exact .inl ⟨o.price, ho⟩
    | sell =>
      rw [hs] at ho
      exact .inr ⟨o.price, ho⟩

/-- **Looking an order up by id.** -/
theorem Refines.get_eq (id : ℕ) : b.get id = n.find? id := by
  have hfind : ∀ o, n.find? id = some o → b.get id = some o := by
    intro o ho
    have hid := find?_some ho
    have hmem := h.mem_orders.mp (mem_of_find?_eq_some ho)
    exact h.inv.get_eq_some.mpr ⟨by simpa using hid, hmem⟩
  cases hn : n.find? id with
  | some o => exact hfind o hn
  | none =>
    cases hb : b.get id with
    | none => rfl
    | some o =>
      obtain ⟨hid, hmem⟩ := h.inv.get_eq_some.mp hb
      have hnone := find?_eq_none.mp hn o (h.mem_orders.mpr hmem)
      exact absurd hid (by simpa using hnone)

/-- **The best price.** -/
theorem Refines.best (s : Side) : b.best s = n.best s := by
  refine BestOf.unique (fun p q => by cases s <;> simp only [Side.noWorse] <;> omega)
    (bestOf_best h.inv.index s) ?_
  have hnil : ∀ q, n.queue s q ≠ [] → (b.side s).Occupies q := by
    intro q hq
    rw [← h.queue] at hq
    exact Option.ne_none_iff_exists'.mp fun hnone => hq (queue_of_level?_none hnone)
  rw [NaiveBook.best]
  cases hr : (n s).rungs.head? with
  | none =>
    rintro q ⟨lv, hlv⟩
    have hmem : (q, n.queue s q) ∈ (n s).rungs := Ladder.mem_rungs.mpr ⟨rfl, h.queue_ne_nil hlv⟩
    rw [head?_eq_none_iff.mp hr] at hmem
    exact not_mem_nil hmem
  | some e =>
    obtain ⟨k, q⟩ := e
    obtain ⟨hq, hne, hfirst⟩ := Ladder.head?_eq_some hr
    refine ⟨hnil k fun hk => hne (hq.symm.trans hk), ?_⟩
    rintro p ⟨lv, hlv⟩
    have := hfirst p (h.queue_ne_nil hlv)
    cases s <;> simp only [Side.noWorse, Side.better] at this ⊢ <;> omega

end

/-! ### Walks -/

/-- The walk of a side visits its stored levels, best price first. -/
theorem Inv.walk_eq (h : b.Inv) {σ : Type} (f : σ → ℕ → Level → Option (σ × Bool)) (s : σ) :
    b.bids.walkDesc f s = LevelIndex.walk f ((b.bestFirst .buy).map some) s ∧
      b.asks.walkAsc f s = LevelIndex.walk f ((b.bestFirst .sell).map some) s := by
  constructor
  · rw [LevelIndex.walkDesc, show b.bids = b.side .buy from rfl, (h.index .buy).entriesDesc_eq]
    rfl
  · rw [LevelIndex.walkAsc, show b.asks = b.side .sell from rfl, (h.index .sell).entriesAsc_eq]
    rfl

/-- A walk that collects a row per level. -/
theorem walk_rows (hpos : ∀ e ∈ levels, 0 < e.2.qty) (rows : List (ℕ × ℕ × ℕ)) :
    LevelIndex.walk (fun rows px lv =>
        some (if 0 < lv.qty then rows ++ [(px, lv.qty, lv.live)] else rows, true))
      (levels.map some) rows = some (rows ++ levels.map fun e => (e.1, e.2.qty, e.2.live)) := by
  induction levels generalizing rows with
  | nil => simp [LevelIndex.walk]
  | cons e levels ih =>
    simp only [map_cons, LevelIndex.walk, if_pos (hpos e mem_cons_self), bind,
      Option.bind_some, if_true]
    rw [ih fun e he => hpos e (mem_cons_of_mem _ he), append_assoc, singleton_append]

/-- **The depth.** -/
theorem Refines.depth (h : b.Refines n) (s : Side) :
    b.depth s = some (n.depth s) := by
  have hrows : (b.bestFirst s).map (fun e => (e.1, e.2.qty, e.2.live)) = n.depth s := by
    rw [NaiveBook.depth, h.rungs_eq, List.map_map]
    refine map_congr_left fun e he => ?_
    obtain ⟨hqty, hlive, -⟩ := h.aggregates he
    simp only [Function.comp_apply, hqty, hlive]
  have hpos : ∀ e ∈ b.bestFirst s, 0 < e.2.qty := fun e he => (h.aggregates he).2.2.1
  cases s with
  | buy => rw [OrderBook.depth, (h.inv.walk_eq _ _).1, walk_rows hpos, nil_append, hrows]
  | sell => rw [OrderBook.depth, (h.inv.walk_eq _ _).2, walk_rows hpos, nil_append, hrows]

/-- A walk that sums quantities up to the first level out of reach. -/
theorem walk_sum {stop : ℕ → Prop} [DecidablePred stop]
    (hstop : levels.Pairwise fun a b => stop a.1 → stop b.1) {sum : ℕ} (hsum : sum < 2 ^ 64) :
    LevelIndex.walk (fun sum px lv =>
        if stop px then some (sum, false)
        else do
          let sum ← checkedAdd 64 sum lv.qty
          pure (sum, true)) (levels.map some) sum =
      if sum + ((levels.filter fun e => ¬ stop e.1).map fun e => e.2.qty).sum < 2 ^ 64 then
        some (sum + ((levels.filter fun e => ¬ stop e.1).map fun e => e.2.qty).sum)
      else none := by
  induction levels generalizing sum with
  | nil =>
    simp only [filter_nil, map_nil, sum_nil, add_zero, if_pos hsum]
    rfl
  | cons e levels ih =>
    obtain ⟨hhead, htail⟩ := pairwise_cons.mp hstop
    simp only [map_cons, LevelIndex.walk]
    by_cases hs : stop e.1
    · have hnil : (e :: levels).filter (fun e => decide (¬ stop e.1)) = [] := by
        refine filter_eq_nil_iff.mpr fun e' he' => ?_
        rcases mem_cons.mp he' with rfl | he'
        · simp [hs]
        · simp [hhead e' he' hs]
      rw [hnil, map_nil, sum_nil, add_zero, if_pos hsum, if_pos hs]
      rfl
    · rw [filter_cons_of_pos (by simp [hs]), if_neg hs]
      simp only [map_cons, sum_cons, bind, ← add_assoc]
      by_cases hadd : sum + e.2.qty < 2 ^ 64
      · rw [checkedAdd, if_pos hadd]
        exact ih htail hadd
      · rw [checkedAdd, if_neg hadd, if_neg (by omega)]
        rfl

/-- **The fill-or-kill precheck sum**, with its overflow abort. -/
theorem Refines.crossableQty (h : b.Refines n) (aggressor : Side) (limit : ℕ) :
    b.crossableQty aggressor limit =
      if n.crossableQty aggressor limit < 2 ^ 64 then some (n.crossableQty aggressor limit)
      else none := by
  have hsum : ∀ (stop : ℕ → Prop) [DecidablePred stop],
      (∀ px, reaches aggressor limit px = decide (¬ stop px)) →
      (((b.bestFirst aggressor.opposite).filter fun e => ¬ stop e.1).map fun e => e.2.qty).sum =
        n.crossableQty aggressor limit := by
    intro stop _ hreach
    rw [NaiveBook.crossableQty, h.rungs_eq, List.filter_map, List.map_map]
    simp only [Function.comp_def, hreach]
    congr 1
    refine map_congr_left fun e he => ?_
    exact (h.aggregates (mem_of_mem_filter he)).1
  cases aggressor with
  | buy =>
    have hstop : (b.bestFirst .sell).Pairwise fun a b => limit < a.1 → limit < b.1 :=
      (h.inv.pairwise_bestFirst .sell).imp fun hlt hs => Nat.lt_trans hs hlt
    have hwalk := @walk_sum _ (fun px => limit < px) _ hstop 0 (Nat.two_pow_pos 64)
    have hqty := hsum (fun px => limit < px) (by intro px; simp [reaches])
    rw [show Side.opposite .buy = .sell from rfl] at hqty
    rw [hqty, zero_add] at hwalk
    exact (h.inv.walk_eq _ _).2.trans hwalk
  | sell =>
    have hstop : (b.bestFirst .buy).Pairwise fun a b => a.1 < limit → b.1 < limit :=
      (h.inv.pairwise_bestFirst .buy).imp fun hlt hs => Nat.lt_trans hlt hs
    have hwalk := @walk_sum _ (fun px => px < limit) _ hstop 0 (Nat.two_pow_pos 64)
    have hqty := hsum (fun px => px < limit) (by intro px; simp [reaches])
    rw [show Side.opposite .sell = .buy from rfl] at hqty
    rw [hqty, zero_add] at hwalk
    exact (h.inv.walk_eq _ _).1.trans hwalk

/-- One visit of `cost_to_fill`; its 128-bit sum does not overflow while the lots left to
fill are paid for at the highest price. -/
theorem fillLevel_eq {left cost px : ℕ} (hpx : px < 2 ^ 64)
    (hcost : cost + (2 ^ 64 - 1) * left < 2 ^ 128) :
    fillLevel (left, cost) px lv =
        some ((left - min left lv.qty, cost + px * min left lv.qty),
          decide (0 < left - min left lv.qty)) ∧
      cost + px * min left lv.qty + (2 ^ 64 - 1) * (left - min left lv.qty) < 2 ^ 128 := by
  have hle : px * min left lv.qty ≤ (2 ^ 64 - 1) * min left lv.qty :=
    Nat.mul_le_mul_right _ (by omega)
  have hsplit : (2 ^ 64 - 1) * left =
      (2 ^ 64 - 1) * min left lv.qty + (2 ^ 64 - 1) * (left - min left lv.qty) := by
    rw [← mul_add]
    congr 1
    omega
  have hguard : px * min left lv.qty < 2 ^ 128 := by omega
  have hadd : cost + px * min left lv.qty < 2 ^ 128 := by omega
  refine ⟨?_, by omega⟩
  simp only [fillLevel, guard, hguard, if_true, checkedAdd, if_pos hadd, checkedSub,
    if_pos (Nat.min_le_left left lv.qty), bind, Option.pure_def, Option.bind_some]

/-- The walk of `cost_to_fill`. -/
theorem walk_cost {q : ℕ → List Order}
    (hagg : ∀ e ∈ levels, e.2.qty = totalQty (q e.1) ∧ e.1 < 2 ^ 64) {left cost : ℕ}
    (hcost : cost + (2 ^ 64 - 1) * left < 2 ^ 128) :
    LevelIndex.walk fillLevel (levels.map some) (left, cost) =
      some ((sweepCost left (levels.map fun e => (e.1, q e.1))).1,
        cost + (sweepCost left (levels.map fun e => (e.1, q e.1))).2) := by
  induction levels generalizing left cost with
  | nil => simp [LevelIndex.walk, sweepCost]
  | cons e levels ih =>
    obtain ⟨hqty, hpx⟩ := hagg e mem_cons_self
    obtain ⟨hvisit, hcost'⟩ := @fillLevel_eq e.2 left cost e.1 hpx hcost
    simp only [map_cons, LevelIndex.walk, hvisit, sweepCost, ← hqty, bind,
      Option.bind_some, decide_eq_true_eq]
    by_cases hleft : 0 < left - min left e.2.qty
    · rw [if_pos hleft, ih (fun e he => hagg e (mem_cons_of_mem _ he)) hcost', add_assoc]
    · have hz : left - min left e.2.qty = 0 := by omega
      rw [if_neg hleft, hz, sweepCost_zero, add_zero]
      rfl

/-- **The cost of filling a quantity.** -/
theorem Refines.costToFill (h : b.Refines n) {qty : ℕ} (hqty : qty < 2 ^ 64) :
    b.costToFill .buy qty = some (n.costToFill .buy qty) := by
  have hagg : ∀ e ∈ b.bestFirst .sell, e.2.qty = totalQty (n.queue .sell e.1) ∧ e.1 < 2 ^ 64 :=
    fun e he => ⟨(h.aggregates he).1, (h.aggregates he).2.2.2.1⟩
  have hbound : 0 + (2 ^ 64 - 1) * qty < 2 ^ 128 := by
    have hle : (2 ^ 64 - 1) * qty ≤ (2 ^ 64 - 1) * (2 ^ 64 - 1) :=
      Nat.mul_le_mul_left _ (by omega)
    have hlt : (2 ^ 64 - 1) * (2 ^ 64 - 1) < 2 ^ 128 := by norm_num
    omega
  have hwalk := (h.inv.walk_eq _ _).2.trans (walk_cost hagg hbound)
  simp only [OrderBook.costToFill, Side.opposite, side]
  rw [hwalk, NaiveBook.costToFill, show Side.opposite .buy = .sell from rfl, h.rungs_eq]
  simp

end OrderBook

/-! ### Operations of the reference book -/

namespace NaiveBook

/-- A reference book is determined by its queues. -/
theorem ext_queue {n' : NaiveBook} (h : ∀ s p, n.queue s p = n'.queue s p) : n = n' :=
  funext fun s => Ladder.ext_queue (h s)

variable (n)

/-- The queues after a rewriting. -/
theorem queue_rewrite (f : Order → Option Order) (s : Side) (p : ℕ) :
    (n.rewrite f).queue s p = (n.queue s p).filterMap f :=
  Ladder.queue_mapQueues f (n s) p

/-- The queues after an append. -/
theorem queue_push (order : Order) (s : Side) (p : ℕ) :
    (n.push order).queue s p =
      if s = order.side ∧ p = order.price then n.queue s p ++ [order] else n.queue s p := by
  by_cases hs : s = order.side
  · simp only [push, queue, hs, if_true, true_and, Ladder.queue_push]
    by_cases hp : p = order.price
    · simp [hp]
    · simp [hp]
  · simp [push, queue, hs]

/-- Rewritings compose. -/
theorem rewrite_rewrite (f g : Order → Option Order) :
    (n.rewrite f).rewrite g = n.rewrite fun o => (f o).bind g := by
  refine ext_queue fun s p => ?_
  simp only [queue_rewrite, filterMap_filterMap]

/-- Dropping nothing changes nothing. -/
theorem rewrite_without_nil : n.rewrite (without []) = n := by
  refine ext_queue fun s p => ?_
  rw [queue_rewrite]
  exact filterMap_eq_self fun o _ => by simp [without]

/-- Dropping in two steps. -/
theorem rewrite_without_append (ids ids' : List ℕ) :
    (n.rewrite (without ids)).rewrite (without ids') = n.rewrite (without (ids ++ ids')) := by
  rw [rewrite_rewrite]
  congr 1
  funext o
  by_cases h : o.id ∈ ids <;> by_cases h' : o.id ∈ ids' <;> simp [without, h, h']

end NaiveBook

namespace OrderBook

section Refines

/-- Shrinking to nothing is dropping. -/
theorem shrunk_zero (id : ℕ) : shrunk id 0 = without [id] := by
  funext o
  by_cases h : o.id = id <;> simp [shrunk, without, h]

/-- A chosen iteration order lists the same entries. -/
theorem perm_apply {α : Type} (ω : HashOrder) (l : List α) : (ω.apply l).Perm l := by
  have hperm := Equiv.Perm.ofFn_comp_perm (ω l.length) l.get
  rw [ofFn_get] at hperm
  exact hperm

variable (h : b.Refines n)
include h

/-- A book whose queues were rewritten refines the rewritten reference. -/
theorem Refines.of_filterMap {b' : OrderBook} {f : Order → Option Order} (hinv : b'.Inv)
    (hocc : b'.Occupied) (hq : ∀ s p, b'.queue s p = (b.queue s p).filterMap f) :
    b'.Refines (n.rewrite f) where
  inv := hinv
  occupied := hocc
  queue := by
    intro s p
    rw [hq, h.queue, NaiveBook.queue_rewrite]

/-- A queue's total is a 64-bit value. -/
theorem Refines.totalQty_lt (s : Side) (p : ℕ) : totalQty (n.queue s p) < 2 ^ 64 := by
  cases hlv : (b.side s).level? p with
  | none =>
    rw [← h.queue, queue_of_level?_none hlv]
    exact Nat.two_pow_pos 64
  | some lv =>
    obtain ⟨hqty, hlt⟩ := h.inv.qty s p lv hlv
    rw [h.queue] at hqty
    rw [totalQty, ← hqty]
    exact hlt

/-- The view of a queue is alive. -/
theorem Refines.view_pos {r : RestingOrder} (hr : r ∈ (n.queue s p).map Order.toResting) :
    0 < r.remaining := by
  obtain ⟨o, ho, rfl⟩ := List.mem_map.mp hr
  rw [← h.queue] at ho
  exact (h.inv.of_mem_queue ho).1

/-- **The view of a level.** -/
theorem Refines.levelViewFor (strategy : Strategy) (s : Side) (p lots : ℕ) :
    ∃ b', levelViewFor strategy b s p lots = some (reached strategy lots (n.queue s p), b') ∧
      b'.Refines n ∧ (b.HasRoom → b'.HasRoom) := by
  rw [TradeCore.levelViewFor, reached]
  split
  · obtain ⟨b', hview, hinv, hocc, -, hroom, hq⟩ :=
      h.inv.levelViewCapped h.occupied s p priceMax
    have hself : capped priceMax 0 ((n.queue s p).map Order.toResting) =
        (n.queue s p).map Order.toResting := by
      refine capped_eq_self (fun r hr => h.view_pos hr) ?_
      have hlt := h.totalQty_lt s p
      have hmap : ((n.queue s p).map Order.toResting).map RestingOrder.remaining =
          (n.queue s p).map Order.remaining := by
        rw [List.map_map]
        rfl
      rw [hmap, priceMax, ← totalQty]
      omega
    rw [h.queue, hself] at hview
    exact ⟨b', hview, ⟨hinv, hocc, fun s p => (hq s p).trans (h.queue s p)⟩, hroom⟩
  · obtain ⟨b', hview, hinv, hocc, -, hroom, hq⟩ := h.inv.levelViewCapped h.occupied s p lots
    rw [h.queue] at hview
    exact ⟨b', hview, ⟨hinv, hocc, fun s p => (hq s p).trans (h.queue s p)⟩, hroom⟩

/-- **Cancelling an id**, resting or not. -/
theorem Refines.cancel (id : ℕ) :
    ∃ b', b.cancel id = some (n.find? id, b') ∧ b'.Refines (n.rewrite (without [id])) ∧
      (b.HasRoom → b'.HasRoom) := by
  rw [← h.get_eq]
  cases hget : b.get id with
  | some o =>
    obtain ⟨b', hcancel, hinv, hocc, -, hroom, hq⟩ := h.inv.cancel h.occupied hget
    rw [shrunk_zero] at hq
    exact ⟨b', hcancel, h.of_filterMap hinv hocc hq, hroom⟩
  | none =>
    refine ⟨b, h.inv.cancel_of_none hget, h.of_filterMap h.inv h.occupied fun s p => ?_,
      fun hroom => hroom⟩
    refine (filterMap_eq_self fun o ho => ?_).symm
    have hne : o.id ≠ id := by
      intro hid
      obtain ⟨-, hs, hp⟩ := h.inv.of_mem_queue ho
      rw [← hs, ← hp] at ho
      rw [h.inv.get_eq_some.mpr ⟨hid, ho⟩] at hget
      cases hget
    simp [without, hne]

/-- **Cancelling one by one** drops the ids. -/
theorem Refines.cancelEach (ids : List ℕ) :
    ∃ b', MatchingEngine.cancelEach b ids = some b' ∧ b'.Refines (n.rewrite (without ids)) ∧
      (b.HasRoom → b'.HasRoom) := by
  induction ids generalizing b n with
  | nil =>
    refine ⟨b, rfl, ?_, id⟩
    rw [NaiveBook.rewrite_without_nil]
    exact h
  | cons id ids ih =>
    obtain ⟨b₁, hcancel, h₁, hroom₁⟩ := h.cancel id
    obtain ⟨b', hrest, h', hroom'⟩ := ih h₁
    rw [NaiveBook.rewrite_without_append, singleton_append] at h'
    refine ⟨b', ?_, h', fun hroom => hroom' (hroom₁ hroom)⟩
    rw [MatchingEngine.cancelEach, foldlM_cons, hcancel]
    exact hrest

/-- **Pulling the user's own makers** out of a view. -/
theorem Refines.cancelOwn (user : ℕ) (view : List RestingOrder) (stp : List ℕ) :
    ∃ b', cancelOwn user view b stp = some (b', stp ++ ownIds user view) ∧
      b'.Refines (n.rewrite (without (ownIds user view))) ∧ (b.HasRoom → b'.HasRoom) := by
  induction view generalizing b n stp with
  | nil =>
    refine ⟨b, by simp [TradeCore.cancelOwn, ownIds], ?_, id⟩
    rw [ownIds, filter_nil, map_nil, NaiveBook.rewrite_without_nil]
    exact h
  | cons r view ih =>
    rw [TradeCore.cancelOwn]
    by_cases hr : r.user = user
    · obtain ⟨b₁, hcancel, h₁, hroom₁⟩ := h.cancel r.id
      obtain ⟨b', hrest, h', hroom'⟩ := ih h₁ (stp ++ [r.id])
      have hids : ownIds user (r :: view) = r.id :: ownIds user view := by
        simp [ownIds, hr]
      rw [NaiveBook.rewrite_without_append, singleton_append, ← hids] at h'
      refine ⟨b', ?_, h', fun hroom => hroom' (hroom₁ hroom)⟩
      rw [if_pos hr, hcancel, hids]
      simpa using hrest
    · have hids : ownIds user (r :: view) = ownIds user view := by
        simp [ownIds, hr]
      rw [if_neg hr, hids]
      exact ih h stp

/-- **Reducing a resting order.** -/
theorem Refines.reduce {qty : ℕ} (ho : n.find? id = some o) (hqty : 0 < qty)
    (hle : qty ≤ o.remaining) :
    ∃ b', b.reduce id qty = some (true, b') ∧ b'.Refines (n.rewrite (shrunk id qty)) ∧
      (b.HasRoom → b'.HasRoom) := by
  rw [← h.get_eq] at ho
  obtain ⟨b', hreduce, hinv, hocc, -, hroom, hq⟩ := h.inv.reduce h.occupied ho hqty hle
  exact ⟨b', hreduce, h.of_filterMap hinv hocc hq, hroom⟩

/-- **Resting an order** whose id is unused and whose level has room. -/
theorem Refines.insert (hroom : b.HasRoom) {order : Order} (hprice : order.price < 2 ^ 64)
    (hrem : 0 < order.remaining) (hid : n.find? order.id = none)
    (hsum : totalQty (n.queue order.side order.price) + order.remaining < 2 ^ 64) :
    ∃ b', b.insert order = some b' ∧ b'.Refines (n.push order) := by
  rw [← h.get_eq, ← h.inv.locate_eq_none] at hid
  rw [totalQty, ← h.queue] at hsum
  obtain ⟨b', hins, hinv, hocc, hq⟩ := h.inv.tryInsert h.occupied hroom hprice hrem hid hsum
  refine ⟨b', by simp [OrderBook.insert, hins], ⟨hinv, hocc, fun s p => ?_⟩⟩
  rw [hq, NaiveBook.queue_push, h.queue]

/-- An order whose id is taken, or whose level would overflow, aborts. -/
theorem Refines.insert_abort {order : Order} (hprice : order.price < 2 ^ 64)
    (hrem : 0 < order.remaining)
    (hbad : ¬ (n.find? order.id = none ∧
      totalQty (n.queue order.side order.price) + order.remaining < 2 ^ 64)) :
    b.insert order = none := by
  rw [← h.get_eq, ← h.inv.locate_eq_none, totalQty, ← h.queue] at hbad
  by_cases hid : b.locate[order.id]? = none
  · have habort := h.inv.tryInsert_abort hprice hrem hid fun hsum => hbad ⟨hid, hsum⟩
    simp [OrderBook.insert, habort]
  · have hmem : order.id ∈ b.locate := by
      rw [ExtTreeMap.mem_iff_isSome_getElem?]
      exact Option.isSome_iff_ne_none.mpr hid
    simp [OrderBook.insert, OrderBook.tryInsert, hmem]

/-- The ids of a side are distinct. -/
theorem Refines.nodup_elems (s : Side) : ((n s).elems.map Order.id).Nodup := by
  rw [Ladder.elems, map_flatMap, nodup_flatMap]
  constructor
  · rintro ⟨p, q⟩ he
    rw [← (Ladder.mem_rungs.mp he).1]
    have hids := h.inv.nodup_ids s p
    rw [h.queue] at hids
    exact hids
  · refine (n s).sorted.imp_of_mem fun {e e'} he he' hr => ?_
    rw [Function.onFun, disjoint_left]
    intro id hid hid'
    obtain ⟨o, ho, rfl⟩ := List.mem_map.mp hid
    obtain ⟨o', ho', hoo⟩ := List.mem_map.mp hid'
    rw [← (Ladder.mem_rungs.mp (show (e.1, e.2) ∈ _ from he)).1] at ho
    rw [← (Ladder.mem_rungs.mp (show (e'.1, e'.2) ∈ _ from he')).1] at ho'
    have hb : o ∈ b.queue s e.1 := by rw [h.queue]; exact ho
    have hb' : o' ∈ b.queue s e'.1 := by rw [h.queue]; exact ho'
    obtain ⟨-, -, hp⟩ := h.inv.eq_of_mem_queue hb hb' hoo.symm
    rw [hp] at hr
    exact irrefl_of s.better _ hr

/-- The ids of the book are distinct. -/
theorem Refines.nodup_orders : (n.orders.map Order.id).Nodup := by
  rw [NaiveBook.orders, map_append]
  refine (h.nodup_elems .buy).append (h.nodup_elems .sell) ?_
  rw [disjoint_left]
  intro id hid hid'
  obtain ⟨o, ho, rfl⟩ := List.mem_map.mp hid
  obtain ⟨o', ho', hoo⟩ := List.mem_map.mp hid'
  obtain ⟨p, hp⟩ := Ladder.mem_elems.mp ho
  obtain ⟨p', hp'⟩ := Ladder.mem_elems.mp ho'
  have hb : o ∈ b.queue .buy p := by rw [h.queue]; exact hp
  have hb' : o' ∈ b.queue .sell p' := by rw [h.queue]; exact hp'
  obtain ⟨-, hs, -⟩ := h.inv.eq_of_mem_queue hb hb' hoo.symm
  cases hs

/-- The id index holds the ids of the resting orders. -/
theorem Refines.mem_locate : id ∈ b.locate ↔ id ∈ n.orders.map Order.id := by
  rw [ExtTreeMap.mem_iff_isSome_getElem?, Option.isSome_iff_ne_none, ne_eq, h.inv.locate_eq_none,
    h.get_eq, NaiveBook.find?, find?_eq_none]
  simp

/-- Each side has at most as many orders as the book. -/
theorem Refines.size_le (s : Side) : (n s).size ≤ b.len := by
  have hsub : (n s).elems.map Order.id ⊆ b.locate.keys := by
    intro id hid
    rw [ExtTreeMap.mem_keys, h.mem_locate, NaiveBook.orders, map_append, mem_append]
    cases s with
    | buy => exact Or.inl hid
    | sell => exact Or.inr hid
  have hlen := ((h.nodup_elems s).subperm hsub).length_le
  rw [length_map, ExtTreeMap.length_keys] at hlen
  exact hlen

/-- An entry of the id index leads to the resting order of its id. -/
theorem Refines.of_mem_toList {slot : ℕ} (he : (id, slot) ∈ b.locate.toList) :
    ∃ o, b.pool.get slot = some o ∧ o ∈ n.orders ∧ o.id = id := by
  have hloc : b.locate[id]? = some slot := ExtTreeMap.mem_toList_iff_getElem?_eq_some.mp he
  obtain ⟨o, hget, hrem, hid⟩ := (h.inv.located id slot).mp hloc
  exact ⟨o, hget, h.mem_orders.mpr (mem_queue.mpr ⟨slot, h.inv.live_queued slot o hget hrem,
    hget, hrem⟩), hid⟩

/-- A resting order is listed in the id index. -/
theorem Refines.exists_mem_toList (ho : o ∈ n.orders) :
    ∃ slot, (o.id, slot) ∈ b.locate.toList ∧ b.pool.get slot = some o := by
  obtain ⟨slot, -, hget, hrem⟩ := mem_queue.mp (h.mem_orders.mp ho)
  exact ⟨slot, ExtTreeMap.mem_toList_iff_getElem?_eq_some.mpr
    ((h.inv.located o.id slot).mpr ⟨o, hget, hrem, rfl⟩), hget⟩

/-- **The orders of a user**, in the iteration order of the id index. -/
theorem Refines.ordersOfUser (ω : HashOrder) (user : ℕ) :
    ∃ ids, b.ordersOfUser ω user = some ids ∧
      ids.Perm ((n.orders.filter fun o => o.user = user).map Order.id) := by
  have hentry : ∀ e ∈ ω.apply b.locate.toList, (b.pool.get e.2).map (e.1, ·) =
      some (e.1, (b.pool.get e.2).getD default) := by
    rintro ⟨id, slot⟩ he
    obtain ⟨o, hget, -⟩ := h.of_mem_toList ((perm_apply ω _).mem_iff.mp he)
    rw [hget]
    rfl
  refine ⟨_, by rw [OrderBook.ordersOfUser, mapM_eq_map hentry]; rfl, ?_⟩
  have hnodup : (((ω.apply b.locate.toList).map fun e =>
      (e.1, (b.pool.get e.2).getD default)).map Prod.fst).Nodup := by
    rw [List.map_map, ((perm_apply ω _).map _).nodup_iff]
    exact (ExtTreeMap.map_fst_toList_eq_keys (t := b.locate)) ▸ ExtTreeMap.nodup_keys
  rw [perm_ext_iff_of_nodup ((filter_sublist.map _).nodup hnodup)
    ((filter_sublist.map _).nodup h.nodup_orders)]
  intro id
  simp only [List.mem_map, mem_filter, Prod.exists, decide_eq_true_eq, Prod.mk.injEq,
    (perm_apply ω _).mem_iff]
  constructor
  · rintro ⟨id', o, ⟨⟨id'', slot, he, rfl, rfl⟩, hu⟩, rfl⟩
    obtain ⟨o, hget, ho, hid⟩ := h.of_mem_toList he
    rw [hget] at hu
    exact ⟨o, ⟨ho, hu⟩, hid⟩
  · rintro ⟨o, ⟨ho, hu⟩, rfl⟩
    obtain ⟨slot, he, hget⟩ := h.exists_mem_toList ho
    exact ⟨o.id, o, ⟨⟨o.id, slot, he, rfl, by rw [hget]; rfl⟩, hu⟩, rfl⟩

end Refines

end OrderBook

end TradeCore
