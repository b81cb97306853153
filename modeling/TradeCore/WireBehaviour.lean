import TradeCore.Availability
import TradeCore.Budgets
import TradeCore.IterationOrder

/-!
# What a Frame Keeps of a Command

A command that is journalled, replicated or sent over the wire is processed as the command that
`to_command` reads back from its frame. All types but `New` are read back as they were. An order
is rebuilt by its constructor: its unfilled quantity and its timestamp start anew, which nobody
reads, and a market order gets the sentinel price of its side, whatever price it had. The engine
does read the price of a market order where it is fill-or-kill, and where it is the budget.

* `Order.rebuilt`, `Command.rebuilt` — what is read back (`Frame.toCommand_encode`).
* `crossAndFinalize_reprice` — the crossing loop does not look at the price of a market order.
* `Order.Portable` — orders whose price the engine does not read, or reads as it was.
* `wire_faithful` — a command is processed like the one that is read back, in all states, exactly
  if its order is portable.
* `budget_lost` — a market order with a budget of 100 is read back with no budget.
-/

open Std List
open Option hiding guard

namespace TradeCore

/-! ### The price of a market order -/

/-- The crossing loop for an order with another price. -/
def Cross.reprice (c : Cross) (price : ℕ) : Cross :=
  { c with order := { c.order with price := price } }

section Reprice

variable {strategy : Strategy} {stp : SelfTradePolicy} {seq px lots : ℕ} {c : Cross} (price : ℕ)

theorem execute_reprice (order : Order) (view : List RestingOrder) (allocs : List Allocation)
    (x : Execution) :
    execute seq { order with price := price } px view allocs x =
      execute seq order px view allocs x := by
  induction allocs generalizing x with
  | nil => rfl
  | cons a allocs ih =>
    simp only [execute, ih]

theorem crossFill_reprice (view : List RestingOrder) :
    crossFill strategy seq px lots view (c.reprice price) =
      (crossFill strategy seq px lots view c).map (Prod.map id (·.reprice price)) := by
  simp only [crossFill, Cross.reprice, execute_reprice]
  split
  · rfl
  · cases execute seq c.order px view (strategy.allocate view lots)
        ⟨c.trades, c.order.remaining, c.budgetLeft, []⟩ with
    | none => rfl
    | some x =>
      simp only [bind, bind_some]
      split
      · rfl
      · cases c.book.applyFills c.order.side.opposite px x.fills <;> rfl

theorem crossLevel_reprice (view : List RestingOrder) :
    crossLevel strategy stp seq px lots view (c.reprice price) =
      (crossLevel strategy stp seq px lots view c).map (Prod.map id (·.reprice price)) := by
  unfold crossLevel
  change (if ownInView stp c.order view then _ else _) = _
  split
  · cases stp with
    | allow | cancelTaker => rfl
    | cancelMaker | cancelBoth =>
      change (cancelOwn c.order.user view c.book c.stpCancelled).bind _ = _
      cases cancelOwn c.order.user view c.book c.stpCancelled <;> rfl
  · split
    · rfl
    · exact crossFill_reprice price view

theorem crossPass_reprice (hmarket : c.order.orderType = .market) :
    crossPass strategy stp seq (c.reprice price) =
      (crossPass strategy stp seq c).map (Prod.map id (·.reprice price)) := by
  have hcross : ∀ px, crossable (c.reprice price).order px = crossable c.order px := fun px => by
    simp [crossable, Cross.reprice, hmarket]
  have hbest : (c.reprice price).book.best (c.reprice price).order.side.opposite =
      c.book.best c.order.side.opposite := rfl
  simp only [crossPass, hcross, hbest]
  cases c.book.best c.order.side.opposite with
  | none => rfl
  | some px =>
    simp only
    split
    · rfl
    · change (if affordable c.budgetLeft c.order.remaining px = 0 then _ else _) = _
      split
      · rfl
      · change (levelViewFor strategy c.book c.order.side.opposite px
          (affordable c.budgetLeft c.order.remaining px)).bind _ = _
        cases levelViewFor strategy c.book c.order.side.opposite px
            (affordable c.budgetLeft c.order.remaining px) with
        | none => rfl
        | some r =>
          exact crossLevel_reprice (c := { c with book := r.2 }) price r.1

theorem crossLoop_reprice (n : ℕ) (hmarket : c.order.orderType = .market) :
    crossLoop strategy stp seq n (c.reprice price) =
      (crossLoop strategy stp seq n c).map (Prod.map (·.reprice price) id) := by
  induction n generalizing c with
  | zero => rfl
  | succ n ih =>
    rw [crossLoop, crossLoop, crossPass_reprice price hmarket]
    change (if c.order.remaining = 0 then _ else _) = _
    split
    · rfl
    · cases hpass : crossPass strategy stp seq c with
      | none => rfl
      | some r =>
        obtain ⟨flow, c'⟩ := r
        cases flow with
        | «break» | takerStopped => rfl
        | «continue» => exact ih ((crossPass_same hpass) ▸ hmarket)

end Reprice

namespace MatchingEngine

variable {e : MatchingEngine} {order : Order}

/-- **A market order is crossed whatever its price says.** -/
theorem crossAndFinalize_reprice (price budget : ℕ) (hmarket : order.orderType = .market) :
    e.crossAndFinalize { order with price := price } budget = e.crossAndFinalize order budget := by
  have hcross : e.cross { order with price := price } budget =
      (e.cross order budget).map (Prod.map (·.reprice price) id) :=
    crossLoop_reprice (c := ⟨e.book, order, [], budget, e.stpCancelled⟩) price _ hmarket
  simp only [crossAndFinalize, hcross]
  cases hc : e.cross order budget with
  | none => rfl
  | some r =>
    obtain ⟨c, stopped⟩ := r
    cases stopped with
    | true => rfl
    | false =>
      have htype : c.order.orderType = .market := (crossLoop_same hc) ▸ hmarket
      simp only [map_some, Prod.map_apply, bind, bind_some, finalize, htype, Cross.reprice, id]

/-- An order of zero lots is not crossed, whatever its budget. -/
theorem crossAndFinalize_empty (hzero : order.remaining = 0) (budget budget' : ℕ) :
    e.crossAndFinalize order budget = e.crossAndFinalize order budget' := by
  have hcross : ∀ budget, e.cross order budget =
      some (⟨e.book, order, [], budget, e.stpCancelled⟩, false) := fun budget => by
    rw [cross, crossLoop, if_pos hzero]
  simp only [crossAndFinalize, hcross]
  rfl

end MatchingEngine

/-- An order whose price does not matter beyond what its frame keeps: a limit order, a market
order that does not look at its price, or one that has the price it was built with. A sell budget
also does not matter where the implied floor is zero, once because it wraps around. -/
def Order.Portable (o : Order) : Prop :=
  o.orderType = .market →
    match o.tif, o.side with
    | .gtc, _ | .ioc, _ | .iocBudget, .sell => True
    | .fok, side => o.price = side.marketPrice
    | .iocBudget, .buy | .fokBudget, .buy => o.price = priceMax ∨ o.quantity = 0
    | .fokBudget, .sell => o.price = 0 ∨ 2 ^ 64 < o.price + o.quantity

theorem budgetFloor_eq_zero {price quantity : ℕ} (hp : price < 2 ^ 64) (hq : quantity < 2 ^ 64) :
    MatchingEngine.budgetFloor price quantity = 0 ↔ price = 0 ∨ 2 ^ 64 < price + quantity := by
  simp only [MatchingEngine.budgetFloor, wrappingAdd, wrappingSub]
  rw [Nat.div_eq_zero_iff]
  omega

/-- Nothing costs nothing. -/
theorem OrderBook.costToFill_zero {b : OrderBook} {r : ℕ × ℕ} (h : b.costToFill .buy 0 = some r) :
    r = (0, 0) := by
  obtain ⟨⟨left, cost⟩, hwalk, hr⟩ := bind_eq_some_iff.mp h
  have hzero : (left, cost) = (0, 0) := by
    simp only [LevelIndex.walkAsc] at hwalk
    generalize (b.side Side.buy.opposite).entriesAsc = entries at hwalk
    cases entries with
    | nil =>
      cases hwalk
      rfl
    | cons e rest =>
      cases e with
      | none => cases hwalk
      | some v =>
        obtain ⟨px, lv⟩ := v
        rw [LevelIndex.walk] at hwalk
        obtain ⟨⟨s, more⟩, hlevel, hwalk⟩ := bind_eq_some_iff.mp hwalk
        have hs : (s, more) = ((0, 0), false) := by
          simpa [fillLevel, checkedAdd, checkedSub, guard, eq_comm] using hlevel
        cases hs
        cases hwalk
        rfl
  cases hzero
  cases hr
  rfl

namespace MatchingEngine

variable {e : MatchingEngine} {order : Order}

/-- The order that `submit` matches. -/
def arriving (e : MatchingEngine) (order : Order) : Order :=
  { order with timestamp := e.stamp.seq, remaining := order.quantity }

/-- A submission after its checks. -/
theorem submit_of_applyBudget {order' : Order} {budget : ℕ}
    (hbudget : e.stamp.applyBudget (e.arriving order) = some (some (order', budget)))
    (hfok : order'.tif ≠ .fok) : e.submit order = e.stamp.crossAndFinalize order' budget := by
  have hshort : e.stamp.fokShort order' = some false := if_neg hfok
  change (e.stamp.applyBudget (e.arriving order)).bind _ = _
  rw [hbudget]
  change (e.stamp.fokShort order').bind _ = _
  rw [hshort]
  rfl

/-- Orders that arrive alike are matched alike. -/
theorem submit_congr {order' : Order} (hid : order.id = order'.id)
    (hbudget : e.stamp.applyBudget (e.arriving order) = e.stamp.applyBudget (e.arriving order')) :
    e.submit order = e.submit order' := by
  change (e.stamp.applyBudget (e.arriving order)).bind _ =
    (e.stamp.applyBudget (e.arriving order')).bind _
  rw [hbudget]
  congr 1
  funext r
  cases r with
  | none => exact congrArg some (congrArg (Prod.mk _) (by rw [hid]))
  | some r => rfl

/-- A fill-or-kill budget of a purchase of nothing. -/
theorem submit_fokBudget_zero (e : MatchingEngine) (id instrument user p q : ℕ)
    (remaining timestamp remaining' timestamp' : ℕ) :
    e.submit ⟨id, instrument, user, .buy, .market, .fokBudget, p, 0, remaining, timestamp⟩ =
      e.submit ⟨id, instrument, user, .buy, .market, .fokBudget, q, 0, remaining', timestamp'⟩ := by
  have hbudget : ∀ p r t, e.stamp.applyBudget (e.arriving ⟨id, instrument, user, .buy, .market,
      .fokBudget, p, 0, r, t⟩) = (e.stamp.book.costToFill .buy 0).map fun _ => some
        (⟨id, instrument, user, .buy, .market, .iocBudget, priceMax, 0, 0, e.stamp.seq⟩, p) := by
    intro p r t
    change (e.stamp.book.costToFill .buy 0).bind _ = _
    cases hcost : e.stamp.book.costToFill .buy 0 with
    | none => rfl
    | some r =>
      obtain rfl := OrderBook.costToFill_zero hcost
      rfl
  cases hcost : e.stamp.book.costToFill .buy 0 with
  | none =>
    refine submit_congr rfl ?_
    rw [hbudget, hbudget, hcost]
    rfl
  | some r =>
    simp only [hcost, map_some] at hbudget
    rw [submit_of_applyBudget (hbudget p _ _) TimeInForce.noConfusion,
      submit_of_applyBudget (hbudget q _ _) TimeInForce.noConfusion]
    exact crossAndFinalize_empty rfl _ _

/-- **A portable order is matched like the one that is read back.** -/
theorem submit_rebuilt (e : MatchingEngine) {order : Order}
    (hr : order.orderType = .market → order.price < 2 ^ 64 ∧ order.quantity < 2 ^ 64)
    (h : order.Portable) : e.submit order.rebuilt = e.submit order := by
  obtain ⟨id, instrument, user, side, orderType, tif, price, quantity, remaining, timestamp⟩ :=
    order
  cases orderType with
  | limit => rfl
  | market =>
    have hportable := h rfl
    obtain ⟨hprice, hqty⟩ := hr rfl
    have hreprice : ∀ (tif : TimeInForce) (p q budget : ℕ),
        e.stamp.crossAndFinalize ⟨id, instrument, user, side, .market, tif, p, quantity, quantity,
            e.stamp.seq⟩ budget =
          e.stamp.crossAndFinalize ⟨id, instrument, user, side, .market, tif, q, quantity, quantity,
            e.stamp.seq⟩ budget :=
      fun tif p q budget => @crossAndFinalize_reprice e.stamp
        ⟨id, instrument, user, side, .market, tif, q, quantity, quantity, e.stamp.seq⟩ p budget rfl
    cases tif with
    | gtc | ioc =>
      refine (submit_of_applyBudget rfl TimeInForce.noConfusion).trans ?_
      refine Eq.trans ?_ (submit_of_applyBudget rfl TimeInForce.noConfusion).symm
      exact hreprice _ _ _ _
    | fok =>
      obtain rfl : price = side.marketPrice := hportable
      rfl
    | iocBudget =>
      cases side with
      | sell =>
        refine (submit_of_applyBudget rfl TimeInForce.noConfusion).trans ?_
        refine Eq.trans ?_ (submit_of_applyBudget rfl TimeInForce.noConfusion).symm
        exact hreprice _ _ _ _
      | buy =>
        obtain rfl | hzero : price = priceMax ∨ quantity = 0 := hportable
        · rfl
        · refine (submit_of_applyBudget rfl TimeInForce.noConfusion).trans ?_
          refine Eq.trans ?_ (submit_of_applyBudget rfl TimeInForce.noConfusion).symm
          exact crossAndFinalize_empty hzero _ _
    | fokBudget =>
      cases side with
      | sell =>
        have hfloor := (budgetFloor_eq_zero hprice hqty).mpr hportable
        have hzero : budgetFloor 0 quantity = 0 :=
          (budgetFloor_eq_zero (by norm_num) hqty).mpr (.inl rfl)
        have hsame : budgetFloor 0 quantity = budgetFloor price quantity :=
          hzero.trans hfloor.symm
        refine submit_congr rfl ?_
        change some (some (Order.mk id instrument user .sell .market .fok
          (budgetFloor 0 quantity) quantity quantity e.stamp.seq, 2 ^ 128 - 1)) = _
        rw [hsame]
        rfl
      | buy =>
        obtain rfl | rfl : price = priceMax ∨ quantity = 0 := hportable
        · rfl
        · exact submit_fokBudget_zero e id instrument user _ _ _ _ _ _

end MatchingEngine

/-! ### The processor -/

theorem PriceGuard.vet_rebuilt (g : PriceGuard) (order : Order) :
    g.vet order.rebuilt = (g.vet order).map Order.rebuilt := by
  obtain ⟨id, instrument, user, side, orderType, tif, price, quantity, remaining, timestamp⟩ :=
    order
  by_cases htif : tif = .iocBudget ∨ tif = .fokBudget
  · simp only [vet, Order.rebuilt, if_pos htif]
    rfl
  · by_cases href : g.reference instrument = 0
    · simp only [vet, Order.rebuilt, if_neg htif, if_pos href]
      rfl
    · simp only [vet, Order.rebuilt, if_neg htif, if_neg href]
      cases orderType with
      | market => cases side <;> rfl
      | limit =>
        cases side <;> simp only [reduceCtorEq, if_false] <;> split <;> rfl

theorem RiskLimits.checkStatic_rebuilt (l : RiskLimits) (order : Order) :
    l.checkStatic order.rebuilt = l.checkStatic order := by
  obtain ⟨id, instrument, user, side, orderType, tif, price, quantity, remaining, timestamp⟩ :=
    order
  cases orderType with
  | limit => rfl
  | market => simp [checkStatic, Order.rebuilt]

namespace Processor

variable {p : Processor} {order : Order}

theorem vetted_rebuilt (p : Processor) (order : Order) :
    p.vetted order.rebuilt = (p.vetted order).map Order.rebuilt := by
  have hguard : (p.config.guard.elim (.ok order.rebuilt) fun guard => guard.vet order.rebuilt) =
      (p.config.guard.elim (.ok order) fun guard => guard.vet order).map Order.rebuilt := by
    cases p.config.guard with
    | none => rfl
    | some g => exact g.vet_rebuilt order
  have hstatic : (p.config.limits.elim (.ok ()) fun limits => limits.checkStatic order.rebuilt) =
      p.config.limits.elim (.ok ()) fun limits => limits.checkStatic order := by
    cases p.config.limits with
    | none => rfl
    | some l => exact l.checkStatic_rebuilt order
  rw [vetted, vetted, hguard, hstatic]
  change (if order.instrument ∈ p.halted then _ else if order.user ≠ 0 ∧ order.user ∈ p.suspended
    then _ else _) = _
  split
  · rfl
  · split
    · rfl
    · cases p.config.limits.elim (.ok ()) fun limits => limits.checkStatic order <;> rfl

/-- The checks of an order and of the one that is read back end alike. -/
theorem screen_rebuilt (p : Processor) (order : Order) :
    p.screen order.rebuilt = ((p.screen order).1, (p.screen order).2.map Order.rebuilt) := by
  rw [screen_eq, screen_eq, vetted_rebuilt]
  cases p.vetted order with
  | error reason => rfl
  | ok taken =>
    cases hlimits : p.config.limits with
    | none => simp only [capped, Except.map, hlimits]
    | some limits =>
      simp only [capped, Except.map, hlimits]
      change (if 0 < limits.maxUserOrders ∧ taken.user ≠ 0 then _ else _) = _
      split
      · change (_, if limits.maxUserOrders ≤
          (p.engineFor taken.instrument).book.userOpenOrders taken.user then _ else _) = _
        split <;> rfl
      · rfl

/-- **A portable order is processed like the one that is read back.** -/
theorem processNew_rebuilt (p : Processor) (hr : order.InRange) (h : order.Portable) :
    p.processNew order.rebuilt = p.processNew order := by
  have hok : ∀ taken, (p.screen order).2 = .ok taken → taken.Portable ∧
      (taken.orderType = .market → taken.price < 2 ^ 64 ∧ taken.quantity < 2 ^ 64) := by
    intro taken htaken
    obtain ⟨-, -, -, ⟨rfl, -⟩ | ⟨g, -, rfl⟩⟩ := screen_eq_ok htaken
    · exact ⟨h, fun _ => ⟨hr.price, hr.quantity⟩⟩
    · exact ⟨OrderType.noConfusion, OrderType.noConfusion⟩
  rw [processNew, processNew, screen_rebuilt]
  cases hscreen : (p.screen order).2 with
  | error reason =>
    rw [show p.screen order = ((p.screen order).1, .error reason) from Prod.ext rfl hscreen]
    rfl
  | ok taken =>
    obtain ⟨hportable, hrange⟩ := hok taken hscreen
    rw [show p.screen order = ((p.screen order).1, .ok taken) from Prod.ext rfl hscreen]
    change (p.screen order).1.accept taken.rebuilt = (p.screen order).1.accept taken
    have hsubmit := fun e : MatchingEngine => e.submit_rebuilt hrange hportable
    simp only [accept, hsubmit]
    rfl

/-- The command that is read back is processed alike if its order is portable. -/
theorem process_rebuilt (p : Processor) (ω : Oracle) {cmd : Command} (hr : cmd.InRange)
    (h : ∀ order, cmd = .new order → order.Portable) :
    p.process ω cmd.rebuilt = p.process ω cmd := by
  cases cmd with
  | new order =>
    have hnew := fun q : Processor => q.processNew_rebuilt hr (h order rfl)
    have hs : ∀ order, (Command.new order).Single := fun _ => trivial
    have hdedupe : p.dedupe (.new order.rebuilt) = p.dedupe (.new order) := rfl
    have happly : ∀ q : Processor, q.apply (ω []) (.new order.rebuilt) =
        q.apply (ω []) (.new order) := hnew
    rw [Command.rebuilt, process_of_single _ _ (hs _), process_of_single _ _ (hs _)]
    simp only [gated, hdedupe, happly]
  | _ => rfl

end Processor

/-! ### Orders that are not portable -/

namespace Processor

variable {order : Order}

/-- A processor with default settings, no halts and no suspensions, with the engine of one
instrument like the reference `n`, at most `k` slots in its slab, and no ids seen but `ids`. -/
structure Staged (p : Processor) (instrument : ℕ) (n : NaiveEngine) (k : ℕ) (ids : List ℕ) :
    Prop where
  config : p.config = defaultConfig
  halted : p.halted = ∅
  suspended : p.suspended = ∅
  engine : (p.engineFor instrument).Refines n
  slots : (p.engineFor instrument).book.pool.slots.length ≤ k
  seen : ∀ id ∈ p.seenCommandIds, id ∈ ids

theorem staged_fresh (instrument : ℕ) : (fresh defaultConfig).Staged instrument
    (NaiveEngine.fresh .priceTimePriority .allow) 0 [] := by
  have hengine : (fresh defaultConfig).engineFor instrument =
      MatchingEngine.fresh .priceTimePriority .allow 4096 false := by
    simp [engineFor, fresh, defaultConfig]
  refine ⟨rfl, rfl, rfl, ?_, ?_, fun id hid => (ExtTreeSet.not_mem_empty hid).elim⟩
  · rw [hengine]
    exact .fresh _ _ _ _
  · rw [hengine]
    exact Nat.le_refl 0

variable {p : Processor} {instrument k : ℕ} {n : NaiveEngine} {ids : List ℕ}

theorem accept_of_submit {e : MatchingEngine} {report : SubmitReport}
    (h : (p.engineFor order.instrument).submit order = some (e, report)) :
    ∃ p', p.accept order = some (p', p.acceptReports order e report) := by
  have hsome : (p.accept order).isSome := by
    rw [accept, onEngine, h]
    rfl
  obtain ⟨⟨p', reports⟩, haccept⟩ := isSome_iff_exists.mp hsome
  obtain ⟨e', report', hsubmit, -, rfl⟩ := accept_eq_some haccept
  cases h.symm.trans hsubmit
  exact ⟨p', haccept⟩

section

variable (h : p.Staged instrument n k ids)
include h

theorem Staged.hasRoom (hk : k + 1 < 2 ^ 32) : (p.engineFor instrument).book.HasRoom :=
  .inr (Nat.lt_of_le_of_lt (Nat.succ_le_succ h.slots) hk)

/-- A new order with an unseen id goes to the engine. -/
theorem Staged.process_new (ω : Oracle) (hid : order.id ∉ ids) :
    p.process ω (.new order) = (p.dedupe (.new order)).1.accept order := by
  have hs : (Command.new order).Single := trivial
  have hpass : (p.dedupe (.new order)).2 = none := by
    have hadvance : ∀ q : Processor, q.config = defaultConfig →
        (q.advance (.new order)).2 = none := fun q hq => by
      simp [advance, hq, defaultConfig]
    rw [dedupe]
    split
    · exact hadvance p h.config
    · have hunseen : (Command.new order).id ∉ p.seenCommandIds := fun hseen => hid (h.seen _ hseen)
      rw [if_neg hunseen]
      exact hadvance _ h.config
  obtain ⟨seen, maxNewId, maxAdminId, hdedupe⟩ := p.exists_dedupe (.new order)
  have hscreen : (p.dedupe (.new order)).1.screen order =
      ((p.dedupe (.new order)).1, .ok order) := by
    rw [hdedupe, screen]
    simp [h.halted, h.suspended, h.config, defaultConfig]
  rw [process_of_single p ω hs, gated,
    show p.dedupe (.new order) = ((p.dedupe (.new order)).1, none) from Prod.ext rfl hpass]
  change (p.dedupe (.new order)).1.processNew order = _
  rw [processNew, hscreen]

/-- Another order is staged. -/
theorem Staged.submit (hk : k + 1 < 2 ^ 32) (ω : Oracle) (hr : order.InRange)
    (hinstrument : order.instrument = instrument) (hid : order.id ∉ ids) (hadm : n.Admits order) :
    ∃ p' reports, p.process ω (.new order) = some (p', reports) ∧
      p'.Staged instrument (n.submit order).1 (k + 1) (order.id :: ids) := by
  subst hinstrument
  obtain ⟨e', hsubmit, hn'⟩ := h.engine.submit (fun _ => h.hasRoom hk) hr.price hr.quantity hadm
  have hslots := (MatchingEngine.submit_charted (h.engine.book.inv.charted h.engine.book.occupied)
    hr.price hsubmit).2.2.trans (Nat.succ_le_succ h.slots)
  rw [← engineFor_dedupe p (.new order)] at hsubmit
  obtain ⟨p', haccept⟩ := accept_of_submit hsubmit
  refine ⟨p', _, (h.process_new ω hid).trans haccept, ?_⟩
  obtain ⟨e, report, hsubmit', rfl, -⟩ := accept_eq_some haccept
  cases hsubmit.symm.trans hsubmit'
  obtain ⟨positions, hbooks⟩ := exists_books
    ((p.dedupe (.new order)).1.setEngine order.instrument e') order.instrument
    (n.submit order).2.trades
  rw [hbooks]
  have hengine : ({ (p.dedupe (.new order)).1.setEngine order.instrument e' with
      positions := positions } : Processor).engineFor order.instrument = e' :=
    engineFor_setEngine_self _ _ _
  have hseen := p.mem_seen_dedupe (.new order)
  obtain ⟨seen, maxNewId, maxAdminId, hdedupe⟩ := p.exists_dedupe (.new order)
  refine ⟨(p.config_dedupe _).trans h.config, (p.halted_dedupe _).trans h.halted, ?_, ?_, ?_,
    fun id hid => ?_⟩
  · rw [hdedupe]
    exact h.suspended
  · rw [hengine]
    exact hn'
  · rw [hengine]
    exact hslots
  · obtain hold | ⟨-, rfl⟩ := (hseen id).mp hid
    · exact mem_cons_of_mem _ (h.seen id hold)
    · exact mem_cons_self

/-- **Orders that the engine tells apart are processed differently.** -/
theorem Staged.process_ne (ω : Oracle) {order' : Order}
    (hinstrument : order.instrument = instrument) (hid : order.id ∉ ids)
    (hinstrument' : order'.instrument = instrument) (hid' : order'.id = order.id)
    {e : MatchingEngine} {report : SubmitReport}
    (hsubmit : (p.engineFor instrument).submit order = some (e, report))
    (hdiffer : ∀ e' report', (p.engineFor instrument).submit order' = some (e', report') →
      report'.status ≠ report.status) :
    p.process ω (.new order') ≠ p.process ω (.new order) := by
  subst hinstrument
  intro heq
  rw [h.process_new ω hid, h.process_new ω (hid' ▸ hid)] at heq
  rw [← engineFor_dedupe p (.new order)] at hsubmit
  obtain ⟨p₁, haccept⟩ := accept_of_submit hsubmit
  rw [haccept] at heq
  obtain ⟨e', report', hsubmit', -, hreports⟩ := accept_eq_some heq
  rw [hinstrument', engineFor_dedupe] at hsubmit'
  have hlast := congrArg List.getLast? hreports
  simp only [acceptReports, getLast?_append, getLast?_singleton, some_or] at hlast
  refine hdiffer e' report' hsubmit' ?_
  generalize report'.status = status' at hlast
  generalize report.status = status at hlast
  cases status <;> cases status' <;> first | rfl | cases hlast

end

end Processor

/-! ### Books that tell the prices apart -/

/-- A price-time book that allows self-trades and holds on side `s` one level for each of
`levels`, a price with its total quantity, best price first, on the other side nothing, and no
ids but `ids`. -/
structure NaiveEngine.Quoted (n : NaiveEngine) (s : Side) (levels : List (ℕ × ℕ)) (ids : List ℕ) :
    Prop where
  strategy : n.strategy = .priceTimePriority
  stp : n.stp = .allow
  rungs : (n.book s).rungs.map (fun e => (e.1, totalQty e.2)) = levels
  empty : (n.book s.opposite).rungs = []
  ids : ∀ id ∈ n.book.ids, id ∈ ids

/-- A good-till-cancel limit order. -/
def quoteOf (id instrument : ℕ) (s : Side) (level : ℕ × ℕ) : Order :=
  ⟨id, instrument, 0, s, .limit, .gtc, level.1, level.2, level.2, 0⟩

namespace NaiveEngine.Quoted

variable {n : NaiveEngine} {s : Side} {levels : List (ℕ × ℕ)} {ids : List ℕ}

theorem fresh (s : Side) : (NaiveEngine.fresh .priceTimePriority .allow).Quoted s [] [] :=
  ⟨rfl, rfl, rfl, rfl, nofun⟩

/-- A quote at a better price than those of the book rests on a level of its own. -/
theorem quote (h : n.Quoted s levels ids) {level : ℕ × ℕ} {id instrument : ℕ}
    (hbetter : ∀ l ∈ levels, s.better level.1 l.1) (hqty : level.2 ≠ 0) :
    (n.submit (quoteOf id instrument s level)).1.Quoted s (level :: levels) (id :: ids) := by
  have hfront : ∀ o : Order, ((n.book s).push level.1 o).rungs =
      (level.1, [o]) :: (n.book s).rungs := by
    intro o
    change Ladder.pushIn s.better level.1 o (n.book s).rungs = _
    have hrungs := h.rungs
    generalize (n.book s).rungs = rungs at hrungs ⊢
    cases rungs with
    | nil => rfl
    | cons e rest =>
      have he : s.better level.1 e.1 := hbetter (e.1, totalQty e.2) (by simp [← hrungs])
      have hne : level.1 ≠ e.1 := fun heq => Std.Irrefl.irrefl (r := s.better) _ (heq ▸ he)
      rw [Ladder.pushIn, if_neg hne, if_pos he]
  rw [n.submit_rest h.empty rfl rfl hqty]
  have hside : ((n.book.push (n.stampOrder (quoteOf id instrument s level))) s).rungs =
      (level.1, [n.stampOrder (quoteOf id instrument s level)]) :: (n.book s).rungs := by
    rw [NaiveBook.push,
      if_pos (show s = (n.stampOrder (quoteOf id instrument s level)).side from rfl)]
    exact hfront _
  have hother : ((n.book.push (n.stampOrder (quoteOf id instrument s level))) s.opposite) =
      n.book s.opposite := if_neg (by cases s <;> exact Side.noConfusion)
  refine ⟨h.strategy, h.stp, ?_, ?_, fun i hi => ?_⟩
  · change List.map _ ((n.book.push (n.stampOrder (quoteOf id instrument s level))) s).rungs = _
    rw [hside, map_cons, h.rungs]
    simp [totalQty, stampOrder, quoteOf]
  · exact (congrArg Ladder.rungs hother).trans h.empty
  · obtain rfl | hold := mem_cons.mp (NaiveBook.ids_push_subset hi)
    · exact mem_cons_self
    · exact mem_cons_of_mem _ (h.ids i hold)

/-- What an order reaches of the levels. -/
theorem crossableQty (h : n.Quoted s levels ids) {aggressor : Side} (hs : aggressor.opposite = s)
    (limit : ℕ) : n.book.crossableQty aggressor limit =
      ((levels.filter fun l => reaches aggressor limit l.1).map Prod.snd).sum := by
  subst hs
  rw [NaiveBook.crossableQty, ← h.rungs, List.filter_map, List.map_map]
  rfl

/-- A quote on a new level fits into the machine integers of the source. -/
theorem admits_quote (h : n.Quoted s levels ids) {level : ℕ × ℕ} {id instrument : ℕ}
    (hid : id ∉ ids) (hbetter : ∀ l ∈ levels, s.better level.1 l.1) (hqty : level.2 < 2 ^ 64)
    (hr : n.book.Realized) : n.Admits (quoteOf id instrument s level) := by
  refine n.admits_of hr _ (fun _ _ => ⟨fun hmem => hid (h.ids id hmem), ?_⟩) ?_
  · have hqueue : n.book.queue s level.1 = [] := by
      refine Ladder.queueIn_of_notMem fun e he heq => ?_
      have hl : s.better level.1 e.1 :=
        hbetter (e.1, totalQty e.2) (h.rungs ▸ List.mem_map_of_mem he)
      exact Std.Irrefl.irrefl (r := s.better) _ (heq ▸ hl)
    change totalQty (n.book.queue s level.1) + level.2 < 2 ^ 64
    rw [hqueue]
    simpa [totalQty] using hqty
  · rintro (hfok | hfok) <;> cases hfok

end NaiveEngine.Quoted

namespace NaiveEngine

variable {n : NaiveEngine} {order : Order} {ids : List ℕ}

/-- The submission of an order succeeds, and the one that is read back aborts or ends in another
status. -/
def Tells (n : NaiveEngine) (order : Order) : Prop :=
  n.Admits order ∧
    (n.Admits order.rebuilt → (n.submit order.rebuilt).2.status ≠ (n.submit order).2.status)

/-- A market order does not rest. -/
theorem restInBounds_market (hmarket : order.orderType = .market) : n.RestInBounds order := by
  rintro ⟨order', budget⟩ hb - c stopped hx ⟨-, -, hlimit, -⟩
  obtain ⟨hsame, -, -⟩ := n.stamped.cross_order order' budget
  rw [hx] at hsame
  have htype : c.order.orderType = .market := by
    rw [hsame]
    exact (applyBudget_keeps hb).2.2.1.trans hmarket
  cases hlimit.symm.trans htype

/-- A fill-or-kill market order reaches 2^64 - 1 lots, the one that is read back one more. -/
theorem Quoted.tells_fok {limit worse : ℕ}
    (h : n.Quoted order.side.opposite [(limit, 2 ^ 64 - 1), (worse, 1)] ids)
    (hmarket : order.orderType = .market)
    (hworse : reaches order.side limit worse = false)
    (hall : reaches order.side order.side.marketPrice limit = true ∧
      reaches order.side order.side.marketPrice worse = true)
    (hbudget : n.stamped.applyBudget (n.stampOrder order) =
      some ({ n.stampOrder order with price := limit, tif := .fok }, 2 ^ 128 - 1))
    (hbudget' : n.stamped.applyBudget (n.stampOrder order.rebuilt) =
      some ({ n.stampOrder order with price := order.side.marketPrice, tif := .fok },
        2 ^ 128 - 1)) : n.Tells order := by
  refine ⟨⟨fun r hb _ => ?_, restInBounds_market hmarket⟩, fun hadm => ?_⟩
  · rw [hbudget] at hb
    cases hb
    change n.book.crossableQty order.side limit < 2 ^ 64
    have hself : reaches order.side limit limit = true := by cases order.side <;> simp [reaches]
    rw [h.crossableQty rfl]
    simp [hself, hworse]
  · have habove := hadm.1 _ hbudget' rfl
    change n.book.crossableQty order.side order.side.marketPrice < 2 ^ 64 at habove
    rw [h.crossableQty rfl] at habove
    simp [hall.1, hall.2] at habove

/-- A purchase with a budget too small for the last lot is not filled, the one that is read back
is. -/
theorem Quoted.tells_budgetBuy {levels : List (ℕ × ℕ)} (h : n.Quoted .sell levels ids)
    (hr : n.book.Realized) (hmarket : order.orderType = .market)
    (htif : order.tif = .iocBudget ∨ order.tif = .fokBudget)
    (hside : order.side = .buy) (hprice : order.price < priceMax) (hqty : order.quantity ≠ 0)
    (hlevels : levels = if order.quantity = 1 then [(priceMax, 1)]
      else [(0, order.quantity - 1), (priceMax, 1)]) : n.Tells order := by
  have hcost : sweepCost order.quantity (n.book .sell).rungs = (0, priceMax) := by
    have hrungs := h.rungs
    rw [hlevels] at hrungs
    generalize (n.book .sell).rungs = rungs at hrungs
    split at hrungs
    · rename_i hone
      obtain ⟨e, rest, rfl, he, hrest⟩ := map_eq_cons_iff.mp hrungs
      obtain rfl := map_eq_nil_iff.mp hrest
      obtain ⟨hpx, htotal⟩ := Prod.mk.inj he
      simp [sweepCost, hone, hpx, htotal]
    · obtain ⟨e, rest, rfl, he, hrest⟩ := map_eq_cons_iff.mp hrungs
      obtain ⟨e', rest', rfl, he', hrest'⟩ := map_eq_cons_iff.mp hrest
      obtain rfl := map_eq_nil_iff.mp hrest'
      obtain ⟨hpx, htotal⟩ := Prod.mk.inj he
      obtain ⟨hpx', htotal'⟩ := Prod.mk.inj he'
      have hleft : order.quantity - (order.quantity - 1) = 1 := by omega
      simp [sweepCost, hpx, htotal, hpx', htotal', hleft]
  have hprice' : order.rebuilt.price = priceMax := by
    simp [Order.rebuilt, hmarket, hside, Side.marketPrice]
  have haff : Affords order.rebuilt (n.book .sell).rungs := by
    rw [Affords, hprice']
    change (sweepCost order.quantity _).1 = 0 ∧ (sweepCost order.quantity _).2 ≤ priceMax
    rw [hcost]
    exact ⟨rfl, le_rfl⟩
  have hfilled := (@submit_buy_filled order.rebuilt n hr h.stp hside htif).2
    (by rw [hprice']; decide) haff
  refine ⟨n.admits_budgetBuy hside htif, fun _ heq => ?_⟩
  have hcovered := (n.submit_buy_filled hr h.stp hside htif).1 (heq.symm.trans hfilled)
  rw [Affords, hcost] at hcovered
  exact Nat.not_le.mpr hprice hcovered.2

end NaiveEngine

namespace Processor

variable {order : Order}

/-- **Any levels can be staged** by a sequence of orders that leaves the id `avoid` unused. -/
theorem exists_staged (ω : Oracle) {instrument : ℕ} (hinstrument : instrument < 2 ^ 32) (avoid : ℕ)
    (s : Side) {levels : List (ℕ × ℕ)} (hsorted : levels.Pairwise fun l l' => s.better l.1 l'.1)
    (hrange : ∀ l ∈ levels, l.1 < 2 ^ 64 ∧ l.2 ≠ 0 ∧ l.2 < 2 ^ 64)
    (hlength : levels.length + 1 < 2 ^ 32) :
    ∃ cmds p reports n ids, (∀ c ∈ cmds, Command.InRange c) ∧
      (fresh defaultConfig).processAll ω 0 cmds = some (p, reports) ∧
      p.Staged instrument n levels.length ids ∧ n.Quoted s levels ids ∧
      ids.length = levels.length ∧ avoid ∉ ids := by
  induction levels with
  | nil =>
    exact ⟨[], _, [], _, [], fun c hc => (not_mem_nil hc).elim, rfl, staged_fresh instrument,
      .fresh s, rfl, not_mem_nil⟩
  | cons level levels ih =>
    obtain ⟨hbetter, hsorted⟩ := pairwise_cons.mp hsorted
    obtain ⟨hlevel, hrange⟩ := forall_mem_cons.mp hrange
    rw [length_cons] at hlength
    obtain ⟨cmds, p, reports, n, ids, hin, hrun, hstaged, hquoted, hids, havoid⟩ :=
      ih hsorted hrange (by omega)
    -- an id that is neither in use nor the one to avoid
    obtain ⟨id, hid, hfresh⟩ : ∃ id < 2 ^ 64, id ∉ avoid :: ids := by
      have hcard : (avoid :: ids).toFinset.card < (Finset.range (2 ^ 64)).card := by
        rw [Finset.card_range]
        have := toFinset_card_le (avoid :: ids)
        rw [length_cons] at this
        omega
      obtain ⟨id, hid, hfresh⟩ := Finset.exists_mem_notMem_of_card_lt_card hcard
      exact ⟨id, Finset.mem_range.mp hid, by simpa using hfresh⟩
    rw [mem_cons, not_or] at hfresh
    obtain ⟨hne, hnew⟩ := hfresh
    have horder : (quoteOf id instrument s level).InRange :=
      ⟨hid, hinstrument, by norm_num [quoteOf], hlevel.1, hlevel.2.2, hlevel.2.2,
        by norm_num [quoteOf]⟩
    obtain ⟨p', reports', hprocess, hstaged'⟩ := hstaged.submit (by omega) (ω.at (0 + cmds.length))
      horder rfl hnew (hquoted.admits_quote hnew hbetter hlevel.2.2 ⟨_, hstaged.engine.book⟩)
    refine ⟨cmds ++ [.new (quoteOf id instrument s level)], p', reports ++ reports', _, id :: ids,
      ?_, ?_, hstaged', hquoted.quote hbetter hlevel.2.1, by simp [hids], ?_⟩
    · intro c hc
      obtain hc | hc := mem_append.mp hc
      · exact hin c hc
      · rw [mem_singleton.mp hc]
        exact horder
    · rw [processAll_append, hrun]
      rw [bind_some, processAll_cons, hprocess]
      simp [processAll]
    · rw [mem_cons, not_or]
      exact ⟨fun heq => hne heq.symm, havoid⟩

/-- A state that a processor with default settings reaches tells two commands apart. -/
def ToldApart (cmd cmd' : Command) : Prop :=
  ∃ ω cmds p reports, (∀ c ∈ cmds, Command.InRange c) ∧
    (fresh defaultConfig).processAll ω 0 cmds = some (p, reports) ∧
    ∀ ω', p.process ω' cmd ≠ p.process ω' cmd'

/-- **A book that tells an order from the one that is read back** can be staged. -/
theorem toldApart_of_tells (hr : order.InRange) (s : Side) (levels : List (ℕ × ℕ))
    (hsorted : levels.Pairwise fun l l' => s.better l.1 l'.1)
    (hrange : ∀ l ∈ levels, l.1 < 2 ^ 64 ∧ l.2 ≠ 0 ∧ l.2 < 2 ^ 64)
    (hlength : levels.length + 1 < 2 ^ 32)
    (htells : ∀ n ids, NaiveEngine.Quoted n s levels ids → n.book.Realized → n.Tells order) :
    ToldApart (.new order.rebuilt) (.new order) := by
  let ω : Oracle := fun _ => default
  obtain ⟨cmds, p, reports, n, ids, hin, hrun, hstaged, hquoted, -, hid⟩ :=
    exists_staged ω hr.instrument order.id s hsorted hrange hlength
  obtain ⟨hadm, hstatus⟩ := htells n ids hquoted ⟨_, hstaged.engine.book⟩
  have hroom := hstaged.hasRoom hlength
  obtain ⟨e, hsubmit, -⟩ := hstaged.engine.submit (fun _ => hroom) hr.price hr.quantity hadm
  refine ⟨ω, cmds, p, reports, hin, hrun, fun ω' => ?_⟩
  refine hstaged.process_ne ω' rfl hid rfl rfl hsubmit fun e' report' hsubmit' => ?_
  have hprice : order.rebuilt.price < 2 ^ 64 := by
    rw [Order.rebuilt]
    dsimp only
    split
    · cases order.side <;> norm_num [Side.marketPrice, priceMax]
    · exact hr.price
  obtain ⟨rfl, -, hadm'⟩ := hstaged.engine.of_submit (fun _ => hroom) hprice hr.quantity hsubmit'
  exact hstatus hadm'

/-- A fill-or-kill limit other than the sentinel. -/
theorem toldApart_fok (hr : order.InRange) (hmarket : order.orderType = .market) {limit : ℕ}
    (hlimit : limit < 2 ^ 64) (hne : limit ≠ order.side.marketPrice)
    (hbudget : ∀ n : NaiveEngine, n.stamped.applyBudget (n.stampOrder order) =
      some ({ n.stampOrder order with price := limit, tif := .fok }, 2 ^ 128 - 1))
    (hbudget' : ∀ n : NaiveEngine, n.stamped.applyBudget (n.stampOrder order.rebuilt) =
      some ({ n.stampOrder order with price := order.side.marketPrice, tif := .fok },
        2 ^ 128 - 1)) :
    ToldApart (.new order.rebuilt) (.new order) := by
  -- one lot at the next price that the limit does not reach
  obtain ⟨worse, hworse, hbetter, hreach, hall⟩ : ∃ worse < 2 ^ 64,
      order.side.opposite.better limit worse ∧ reaches order.side limit worse = false ∧
      reaches order.side order.side.marketPrice limit = true ∧
      reaches order.side order.side.marketPrice worse = true := by
    cases hside : order.side with
    | buy =>
      rw [hside] at hne
      have hne : limit ≠ 2 ^ 64 - 1 := hne
      refine ⟨limit + 1, by omega, lt_add_one limit, ?_, ?_, ?_⟩
      · simp [reaches]
      · exact decide_eq_true (Nat.le_sub_one_of_lt hlimit)
      · exact decide_eq_true (show limit + 1 ≤ 2 ^ 64 - 1 by omega)
    | sell =>
      rw [hside] at hne
      have hne : limit ≠ 0 := hne
      refine ⟨limit - 1, by omega, Nat.sub_one_lt hne, ?_, ?_, ?_⟩
      · exact decide_eq_false (by omega)
      · exact decide_eq_true (Nat.zero_le limit)
      · exact decide_eq_true (Nat.zero_le (limit - 1))
  refine toldApart_of_tells hr order.side.opposite [(limit, 2 ^ 64 - 1), (worse, 1)] ?_ ?_
    (by norm_num) fun n ids hquoted _ =>
      hquoted.tells_fok hmarket hreach hall (hbudget n) (hbudget' n)
  · exact pairwise_pair.mpr hbetter
  · intro l hl
    obtain rfl | rfl : l = (limit, 2 ^ 64 - 1) ∨ l = (worse, 1) := by simpa using hl
    · exact ⟨hlimit, by norm_num, by norm_num⟩
    · exact ⟨hworse, by norm_num, by norm_num⟩

/-- A purchase with a budget other than the sentinel. -/
theorem toldApart_budgetBuy (hr : order.InRange) (hmarket : order.orderType = .market)
    (htif : order.tif = .iocBudget ∨ order.tif = .fokBudget) (hside : order.side = .buy)
    (hne : ¬ (order.price = priceMax ∨ order.quantity = 0)) :
    ToldApart (.new order.rebuilt) (.new order) := by
  obtain ⟨hprice, hqty⟩ := not_or.mp hne
  refine toldApart_of_tells hr .sell (if order.quantity = 1 then [(priceMax, 1)]
    else [(0, order.quantity - 1), (priceMax, 1)]) ?_ ?_ ?_ fun n ids hquoted hreal =>
      hquoted.tells_budgetBuy hreal hmarket htif hside ?_ hqty rfl
  · split
    · exact pairwise_singleton _ _
    · exact pairwise_pair.mpr (show 0 < priceMax by decide)
  · have hlot : priceMax < 2 ^ 64 ∧ 1 ≠ 0 ∧ 1 < 2 ^ 64 := by decide
    have hqty' : order.quantity - 1 < 2 ^ 64 := Nat.lt_of_le_of_lt (Nat.sub_le _ _) hr.quantity
    intro l hl
    split at hl
    · rw [mem_singleton.mp hl]
      exact hlot
    · obtain rfl | rfl : l = (0, order.quantity - 1) ∨ l = (priceMax, 1) := by simpa using hl
      · exact ⟨by norm_num, by omega, hqty'⟩
      · exact hlot
  · split <;> norm_num
  · exact Nat.lt_of_le_of_ne (Nat.le_sub_one_of_lt hr.price) hprice

/-- **Every order that is not portable is told from the one that is read back.** -/
theorem toldApart_rebuilt (hr : order.InRange) (h : ¬ order.Portable) :
    ToldApart (.new order.rebuilt) (.new order) := by
  have hmarket : order.orderType = .market := by
    by_contra hlimit
    exact h fun hmarket => (hlimit hmarket).elim
  have hprice := fun hp => h fun _ => hp
  obtain ⟨id, instrument, user, side, orderType, tif, price, quantity, remaining, timestamp⟩ :=
    order
  cases hmarket
  cases tif with
  | gtc | ioc => exact (hprice trivial).elim
  | fok => exact toldApart_fok hr rfl hr.price hprice (fun _ => rfl) fun _ => rfl
  | iocBudget =>
    cases side with
    | sell => exact (hprice trivial).elim
    | buy => exact toldApart_budgetBuy hr rfl (.inl rfl) rfl hprice
  | fokBudget =>
    cases side with
    | sell =>
      have hfloor : MatchingEngine.budgetFloor price quantity ≠ 0 := fun hzero =>
        hprice ((budgetFloor_eq_zero hr.price hr.quantity).mp hzero)
      have hzero : MatchingEngine.budgetFloor 0 quantity = 0 :=
        (budgetFloor_eq_zero (by norm_num) hr.quantity).mpr (.inl rfl)
      refine toldApart_fok hr rfl ?_ hfloor (fun _ => rfl) fun n => ?_
      · exact Nat.lt_of_le_of_lt (Nat.div_le_self _ _) (Nat.mod_lt _ (Nat.two_pow_pos 64))
      · change some (Order.mk id instrument user .sell .market .fok
          (MatchingEngine.budgetFloor 0 quantity) quantity quantity _, _) = _
        rw [hzero]
        rfl
    | buy => exact toldApart_budgetBuy hr rfl (.inr rfl) rfl hprice

/-- **What a frame keeps of the behaviour of a command.** The command that is read back is
processed alike in all states that a processor reaches, with any settings and whatever the
iteration order of the maps, exactly if the command is not a new order that is not portable. -/
theorem wire_faithful (cmd : Command) (hs : cmd.Single) (hr : cmd.InRange) :
    (∃ cmd', (encodeCommand cmd).toCommand = some cmd' ∧
      ∀ config ω cmds p reports, (∀ c ∈ cmds, Command.InRange c) →
        (fresh config).processAll ω 0 cmds = some (p, reports) →
          ∀ ω', p.process ω' cmd' = p.process ω' cmd) ↔
      ∀ order, cmd = .new order → order.Portable := by
  constructor
  · rintro ⟨cmd', hread, hall⟩ order rfl
    obtain rfl := some.inj ((Frame.toCommand_encode hs hr).symm.trans hread)
    by_contra hportable
    obtain ⟨ω, cmds, p, reports, hin, hrun, hne⟩ := toldApart_rebuilt hr hportable
    exact hne ω (hall _ ω cmds p reports hin hrun ω)
  · intro hportable
    refine ⟨cmd.rebuilt, Frame.toCommand_encode hs hr, ?_⟩
    intro config ω cmds p reports _ _ ω'
    exact p.process_rebuilt ω' hr hportable

/-- A market order without a budget. -/
theorem wire_faithful_marketOrder :
    ∃ cmd', (encodeCommand (.new (Order.market 2 .sell 5))).toCommand = some cmd' ∧
      ∀ config ω cmds p reports, (∀ c ∈ cmds, Command.InRange c) →
        (fresh config).processAll ω 0 cmds = some (p, reports) →
          ∀ ω', p.process ω' cmd' = p.process ω' (.new (Order.market 2 .sell 5)) := by
  have hr : (Command.new (Order.market 2 .sell 5)).InRange := by
    change (Order.market 2 .sell 5).InRange
    decide
  have hs : (Command.new (Order.market 2 .sell 5)).Single := trivial
  refine (wire_faithful _ hs hr).mpr fun order h => ?_
  cases h
  exact fun _ => trivial

/-- A purchase of five lots for at most 100. -/
def budgetBuy : Order := { Order.market 2 .buy 5 with tif := .iocBudget, price := 100 }

/-- With five lots offered at 60, the purchase takes one lot, and the one that is read back from
its frame takes all five. -/
theorem budget_lost :
    (encodeCommand (.new budgetBuy)).toCommand = some (.new budgetBuy.rebuilt) ∧
    ((fresh defaultConfig).processAll default 0
      [.new (Order.limit 1 .sell 60 5), .new budgetBuy]).map Prod.snd =
        some [.accepted 0 1, .resting 0 1, .accepted 0 2, .trade 0 2 1 .buy 60 1 0 0,
          .partiallyFilled 0 2 1] ∧
    ((fresh defaultConfig).processAll default 0
      [.new (Order.limit 1 .sell 60 5), .new budgetBuy.rebuilt]).map Prod.snd =
        some [.accepted 0 1, .resting 0 1, .accepted 0 2, .trade 0 2 1 .buy 60 5 0 0,
          .filled 0 2] := by
  have hs : (Command.new budgetBuy).Single := trivial
  have hr : (Command.new budgetBuy).InRange := by
    change budgetBuy.InRange
    decide
  exact ⟨Frame.toCommand_encode hs hr, by decide +kernel, by decide +kernel⟩

end Processor

end TradeCore
