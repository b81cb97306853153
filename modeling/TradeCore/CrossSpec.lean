import TradeCore.Engine
import TradeCore.StrategySpec

/-!
# What One Turn of the Crossing Loop Does

`execute` turns the allocations of a level into trades, and the strategies never hand it an
empty allocation, so its effect is a plain sum over the allocations. `crossPass_cases` says
once what a turn of the loop can do; every property of the loop is an induction over it.
-/

namespace TradeCore

open Std List Option

/-- The trade that an allocation prints. -/
def tradeOf (seq : ℕ) (order : Order) (px : ℕ) (view : List RestingOrder) (a : Allocation) :
    Trade :=
  { taker := order.id, maker := a.id, aggressor := order.side, price := px
    quantity := a.qty, timestamp := seq
    makerUser := ((view[a.idx]?).map RestingOrder.user).getD 0, takerUser := order.user }

/-- The fill that an allocation applies. -/
def fillOf (a : Allocation) : ℕ × ℕ := (a.id, a.qty)

section Execute

variable {seq px : ℕ} {order : Order} {view : List RestingOrder} {allocs : List Allocation}
  {x x' : Execution}

/-- **The allocation loop in closed form.** -/
theorem execute_eq (hpos : ∀ a ∈ allocs, 0 < a.qty)
    (h : execute seq order px view allocs x = some x') :
    x' = { trades := x.trades ++ allocs.map (tradeOf seq order px view)
           remaining := x.remaining - allocated allocs
           budgetLeft := x.budgetLeft - px * allocated allocs
           fills := x.fills ++ allocs.map fillOf } := by
  induction allocs generalizing x with
  | nil =>
    obtain rfl : x = x' := by simpa [execute] using h
    simp
  | cons a allocs ih =>
    have ha : a.qty ≠ 0 := (hpos a mem_cons_self).ne'
    simp only [execute, if_neg ha, bind, bind_eq_some_iff] at h
    obtain ⟨maker, hmaker, h⟩ := h
    rw [ih (fun a ha => hpos a (mem_cons_of_mem _ ha)) h]
    simp only [allocated_cons, mul_add, Nat.sub_sub, append_assoc, map_cons,
      singleton_append, tradeOf, hmaker, map_some, getD_some, fillOf]

/-- The allocation loop aborts only on a position outside the view. -/
theorem exists_execute (hidx : ∀ a ∈ allocs, ∃ r, view[a.idx]? = some r) :
    ∃ x', execute seq order px view allocs x = some x' := by
  induction allocs generalizing x with
  | nil => exact ⟨x, rfl⟩
  | cons a allocs ih =>
    have hrest : ∀ a ∈ allocs, ∃ r, view[a.idx]? = some r :=
      fun a ha => hidx a (mem_cons_of_mem _ ha)
    obtain ⟨r, hr⟩ := hidx a mem_cons_self
    rw [execute]
    split
    · exact ih hrest
    · simp only [hr, bind, bind_some]
      exact ih hrest

end Execute

/-! ### The turns of the loop -/

/-- A budget that covers the remaining quantity at the highest price does not bind. -/
theorem affordable_of_le {budget remaining px : ℕ} (h : (2 ^ 64 - 1) * remaining ≤ budget)
    (hpx : px < 2 ^ 64) : affordable budget remaining px = remaining := by
  have hle : remaining ≤ budget / max px 1 := by
    rw [Nat.le_div_iff_mul_le (by omega)]
    calc remaining * max px 1 ≤ remaining * (2 ^ 64 - 1) := Nat.mul_le_mul_left _ (by omega)
      _ = (2 ^ 64 - 1) * remaining := mul_comm _ _
      _ ≤ budget := h
  rw [affordable]
  omega

/-- What the crossing loop changes of the order: its remaining quantity. -/
def SameOrder (order order' : Order) : Prop :=
  order' = { order with remaining := order'.remaining }

theorem SameOrder.trans {o₁ o₂ o₃ : Order} (h : SameOrder o₁ o₂) (h' : SameOrder o₂ o₃) :
    SameOrder o₁ o₃ := by
  rw [SameOrder, h', h]

section Pass

variable {strategy : Strategy} {stp : SelfTradePolicy} {seq lots : ℕ} {c c' : Cross} {flow : Flow}

/-- The state after filling the allocations `allocs` of a level. -/
def Cross.filled (c : Cross) (seq px : ℕ) (view : List RestingOrder) (allocs : List Allocation)
    (book : OrderBook) : Cross :=
  { book := book
    order := { c.order with remaining := c.order.remaining - allocated allocs }
    trades := c.trades ++ allocs.map (tradeOf seq c.order px view)
    budgetLeft := c.budgetLeft - px * allocated allocs
    stpCancelled := c.stpCancelled }

/-- The part of a turn after self-trade prevention: the level trades and the loop goes
on. -/
theorem crossFill_cases {px : ℕ} {view : List RestingOrder} (hpos : ∀ r ∈ view, 0 < r.remaining)
    (hsum : viewTotal view < 2 ^ 64) (hview : view ≠ []) (hlots : 0 < lots)
    (h : crossFill strategy seq px lots view c = some (flow, c')) :
    ∃ book, c.book.applyFills c.order.side.opposite px
        ((strategy.allocate view lots).map fillOf) = some book ∧
      flow = .continue ∧ c' = c.filled seq px view (strategy.allocate view lots) book := by
  have hne := allocate_ne_nil strategy (fun _ => hsum) hpos hview hlots
  simp only [crossFill, if_neg hne, bind, bind_eq_some_iff] at h
  obtain ⟨x, hx, h⟩ := h
  have hx' := execute_eq (fun a ha => allocate_pos strategy (fun _ => hsum) hpos ha) hx
  have hfills : x.fills ≠ [] := by
    rw [hx']
    simpa using hne
  simp only [if_neg hfills, bind_eq_some_iff, Option.pure_def, some.injEq, Prod.mk.injEq] at h
  obtain ⟨book, hbook, rfl, rfl⟩ := h
  rw [hx'] at hbook
  refine ⟨book, by simpa using hbook, rfl, ?_⟩
  rw [hx']
  rfl

/-- The same, forwards: the level trades when its fills are accepted. -/
theorem crossFill_eq {px : ℕ} {view : List RestingOrder} {book : OrderBook}
    (hpos : ∀ r ∈ view, 0 < r.remaining) (hsum : viewTotal view < 2 ^ 64)
    (hlen : view.length ≤ 2 ^ 32) (hview : view ≠ []) (hlots : 0 < lots)
    (hbook : c.book.applyFills c.order.side.opposite px
      ((strategy.allocate view lots).map fillOf) = some book) :
    crossFill strategy seq px lots view c =
      some (.continue, c.filled seq px view (strategy.allocate view lots) book) := by
  have hne := allocate_ne_nil strategy (fun _ => hsum) hpos hview hlots
  obtain ⟨x, hx⟩ := @exists_execute seq px c.order view (strategy.allocate view lots)
    { trades := c.trades, remaining := c.order.remaining, budgetLeft := c.budgetLeft, fills := [] }
    fun a ha => (allocate_names strategy (fun _ => hsum) hpos hlen ha).imp fun _ hr => hr.1
  have hx' := execute_eq (fun a ha => allocate_pos strategy (fun _ => hsum) hpos ha) hx
  have hfills : x.fills ≠ [] := by
    rw [hx']
    simpa using hne
  simp only [crossFill, if_neg hne, bind, hx, bind_some, if_neg hfills]
  rw [hx', nil_append, hbook]
  rfl

/-- What a turn can do on the view of the best level, once the level is compacted. -/
def LevelTurn (strategy : Strategy) (stp : SelfTradePolicy) (seq px lots : ℕ)
    (view : List RestingOrder) (c : Cross) (book : OrderBook) (flow : Flow) (c' : Cross) : Prop :=
  (ownInView stp c.order view ∧ ∃ book' ids,
      cancelOwn c.order.user view book c.stpCancelled = some (book', ids) ∧
      (stp = .cancelMaker ∧ flow = .continue ∨ stp = .cancelBoth ∧ flow = .takerStopped) ∧
      c' = { c with book := book', stpCancelled := ids }) ∨
    (ownInView stp c.order view ∧ stp = .cancelTaker ∧ flow = .takerStopped ∧
      c' = { c with book := book }) ∨
    (¬ ownInView stp c.order view ∧ view = [] ∧ flow = .continue ∧ c' = { c with book := book }) ∨
    (¬ ownInView stp c.order view ∧ view ≠ [] ∧
      crossFill strategy seq px lots view { c with book := book } = some (flow, c'))

theorem levelTurn_of_crossLevel {px : ℕ} {view : List RestingOrder}
    (h : crossLevel strategy stp seq px lots view c = some (flow, c')) :
    LevelTurn strategy stp seq px lots view c c.book flow c' := by
  unfold crossLevel at h
  split at h
  · rename_i hown
    cases stp with
    | allow => exact absurd rfl hown.1
    | cancelTaker =>
      cases h
      exact .inr (.inl ⟨hown, rfl, rfl, rfl⟩)
    | cancelMaker =>
      simp only [bind, bind_eq_some_iff, Prod.exists, Option.pure_def,
        some.injEq, Prod.mk.injEq] at h
      obtain ⟨book', ids, hcancel, hflow, hc'⟩ := h
      exact .inl ⟨hown, book', ids, hcancel, .inl ⟨rfl, hflow.symm⟩, hc'.symm⟩
    | cancelBoth =>
      simp only [bind, bind_eq_some_iff, Prod.exists, Option.pure_def,
        some.injEq, Prod.mk.injEq] at h
      obtain ⟨book', ids, hcancel, hflow, hc'⟩ := h
      exact .inl ⟨hown, book', ids, hcancel, .inr ⟨rfl, hflow.symm⟩, hc'.symm⟩
  · rename_i hown
    split at h
    · rename_i hnil
      cases h
      exact .inr (.inr (.inl ⟨hown, hnil, rfl, rfl⟩))
    · rename_i hnil
      exact .inr (.inr (.inr ⟨hown, hnil, h⟩))

/-- **What a turn of the loop can do.** It ends because nothing crossable or affordable is
left, or it reads the best level and then cancels the taker's own makers, stops the taker,
finds nothing, or trades. -/
theorem crossPass_cases (h : crossPass strategy stp seq c = some (flow, c')) :
    (flow = .break ∧ c' = c ∧ (c.book.best c.order.side.opposite = none ∨
      ∃ px, c.book.best c.order.side.opposite = some px ∧ (crossable c.order px = false ∨
        affordable c.budgetLeft c.order.remaining px = 0))) ∨
    ∃ px view book, c.book.best c.order.side.opposite = some px ∧
      crossable c.order px = true ∧ 0 < affordable c.budgetLeft c.order.remaining px ∧
      levelViewFor strategy c.book c.order.side.opposite px
        (affordable c.budgetLeft c.order.remaining px) = some (view, book) ∧
      LevelTurn strategy stp seq px (affordable c.budgetLeft c.order.remaining px) view c book flow
        c' := by
  rw [crossPass] at h
  split at h
  · rename_i hbest
    cases h
    exact .inl ⟨rfl, rfl, Or.inl hbest⟩
  · rename_i px hbest
    split at h
    · rename_i hcross
      cases h
      exact .inl ⟨rfl, rfl, .inr ⟨px, hbest, Or.inl hcross⟩⟩
    · rename_i hcross
      simp only at h
      split at h
      · rename_i hlots
        cases h
        exact .inl ⟨rfl, rfl, .inr ⟨px, hbest, Or.inr hlots⟩⟩
      · rename_i hlots
        simp only [bind, bind_eq_some_iff, Prod.exists] at h
        obtain ⟨view, book, hview, h⟩ := h
        exact .inr ⟨px, view, book, hbest, by simpa using hcross,
          pos_of_ne_zero hlots, hview, levelTurn_of_crossLevel h⟩

/-- **The induction rule of the crossing loop**: what every turn keeps, the loop keeps, and it
ends with a filled order, with a turn that breaks off or with one that stops the taker. -/
theorem crossLoop_induction {n : ℕ} {c : Cross} {stopped : Bool} {P : Cross → Prop}
    (hstep : ∀ c flow c', 0 < c.order.remaining → P c →
      crossPass strategy stp seq c = some (flow, c') → P c') (h : P c)
    (hloop : crossLoop strategy stp seq n c = some (c', stopped)) :
    P c' ∧ (stopped = false ∧ c'.order.remaining = 0 ∨ ∃ c₁, 0 < c₁.order.remaining ∧ P c₁ ∧
      (stopped = false ∧ crossPass strategy stp seq c₁ = some (.break, c') ∨
        stopped = true ∧ crossPass strategy stp seq c₁ = some (.takerStopped, c'))) := by
  induction n generalizing c with
  | zero => cases hloop
  | succ n ih =>
    rw [crossLoop] at hloop
    split at hloop
    · cases hloop
      exact ⟨h, .inl ⟨rfl, ‹_›⟩⟩
    · have hrem := pos_of_ne_zero ‹_›
      simp only [bind, bind_eq_some_iff, Prod.exists] at hloop
      obtain ⟨flow, c₁, hpass, hloop⟩ := hloop
      have h₁ := hstep c flow c₁ hrem h hpass
      cases flow with
      | «break» =>
        cases hloop
        exact ⟨h₁, .inr ⟨c, hrem, h, .inl ⟨rfl, hpass⟩⟩⟩
      | takerStopped =>
        cases hloop
        exact ⟨h₁, .inr ⟨c, hrem, h, .inr ⟨rfl, hpass⟩⟩⟩
      | «continue» => exact ih h₁ hloop

/-- Filling a level changes the order only in its remaining quantity. -/
theorem crossFill_same {px : ℕ} {view : List RestingOrder}
    (h : crossFill strategy seq px lots view c = some (flow, c')) : SameOrder c.order c'.order := by
  simp only [crossFill] at h
  split at h
  · cases h
    rfl
  · obtain ⟨x, -, h⟩ := bind_eq_some_iff.mp h
    split at h
    · cases h
      rfl
    · obtain ⟨book, -, h⟩ := bind_eq_some_iff.mp h
      cases h
      rfl

theorem crossPass_same (h : crossPass strategy stp seq c = some (flow, c')) :
    SameOrder c.order c'.order := by
  obtain ⟨-, rfl, -⟩ | ⟨px, view, book, -, -, -, -, ⟨-, -, -, -, -, rfl⟩ | ⟨-, -, -, rfl⟩ |
    ⟨-, -, -, rfl⟩ | ⟨-, -, hfill⟩⟩ := crossPass_cases h
  case inr.inr.inr.inr => exact crossFill_same (c := { c with book := book }) hfill
  all_goals rfl

theorem crossLoop_same {n : ℕ} {stopped : Bool}
    (h : crossLoop strategy stp seq n c = some (c', stopped)) : SameOrder c.order c'.order :=
  (crossLoop_induction (P := fun c₁ => SameOrder c.order c₁.order)
    (fun _ _ _ _ hsame hpass => hsame.trans (crossPass_same hpass)) rfl h).1

end Pass

/-! ### Whole calls -/

namespace MatchingEngine

variable {e e' : MatchingEngine} {order : Order}

/-- The engine when a submitted order arrives. -/
def stamp (e : MatchingEngine) : MatchingEngine :=
  { e with seq := wrappingAdd 64 e.seq 1, stpCancelled := [] }

/-- **What the budget step can do**: leave the order alone, or give it another price and time in
force, never good-till-cancel. -/
theorem applyBudget_eq_some {order' : Order} {budget : ℕ}
    (h : e.applyBudget order = some (some (order', budget))) :
    ∃ price tif, order' = { order with price := price, tif := tif } ∧
      (order.tif ≠ .iocBudget → order.tif ≠ .fokBudget →
        order' = order ∧ budget = 2 ^ 128 - 1) ∧
      (order'.tif = .gtc → order' = order ∧ budget = 2 ^ 128 - 1) := by
  unfold applyBudget at h
  split at h
  case h_4 =>
    simp only [bind, bind_eq_some_iff, Prod.exists, Option.pure_def] at h
    obtain ⟨fillable, cost, -, h⟩ := h
    split at h
    · cases h
    · cases h
      exact ⟨_, _, rfl, by simp [*], by simp⟩
  all_goals
    cases h
    exact ⟨_, _, rfl, by simp [*], by simp [*]⟩

/-- **What becomes of a remainder**: it rests when it is a good-till-cancel limit order. -/
theorem finalize_eq_some {status : OrderStatus} {filled : ℕ} {resting : Bool}
    (h : e.finalize order = some (e', status, filled, resting)) :
    filled = order.quantity - order.remaining ∧
    ((e' = e ∧ resting = false ∧ status = (if order.remaining = 0 then .filled
        else if 0 < filled then .partiallyFilled else .cancelled) ∧
        (0 < order.remaining → ¬ (order.orderType = .limit ∧ order.tif = .gtc))) ∨
      (0 < order.remaining ∧ order.orderType = .limit ∧ order.tif = .gtc ∧
        (∃ book, e.book.insert order = some book ∧ e' = { e with book := book }) ∧
        resting = true ∧ status = if 0 < filled then .partiallyFilled else .resting)) := by
  rw [finalize] at h
  split at h
  · rename_i hz
    cases h
    exact ⟨rfl, .inl ⟨rfl, rfl, by rw [if_pos hz], fun hpos => by omega⟩⟩
  · rename_i hz
    split at h
    · simp only [bind, bind_eq_some_iff, Option.pure_def, some.injEq, Prod.mk.injEq] at h
      obtain ⟨book, hins, rfl, rfl, rfl, rfl⟩ := h
      exact ⟨rfl, .inr ⟨pos_of_ne_zero hz, ‹_›, ‹_›, ⟨book, hins, rfl⟩, rfl, rfl⟩⟩
    · rename_i hno
      cases h
      exact ⟨rfl, .inl ⟨rfl, rfl, by rw [if_neg hz], fun _ hc => hno hc.1 hc.2⟩⟩

/-- **What a submit can do**: reject the order, or cross it and perhaps let the remainder
rest. -/
theorem submit_eq_some {report : SubmitReport} (h : e.submit order = some (e', report)) :
    (e' = e.stamp ∧ report = (e.reject order).2) ∨
    ∃ order' budget c stopped,
      e.stamp.applyBudget { order with timestamp := e.stamp.seq, remaining := order.quantity } =
        some (some (order', budget)) ∧
      e.stamp.fokShort order' = some false ∧ e.stamp.cross order' budget = some (c, stopped) ∧
      report.orderId = order'.id ∧ report.trades = c.trades ∧
      report.filled = c.order.quantity - c.order.remaining ∧
      ((e' = { e.stamp with book := c.book, stpCancelled := c.stpCancelled } ∧
          report.resting = false ∧ report.status =
            (if stopped = false ∧ c.order.remaining = 0 then .filled
              else if 0 < report.filled then .partiallyFilled else .cancelled) ∧
          (stopped = false → 0 < c.order.remaining →
            ¬ (c.order.orderType = .limit ∧ c.order.tif = .gtc))) ∨
        (stopped = false ∧ 0 < c.order.remaining ∧ c.order.orderType = .limit ∧
          c.order.tif = .gtc ∧ (∃ book, c.book.insert c.order = some book ∧
            e' = { e.stamp with book := book, stpCancelled := c.stpCancelled }) ∧
          report.resting = true ∧
          report.status = if 0 < report.filled then .partiallyFilled else .resting)) := by
  simp only [submit, bind, bind_eq_some_iff] at h
  obtain ⟨budgeted, hbudget, h⟩ := h
  cases budgeted with
  | none =>
    cases h
    exact .inl ⟨rfl, rfl⟩
  | some ob =>
    obtain ⟨order', budget⟩ := ob
    obtain ⟨price, tif, hsame, -⟩ := applyBudget_eq_some hbudget
    simp only [bind_eq_some_iff] at h
    obtain ⟨short, hfok, h⟩ := h
    cases short with
    | true =>
      cases h
      exact .inl ⟨rfl, by rw [hsame]; rfl⟩
    | false =>
      simp only [Bool.false_eq_true, if_false, crossAndFinalize, bind, bind_eq_some_iff,
        Prod.exists] at h
      obtain ⟨c, stopped, hcross, h⟩ := h
      refine .inr ⟨order', budget, c, stopped, hbudget, hfok, hcross, ?_⟩
      split at h
      · rename_i hstop
        cases h
        exact ⟨rfl, rfl, rfl, .inl ⟨rfl, rfl, by simp [hstop], by simp [hstop]⟩⟩
      · rename_i hstop
        simp only [bind_eq_some_iff, Prod.exists, Option.pure_def, some.injEq, Prod.mk.injEq] at h
        obtain ⟨e₁, status, filled, resting, hfin, rfl, rfl⟩ := h
        obtain ⟨hfilled, hend⟩ := finalize_eq_some hfin
        have hstop : stopped = false := by simpa using hstop
        refine ⟨rfl, rfl, hfilled, ?_⟩
        rcases hend with ⟨rfl, hrest, hstatus, hno⟩ | ⟨hpos, htype, htif, hins, hrest, hstatus⟩
        · exact .inl ⟨rfl, hrest, by simpa [hstop] using hstatus, fun _ => hno⟩
        · exact .inr ⟨hstop, hpos, htype, htif, hins, hrest, hstatus⟩

end MatchingEngine

/-- The order that an amendment re-enters. -/
def Order.requote (o : Order) (newPrice newQty : ℕ) : Order :=
  { o with price := newPrice, quantity := newQty, remaining := newQty, tif := .gtc }

/-- An amendment of `id` that changes more than its size at the same price cancels and
re-enters the order found under that id. -/
def MatchingEngine.Requotes (e : MatchingEngine) (id newPrice newQty : ℕ) (o : Order) : Prop :=
  e.book.get id = some o ∧ ¬ (newPrice = o.price ∧ newQty ≤ o.remaining)

/-- **What an amendment can do**: find nothing, cancel or shrink in place, or cancel and
submit anew. -/
theorem MatchingEngine.modify_eq_some {e e' : MatchingEngine} {id newPrice newQty : ℕ}
    {outcome : ModifyOutcome} (h : e.modify id newPrice newQty = some (e', outcome)) :
    (outcome = .notFound ∧ e' = e) ∨
    (outcome = .cancelled id ∧ ∃ o book, e.book.cancel id = some (o, book) ∧
      e' = { e with book := book }) ∨
    (outcome = .reduced id newQty ∧ ∃ r book, e.book.reduce id newQty = some (r, book) ∧
      e' = { e with book := book }) ∨
    ∃ o book report, e.Requotes id newPrice newQty o ∧ e.book.cancel id = some (some o, book) ∧
      { e with book := book }.submit (o.requote newPrice newQty) = some (e', report) ∧
      outcome = .requoted report := by
  rw [modify] at h
  split at h
  · cases h
    exact .inl ⟨rfl, rfl⟩
  · rename_i slot hloc
    simp only [bind, bind_eq_some_iff] at h
    obtain ⟨existing, hget, h⟩ := h
    split at h
    · split at h
      · simp only [bind_eq_some_iff, Prod.exists, Option.pure_def, some.injEq, Prod.mk.injEq] at h
        obtain ⟨o, book, hcancel, rfl, rfl⟩ := h
        exact .inr (.inl ⟨rfl, o, book, hcancel, rfl⟩)
      · simp only [bind_eq_some_iff, Prod.exists, Option.pure_def, some.injEq, Prod.mk.injEq] at h
        obtain ⟨r, book, hreduce, rfl, rfl⟩ := h
        exact .inr (.inr (.inl ⟨rfl, r, book, hreduce, rfl⟩))
    · rename_i hchange
      simp only [bind_eq_some_iff, Prod.exists, Option.pure_def, some.injEq, Prod.mk.injEq] at h
      obtain ⟨o, book, hcancel, order, rfl, e₁, report, hsubmit, rfl, rfl⟩ := h
      obtain rfl : existing = order := by
        rw [OrderBook.cancel, hloc] at hcancel
        simp only [hget, bind, bind_some, bind_eq_some_iff, Prod.exists,
          Option.pure_def, some.injEq, Prod.mk.injEq] at hcancel
        obtain ⟨-, -, _, -, _, -, _, -, _, _, -, _, -, heq, -⟩ := hcancel
        exact heq
      refine .inr (.inr (.inr ⟨existing, book, report, ⟨?_, hchange⟩, hcancel, hsubmit, rfl⟩))
      rw [OrderBook.get, hloc]
      exact hget

end TradeCore
