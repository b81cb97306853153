import TradeCore.Lib.OptionRel
import TradeCore.Priority

/-!
# Capped and Whole Level Views

`full_level_required` tells the crossing loop whether a strategy must see all orders of the best
level. Price-time priority answers no: the loop hands it the front of the queue only, as far as
the affordable lots reach. Here the engine is taken with that answer as a parameter, and the one
that always hands out whole levels is compared with the one of the source.

* `MatchingEngine.runWith_required` — with the strategies' own answers it is the engine.
* `MatchingEngine.run_wholeLevel` — for price-time priority the answer cannot be observed, except
  that adding up a whole level may abort once the slot numbers have run out.
-/

open List Option

namespace TradeCore

variable {c : Cross} {view : List RestingOrder} {lots px seq : ℕ}

/-! ### The engine with another answer -/

section FullLevel

variable (full : Strategy → Bool)

/-- `levelViewFor`, with the answer of `full_level_required` given. -/
def levelViewWith (strategy : Strategy) (book : OrderBook) (side : Side) (px : ℕ)
    (affordable : ℕ) : Option (List RestingOrder × OrderBook) :=
  if full strategy then book.levelViewInto side px
  else book.levelViewCapped side px affordable

/-- `crossPass` on that view. -/
def crossPassWith (strategy : Strategy) (stp : SelfTradePolicy) (seq : ℕ) (c : Cross) :
    Option (Flow × Cross) :=
  match c.book.best c.order.side.opposite with
  | none => some (.break, c)
  | some px =>
    if crossable c.order px = false then some (.break, c)
    else
      let lots := affordable c.budgetLeft c.order.remaining px
      if lots = 0 then some (.break, c)
      else do
        let (view, book) ← levelViewWith full strategy c.book c.order.side.opposite px lots
        crossLevel strategy stp seq px lots view { c with book := book }

/-- `crossLoop` over those turns. -/
def crossLoopWith (strategy : Strategy) (stp : SelfTradePolicy) (seq : ℕ) :
    ℕ → Cross → Option (Cross × Bool)
  | 0, _ => none
  | n + 1, c =>
    if c.order.remaining = 0 then some (c, false)
    else do
      match ← crossPassWith full strategy stp seq c with
      | (.break, c) => pure (c, false)
      | (.takerStopped, c) => pure (c, true)
      | (.continue, c) => crossLoopWith strategy stp seq n c

namespace MatchingEngine

variable (e : MatchingEngine)

/-- `cross` by that loop. -/
def crossWith (order : Order) (budgetLeft : ℕ) : Option (Cross × Bool) :=
  crossLoopWith full e.strategy e.stp e.seq (order.remaining + e.book.len + 2)
    { book := e.book, order := order, trades := [], budgetLeft := budgetLeft
      stpCancelled := e.stpCancelled }

/-- `crossAndFinalize` after that crossing. -/
def crossAndFinalizeWith (order : Order) (budgetLeft : ℕ) :
    Option (MatchingEngine × SubmitReport) := do
  let (c, takerStopped) ← e.crossWith full order budgetLeft
  let e := { e with book := c.book, stpCancelled := c.stpCancelled }
  if takerStopped then
    let filled := c.order.quantity - c.order.remaining
    pure (e, { orderId := order.id
               status := if 0 < filled then .partiallyFilled else .cancelled
               filled := filled, trades := c.trades, resting := false })
  else
    let (e, status, filled, resting) ← e.finalize c.order
    pure (e, { orderId := order.id, status := status, filled := filled
               trades := c.trades, resting := resting })

/-- `submit` with that crossing. -/
def submitWith (order : Order) : Option (MatchingEngine × SubmitReport) := do
  let e := { e with seq := wrappingAdd 64 e.seq 1, stpCancelled := [] }
  let order := { order with timestamp := e.seq, remaining := order.quantity }
  match ← e.applyBudget order with
  | none => pure (e.reject order)
  | some (order, budgetLeft) =>
    if ← e.fokShort order then pure (e.reject order)
    else e.crossAndFinalizeWith full order budgetLeft

/-- `modify` with that submission. -/
def modifyWith (id : ℕ) (newPrice : ℕ) (newQty : ℕ) : Option (MatchingEngine × ModifyOutcome) :=
  match e.book.locate[id]? with
  | none => some (e, .notFound)
  | some slot => do
      let existing ← e.book.pool.get slot
      if newPrice = existing.price ∧ newQty ≤ existing.remaining then
        if newQty = 0 then
          let (_, book) ← e.book.cancel id
          pure ({ e with book := book }, .cancelled id)
        else
          let (_, book) ← e.book.reduce id newQty
          pure ({ e with book := book }, .reduced id newQty)
      else
        let (order, book) ← e.book.cancel id
        let order ← order
        let (e, report) ← { e with book := book }.submitWith full
          { order with price := newPrice, quantity := newQty, remaining := newQty, tif := .gtc }
        pure (e, .requoted report)

/-- `call` with that submission. -/
def callWith (ω : HashOrder) : Call → Option (MatchingEngine × Outcome)
  | .submit order => (e.submitWith full order).map fun r => (r.1, .submitted r.2)
  | .modify id newPrice newQty =>
    (e.modifyWith full id newPrice newQty).map fun r => (r.1, .modified r.2)
  | .cancel id => (e.cancel id).map fun r => (r.1, .cancelled r.2)
  | .cancelAllForUser user =>
    (e.cancelAllForUser ω user).map fun r => (r.1, .cancelledAll r.2)

/-- `run` over those calls. -/
def runWith (e : MatchingEngine) :
    List (HashOrder × Call) → Option (MatchingEngine × List Outcome)
  | [] => some (e, [])
  | (ω, call) :: calls => do
      let (e, outcome) ← e.callWith full ω call
      let (e, outcomes) ← e.runWith calls
      pure (e, outcome :: outcomes)

end MatchingEngine

end FullLevel

/-! ### The strategies' own answers -/

theorem crossPassWith_required (strategy : Strategy) (stp : SelfTradePolicy) (seq : ℕ)
    (c : Cross) :
    crossPassWith Strategy.fullLevelRequired strategy stp seq c = crossPass strategy stp seq c :=
  rfl

theorem crossLoopWith_required (strategy : Strategy) (stp : SelfTradePolicy) (seq n : ℕ)
    (c : Cross) :
    crossLoopWith Strategy.fullLevelRequired strategy stp seq n c =
      crossLoop strategy stp seq n c := by
  induction n generalizing c with
  | zero => rfl
  | succ n ih =>
    have hrest : crossLoopWith Strategy.fullLevelRequired strategy stp seq n =
        crossLoop strategy stp seq n := funext ih
    rw [crossLoopWith, hrest]
    rfl

namespace MatchingEngine

theorem submitWith_required (e : MatchingEngine) (order : Order) :
    e.submitWith Strategy.fullLevelRequired order = e.submit order := by
  simp only [submitWith, crossAndFinalizeWith, crossWith, crossLoopWith_required]
  rfl

theorem callWith_required (e : MatchingEngine) (ω : HashOrder) (c : Call) :
    e.callWith Strategy.fullLevelRequired ω c = e.call ω c := by
  cases c with
  | submit order => rw [callWith, submitWith_required, call]
  | modify id newPrice newQty =>
    simp only [callWith, modifyWith, submitWith_required]
    rfl
  | cancel id => rfl
  | cancelAllForUser user => rfl

/-- **With the strategies' own answers** this is the engine. -/
theorem runWith_required (e : MatchingEngine) (calls : List (HashOrder × Call)) :
    e.runWith Strategy.fullLevelRequired calls = e.run calls := by
  induction calls generalizing e with
  | nil => rfl
  | cons c calls ih =>
    obtain ⟨ω, c⟩ := c
    simp only [runWith, run, callWith_required, ih]

end MatchingEngine

/-! ### Whole levels -/

/-- The answer that every strategy needs the whole level. -/
def wholeLevel : Strategy → Bool := fun _ => true

/-- The rest of a view does not matter for `lots` lots: there is none, or the view has enough. -/
def Suffices (lots : ℕ) (view rest : List RestingOrder) : Prop :=
  rest = [] ∨ lots ≤ viewTotal view

/-- A view with a lower cap is the front of the view. -/
theorem viewCapped_append {pool : OrderPool} {cap cap' covered : ℕ} {slots : List ℕ}
    {whole : List RestingOrder} (hcap : cap ≤ cap')
    (h : OrderBook.viewCapped pool cap' covered slots = some whole) :
    ∃ view rest, OrderBook.viewCapped pool cap covered slots = some view ∧ whole = view ++ rest ∧
      (rest = [] ∨ cap ≤ covered + viewTotal view) := by
  induction slots generalizing covered whole with
  | nil => exact ⟨[], [], rfl, (some.inj h).symm, .inl rfl⟩
  | cons i slots ih =>
    simp only [OrderBook.viewCapped, bind, bind_eq_some_iff] at h
    obtain ⟨o, hget, h⟩ := h
    simp only [OrderBook.viewCapped, hget, bind, bind_some]
    by_cases hz : o.remaining = 0
    · rw [if_pos hz] at h
      rw [if_pos hz]
      exact ih h
    rw [if_neg hz, bind_eq_some_iff] at h
    obtain ⟨covered', hadd, h⟩ := h
    have hsum : covered' = covered + o.remaining := by
      rw [checkedAdd] at hadd
      split at hadd
      · exact (some.inj hadd).symm
      · cases hadd
    rw [if_neg hz, hadd, bind_some]
    by_cases hstop : cap ≤ covered'
    · -- the capped view ends here
      refine ⟨[o.toResting], whole.drop 1, if_pos hstop, ?_, .inr ?_⟩
      · by_cases hstop' : cap' ≤ covered'
        · rw [if_pos hstop', Option.pure_def, some.injEq] at h
          rw [← h]
          rfl
        · rw [if_neg hstop', bind_eq_some_iff] at h
          obtain ⟨out, -, h⟩ := h
          rw [← some.inj h]
          rfl
      · rw [viewTotal_cons, viewTotal_nil]
        simp only [Order.toResting]
        omega
    · rw [if_neg hstop]
      rw [if_neg (show ¬ cap' ≤ covered' by omega), bind_eq_some_iff] at h
      obtain ⟨out, hout, h⟩ := h
      obtain ⟨view, rest, hview, rfl, hrest⟩ := ih hout
      refine ⟨o.toResting :: view, rest, by rw [hview]; rfl, (some.inj h).symm, ?_⟩
      refine hrest.imp_right fun hle => ?_
      rw [viewTotal_cons]
      simp only [Order.toResting]
      omega

/-- Where the whole level can be read, the capped view is its front. -/
theorem OrderBook.levelViewCapped_append {b b' : OrderBook} {side : Side}
    {whole : List RestingOrder} (hlots : lots ≤ priceMax)
    (h : b.levelViewInto side px = some (whole, b')) :
    ∃ view rest, b.levelViewCapped side px lots = some (view, b') ∧ whole = view ++ rest ∧
      Suffices lots view rest := by
  simp only [levelViewInto, levelViewCapped, bind, bind_eq_some_iff, Prod.exists] at h ⊢
  obtain ⟨x, pool, hmaintain, h⟩ := h
  cases hget : x.get px with
  | none =>
    simp only [hget, Option.pure_def] at h
    cases h
    exact ⟨[], [], ⟨x, pool, hmaintain, by rw [hget]; rfl⟩, rfl, .inl rfl⟩
  | some lv =>
    simp only [hget, bind_eq_some_iff, Option.pure_def, some.injEq, Prod.mk.injEq] at h
    obtain ⟨out, hout, rfl, rfl⟩ := h
    obtain ⟨view, rest, hview, happ, hrest⟩ := viewCapped_append hlots hout
    rw [zero_add] at hrest
    exact ⟨view, rest, ⟨x, pool, hmaintain, by simp only [hget, hview, bind_some]; rfl⟩,
      happ, hrest⟩

/-- The sweep stops before the rest. -/
theorem priceTimeFrom_append {rest : List RestingOrder} (h : Suffices lots view rest) (i : ℕ) :
    priceTimeFrom i lots (view ++ rest) = priceTimeFrom i lots view := by
  rcases h with rfl | h
  · rw [append_nil]
  · induction view generalizing i lots with
    | nil =>
      obtain rfl : lots = 0 := Nat.le_zero.mp h
      cases rest with
      | nil => rfl
      | cons r rest => simp only [nil_append, priceTimeFrom, if_true]
    | cons r view ih =>
      rw [viewTotal_cons] at h
      rw [cons_append, priceTimeFrom, priceTimeFrom]
      by_cases hz : lots = 0
      · rw [if_pos hz, if_pos hz]
      rw [if_neg hz, if_neg hz]
      by_cases hfill : 0 < min lots r.remaining
      · simp only [if_pos hfill]
        rw [ih (i + 1) (by omega)]
      · simp only [if_neg hfill]
        exact ih (i + 1) (by omega)

/-- Allocations to the front of a view trade with the front. -/
theorem execute_append {order : Order} {allocs : List Allocation}
    (h : ∀ a ∈ allocs, a.idx < view.length) (rest : List RestingOrder) (x : Execution) :
    execute seq order px (view ++ rest) allocs x = execute seq order px view allocs x := by
  induction allocs generalizing x with
  | nil => rfl
  | cons a allocs ih =>
    have htail := ih fun a ha => h a (mem_cons_of_mem _ ha)
    simp only [execute, getElem?_append_left (h a mem_cons_self), htail]

/-- **The turn on the whole level** is the turn on its front. -/
theorem crossLevel_append {rest : List RestingOrder} (hlots : 0 < lots)
    (h : Suffices lots view rest) (c : Cross) :
    crossLevel .priceTimePriority .allow seq px lots (view ++ rest) c =
      crossLevel .priceTimePriority .allow seq px lots view c := by
  have hown : ∀ v, ¬ ownInView .allow c.order v := fun v hc => hc.1 rfl
  have hnil : view ++ rest = [] ↔ view = [] := by
    refine ⟨fun hc => (append_eq_nil_iff.mp hc).1, ?_⟩
    rintro rfl
    rcases h with rfl | h
    · rfl
    · exact absurd hlots (Nat.not_lt.mpr h)
  unfold crossLevel
  rw [if_neg (hown _), if_neg (hown _)]
  by_cases hview : view = []
  · rw [if_pos (hnil.mpr hview), if_pos hview]
  · rw [if_neg (fun hc => hview (hnil.mp hc)), if_neg hview]
    have hidx : ∀ a ∈ priceTimeFrom 0 lots view, a.idx < view.length := by
      intro a ha
      obtain ⟨-, k, r, hk, hidx, -⟩ := mem_priceTimeFrom ha
      have hlt := (List.getElem?_eq_some_iff.mp hk).1
      omega
    simp only [crossFill, Strategy.allocate, priceTimeFrom_append h, execute_append hidx rest]

/-- **One turn.** The whole level can be read in every book that keeps to its slot numbers. -/
theorem crossPassWith_wholeLevel (hrem : c.order.remaining < 2 ^ 64) :
    Option.SameUnless (¬ ∃ n, c.book.Refines n)
      (crossPassWith wholeLevel .priceTimePriority .allow seq c)
      (crossPass .priceTimePriority .allow seq c) := by
  rw [crossPassWith, crossPass]
  cases c.book.best c.order.side.opposite with
  | none => exact .of_eq rfl
  | some px =>
    simp only
    by_cases hcross : crossable c.order px = false
    · rw [if_pos hcross, if_pos hcross]
      exact .of_eq rfl
    rw [if_neg hcross, if_neg hcross]
    by_cases hlots : affordable c.budgetLeft c.order.remaining px = 0
    · rw [if_pos hlots, if_pos hlots]
      exact .of_eq rfl
    rw [if_neg hlots, if_neg hlots]
    have hle : affordable c.budgetLeft c.order.remaining px ≤ priceMax :=
      (Nat.min_le_right _ _).trans (Nat.le_sub_one_of_lt hrem)
    simp only [levelViewWith, wholeLevel, if_true, levelViewFor, Strategy.fullLevelRequired,
      Bool.false_eq_true, if_false]
    cases hwhole : c.book.levelViewInto c.order.side.opposite px with
    | none =>
      refine .inr ⟨?_, rfl⟩
      rintro ⟨n, hn⟩
      obtain ⟨b', hview, -⟩ := hn.levelViewFor .sizePriority c.order.side.opposite px 0
      simp only [levelViewFor, Strategy.fullLevelRequired, if_true, hwhole] at hview
      cases hview
    | some r =>
      obtain ⟨whole, b'⟩ := r
      obtain ⟨view, rest, hview, rfl, hrest⟩ :=
        OrderBook.levelViewCapped_append hle hwhole
      simp only [hview, bind, bind_some]
      exact .of_eq (crossLevel_append (pos_of_ne_zero hlots) hrest _)

/-- Executing allocations only takes from the order. -/
theorem execute_remaining_le {order : Order} {allocs : List Allocation} {x x' : Execution}
    (h : execute seq order px view allocs x = some x') : x'.remaining ≤ x.remaining := by
  induction allocs generalizing x with
  | nil => exact le_of_eq (congrArg Execution.remaining (some.inj h)).symm
  | cons a allocs ih =>
    rw [execute] at h
    split at h
    · exact ih h
    · simp only [bind, bind_eq_some_iff] at h
      obtain ⟨maker, -, h⟩ := h
      exact (ih h).trans (Nat.sub_le _ _)

/-- A turn only takes from the order. -/
theorem crossPass_remaining_le {strategy : Strategy} {stp : SelfTradePolicy} {c' : Cross}
    {flow : Flow} (h : crossPass strategy stp seq c = some (flow, c')) :
    c'.order.remaining ≤ c.order.remaining := by
  rcases crossPass_cases h with ⟨-, rfl, -⟩ | ⟨px, view, book, -, -, -, -, hcases⟩
  · exact le_rfl
  · rcases hcases with ⟨-, book', ids, -, -, rfl⟩ | ⟨-, -, -, rfl⟩ | ⟨-, -, -, rfl⟩ |
      ⟨-, -, hfill⟩
    · exact le_rfl
    · exact le_rfl
    · exact le_rfl
    · simp only [crossFill] at hfill
      split at hfill
      · rw [some.injEq, Prod.mk.injEq] at hfill
        rw [← hfill.2]
      · simp only [bind, bind_eq_some_iff] at hfill
        obtain ⟨x, hx, hfill⟩ := hfill
        have hle := execute_remaining_le hx
        split at hfill
        · rw [Option.pure_def, some.injEq, Prod.mk.injEq] at hfill
          rw [← hfill.2]
          exact hle
        · simp only [bind_eq_some_iff, Option.pure_def, some.injEq, Prod.mk.injEq] at hfill
          obtain ⟨book', -, -, rfl⟩ := hfill
          exact hle

/-- **The loop.** -/
theorem crossLoopWith_wholeLevel {n : ℕ} (hrem : c.order.remaining < 2 ^ 64) :
    Option.SameUnless (¬ ∃ n, c.book.Refines n)
      (crossLoopWith wholeLevel .priceTimePriority .allow seq n c)
      (crossLoop .priceTimePriority .allow seq n c) := by
  induction n generalizing c with
  | zero => exact .of_eq rfl
  | succ n ih =>
    rw [crossLoopWith, crossLoop]
    by_cases hz : c.order.remaining = 0
    · rw [if_pos hz, if_pos hz]
      exact .of_eq rfl
    rw [if_neg hz, if_neg hz]
    refine (crossPassWith_wholeLevel hrem).bind fun r hpass => ?_
    obtain ⟨flow, c'⟩ := r
    cases flow with
    | «break» => exact .of_eq rfl
    | takerStopped => exact .of_eq rfl
    | «continue» =>
      refine (ih (lt_of_le_of_lt (crossPass_remaining_le hpass) hrem)).mono ?_
      rintro hno ⟨nb, hnb⟩
      have href : c.Refines ⟨nb, c.order, c.trades, c.budgetLeft, c.stpCancelled⟩ :=
        ⟨hnb, rfl, rfl, rfl, rfl⟩
      obtain ⟨c₁, hpass₁, hc₁, -⟩ := href.pass .priceTimePriority .allow seq
      rw [hpass, some.injEq, Prod.mk.injEq] at hpass₁
      exact hno ⟨_, hpass₁.2 ▸ hc₁.book⟩

namespace MatchingEngine

variable {e : MatchingEngine}

section

variable (hstrategy : e.strategy = .priceTimePriority) (hstp : e.stp = .allow)
include hstrategy hstp

/-- **A submission.** -/
theorem submitWith_wholeLevel {order : Order} (hqty : order.quantity < 2 ^ 64) :
    Option.SameUnless (¬ ∃ n, e.book.Refines n) (e.submitWith wholeLevel order)
      (e.submit order) := by
  rw [submitWith, submit]
  refine Option.SameUnless.bind (.of_eq rfl) fun budgeted hbudget => ?_
  cases budgeted with
  | none => exact .of_eq rfl
  | some r =>
    obtain ⟨order', budget⟩ := r
    have hrem : order'.remaining < 2 ^ 64 := by
      obtain ⟨price, tif, rfl, -⟩ := applyBudget_eq_some hbudget
      exact hqty
    refine Option.SameUnless.bind (.of_eq rfl) fun short _ => ?_
    cases short with
    | true => exact .of_eq rfl
    | false =>
      refine Option.SameUnless.bind ?_ fun r _ => .of_eq rfl
      rw [crossWith, cross, hstrategy, hstp]
      exact crossLoopWith_wholeLevel hrem

/-- **An amendment.** -/
theorem modifyWith_wholeLevel {id newPrice newQty : ℕ} (hqty : newQty < 2 ^ 64) :
    Option.SameUnless (¬ ∃ n, e.book.Refines n) (e.modifyWith wholeLevel id newPrice newQty)
      (e.modify id newPrice newQty) := by
  rw [modifyWith, modify]
  cases e.book.locate[id]? with
  | none => exact .of_eq rfl
  | some slot =>
    refine Option.SameUnless.bind (.of_eq rfl) fun existing _ => ?_
    by_cases hkeep : newPrice = existing.price ∧ newQty ≤ existing.remaining
    · rw [if_pos hkeep, if_pos hkeep]
      exact .of_eq rfl
    rw [if_neg hkeep, if_neg hkeep]
    refine Option.SameUnless.bind (.of_eq rfl) fun r hcancel => ?_
    obtain ⟨order, book⟩ := r
    refine Option.SameUnless.bind (.of_eq rfl) fun order _ => ?_
    refine Option.SameUnless.bind ?_ fun r _ => .of_eq rfl
    refine (@submitWith_wholeLevel { e with book := book } hstrategy hstp _ hqty).mono ?_
    rintro hno ⟨n, hn⟩
    obtain ⟨b', hcancel', hb', -⟩ := hn.cancel id
    rw [hcancel, some.injEq, Prod.mk.injEq] at hcancel'
    exact hno ⟨_, hcancel'.2 ▸ hb'⟩

/-- **One call.** -/
theorem callWith_wholeLevel (ω : HashOrder) {c : Call} (hc : c.InRange) :
    Option.SameUnless (¬ ∃ n, e.book.Refines n) (e.callWith wholeLevel ω c) (e.call ω c) := by
  cases c with
  | submit order => exact (submitWith_wholeLevel hstrategy hstp hc.quantity).map _
  | modify id newPrice newQty => exact (modifyWith_wholeLevel hstrategy hstp hc.2.2).map _
  | cancel id => exact .of_eq rfl
  | cancelAllForUser user => exact .of_eq rfl

/-- **A whole run.** It can differ only where the pool has run out of slot numbers. -/
theorem runWith_wholeLevel {calls : List (HashOrder × Call)} (hcharted : e.book.Charted)
    (hin : ∀ c ∈ calls, c.2.InRange) :
    Option.SameUnless (¬ ((∃ n, e.Refines n) ∧ e.Roomy calls)) (e.runWith wholeLevel calls)
      (e.run calls) := by
  induction calls generalizing e with
  | nil => exact .of_eq rfl
  | cons c calls ih =>
    obtain ⟨ω, c⟩ := c
    have hc : c.InRange := hin _ mem_cons_self
    rw [runWith, run]
    refine ((callWith_wholeLevel hstrategy hstp ω hc).mono ?_).bind fun r hcall => ?_
    · rintro hno ⟨⟨n, hn⟩, -⟩
      exact hno ⟨_, hn.book⟩
    obtain ⟨e₁, outcome⟩ := r
    obtain ⟨hcharted₁, ⟨hstrategy₁, hstp₁⟩, -⟩ := call_charted hcharted hc hcall
    refine Option.SameUnless.bind ((ih (hstrategy₁.trans hstrategy) (hstp₁.trans hstp) hcharted₁
      fun c hc => hin c (mem_cons_of_mem _ hc)).mono ?_) fun r _ => .of_eq rfl
    rintro hno ⟨⟨n, hn⟩, hroom, hroomy⟩
    exact hno ⟨⟨_, (hn.of_call hroom hc hcall).2.1⟩, hroomy e₁ outcome hcall⟩

end

/-- While the pool has room before each call, the two engines always do the same. -/
theorem runWith_wholeLevel_of_roomy {maxOrders : ℕ} {prefault : Bool}
    {calls : List (HashOrder × Call)} (hin : ∀ c ∈ calls, c.2.InRange)
    (hroomy : (fresh .priceTimePriority .allow maxOrders prefault).Roomy calls) :
    (fresh .priceTimePriority .allow maxOrders prefault).runWith wholeLevel calls =
      (fresh .priceTimePriority .allow maxOrders prefault).run calls := by
  rcases @runWith_wholeLevel (fresh .priceTimePriority .allow maxOrders prefault) rfl rfl calls
    (OrderBook.charted_withCapacity maxOrders prefault) hin with h | ⟨hno, -⟩
  · exact h
  · exact absurd ⟨⟨_, .fresh _ _ _ _⟩, hroomy⟩ hno

/-- **Capping the level view is invisible to price-time priority.** For every sequence of calls the
engine that hands out whole levels returns what the engine returns and is left with the same book;
or it aborts, and the pool was out of slot numbers before one of the calls. -/
theorem run_wholeLevel (maxOrders : ℕ) (prefault : Bool) (calls : List (HashOrder × Call))
    (hin : ∀ c ∈ calls, c.2.InRange) :
    (fresh .priceTimePriority .allow maxOrders prefault).runWith wholeLevel calls =
        (fresh .priceTimePriority .allow maxOrders prefault).run calls ∨
      (fresh .priceTimePriority .allow maxOrders prefault).runWith wholeLevel calls = none ∧
        ¬ (fresh .priceTimePriority .allow maxOrders prefault).Roomy calls := by
  rcases @runWith_wholeLevel (fresh .priceTimePriority .allow maxOrders prefault) rfl rfl calls
    (OrderBook.charted_withCapacity maxOrders prefault) hin with h | ⟨hno, h⟩
  · exact Or.inl h
  · exact .inr ⟨h, fun hroomy => hno ⟨⟨_, .fresh _ _ _ _⟩, hroomy⟩⟩

/-- A buyer with the means for seven lots meets two orders of five: both engines stop after the
second one has given two. -/
theorem run_wholeLevel_budget :
    (fresh .priceTimePriority .allow 4 true).runWith wholeLevel
        [(1, .submit (Order.limit 1 .sell 100 5)), (1, .submit (Order.limit 2 .sell 100 5)),
          (1, .submit ((Order.limit 3 .buy 700 9).withTif .iocBudget))] =
      (fresh .priceTimePriority .allow 4 true).run
        [(1, .submit (Order.limit 1 .sell 100 5)), (1, .submit (Order.limit 2 .sell 100 5)),
          (1, .submit ((Order.limit 3 .buy 700 9).withTif .iocBudget))] :=
  (run_wholeLevel 4 true _ (by decide)).resolve_right
    fun h => h.2 (roomy_of_length (by decide) (by decide))

/-- A run whose last call aborts. -/
theorem runWith_concat_eq_none {full : Strategy → Bool} {calls : List (HashOrder × Call)}
    {ω : HashOrder} {c : Call}
    (h : ∀ e₁ outcomes, e.runWith full calls = some (e₁, outcomes) →
      e₁.callWith full ω c = none) : e.runWith full (calls ++ [(ω, c)]) = none := by
  induction calls generalizing e with
  | nil =>
    rw [nil_append, runWith, h e [] rfl]
    rfl
  | cons c' calls ih =>
    obtain ⟨ω', c'⟩ := c'
    rw [cons_append, runWith]
    cases hcall : e.callWith full ω' c' with
    | none => rfl
    | some r =>
      obtain ⟨e₁, outcome⟩ := r
      simp only [bind, bind_some]
      rw [ih fun e₂ outcomes hrun => h e₂ (outcome :: outcomes) ?_]
      · rfl
      · simp only [runWith, hcall, hrun, bind, bind_some, Option.pure_def]

/-- A submission whose first turn aborts. -/
theorem submitWith_eq_none {full : Strategy → Bool} {order order' : Order} {budget : ℕ}
    (hbudget : MatchingEngine.applyBudget
      { e with seq := wrappingAdd 64 e.seq 1, stpCancelled := [] }
      { order with timestamp := wrappingAdd 64 e.seq 1, remaining := order.quantity } =
        some (some (order', budget)))
    (htif : order'.tif ≠ .fok) (hrem : order'.remaining ≠ 0)
    (hpass : crossPassWith full e.strategy e.stp (wrappingAdd 64 e.seq 1)
      ⟨e.book, order', [], budget, []⟩ = none) : e.submitWith full order = none := by
  simp only [submitWith, hbudget, bind, bind_some, fokShort, if_neg htif,
    Bool.false_eq_true, if_false, crossAndFinalizeWith, crossWith, crossLoopWith, if_neg hrem,
    hpass, bind_none]

end MatchingEngine

/-- The whole level aborts where one slot number with half of the machine integers is queued
twice. -/
theorem SellBook.crossPassWith_eq_none {slots : List Order} {levels : ℕ → Option Level}
    {loc : ℕ → Option ℕ} {e : MatchingEngine} (h : SellBook slots levels loc e) {s : ℕ} {o : Order}
    {qty live : ℕ} (seq : ℕ) (order : Order) (hlevel : levels px = some ⟨[s, s], qty, live + 1⟩)
    (hbest : ∀ p lv, levels p = some lv → px ≤ p) (hslot : slots[s]? = some o)
    (hrem : o.remaining = 2 ^ 63) (hpx : px < 2 ^ 64) (hbuy : order.side = .buy)
    (htype : order.orderType = .limit) (hlimit : order.price = px) (hone : order.remaining = 1) :
    crossPassWith wholeLevel .priceTimePriority .allow seq
      ⟨e.book, order, [], 2 ^ 128 - 1, []⟩ = none := by
  obtain ⟨x, hview, -, -⟩ := h.levelViewCapped hlevel (by norm_num) hslot (by omega)
  have hcross : crossable order px = true := by
    simp [crossable, htype, hbuy, hlimit]
  have hopp : order.side.opposite = .sell := by rw [hbuy]; rfl
  have hlots : affordable (2 ^ 128 - 1) order.remaining px = 1 := by
    rw [hone]
    exact affordable_of_le (by norm_num) hpx
  have hget := h.get_slot hslot
  have hnone : OrderBook.viewCapped e.book.pool priceMax 0 [s, s] = none := by
    have hpos : o.remaining ≠ 0 := by omega
    have hfirst : checkedAdd 64 0 o.remaining = some (2 ^ 63) := by
      rw [hrem]
      rfl
    have hsecond : checkedAdd 64 (2 ^ 63) o.remaining = none := by
      rw [hrem]
      rfl
    have hcap : ¬ priceMax ≤ 2 ^ 63 := by norm_num [priceMax]
    simp only [OrderBook.viewCapped, hget, bind, bind_some, if_neg hpos, hfirst,
      if_neg hcap, hsecond, bind_none]
  simp only [crossPassWith, hopp, h.best_sell hlevel hbest, hcross, Bool.true_eq_false, if_false,
    hlots, one_ne_zero, levelViewWith, wholeLevel, if_true, OrderBook.levelViewInto, hview,
    hnone, map_none, bind, bind_none]

namespace MatchingEngine

/-- Past `2 ^ 32` orders, order 1 moves to 102 with half of the machine integers. -/
def twiceQueuedCalls : List (HashOrder × Call) :=
  sells requotePrice 0 (2 ^ 32 + 1) ++ [(1, .modify 1 102 (2 ^ 63))]

theorem twiceQueuedCalls_inRange : ∀ c ∈ twiceQueuedCalls, c.2.InRange := by
  intro c hc
  rcases mem_append.mp hc with hc | hc
  · obtain ⟨i, hi, rfl⟩ := List.mem_map.mp hc
    have hlt := (mem_range'_1.mp hi).2
    exact ⟨show i + 1 < 2 ^ 64 by omega, show 0 < 2 ^ 32 by decide, show 0 < 2 ^ 64 by decide,
      (requotePrice_rests (by omega)).1, show 1 < 2 ^ 64 by decide, show 1 < 2 ^ 64 by decide,
      show 0 < 2 ^ 64 by decide⟩
  · rw [mem_singleton.mp hc]
    decide

/-- After that run, level 102 reads order 1 twice. -/
theorem twiceQueuedCalls_run : ∃ e outcomes slots levels loc o,
    (fresh .priceTimePriority .allow 0 false).run twiceQueuedCalls = some (e, outcomes) ∧
      SellBook slots levels loc e ∧ e.strategy = .priceTimePriority ∧ e.stp = .allow ∧
      levels 102 = some ⟨[0, 0], 2 ^ 63 + 1, 1 + 1⟩ ∧ (∀ p lv, levels p = some lv → 102 ≤ p) ∧
      loc 1 = some 0 ∧ slots[0]? = some o ∧
      (o.id = 1 ∧ o.side = .sell ∧ o.price = 102 ∧ o.remaining = 2 ^ 63 ∧ o.user = 0) := by
  obtain ⟨e₀, hrun₀, hafter, hstrategy₀, hstp₀⟩ := exists_afterSells_requotePrice
  obtain ⟨e, o, report, hmodify, -, hstrategy, hstp, ho, h⟩ :=
    @SellBook.requote _ _ _ _ hafter.sellBook 1 0 102 (2 ^ 63) _ _ (by norm_num)
      (getElem?_restedSell (by norm_num)) rfl rfl rfl rfl one_pos sellLevel_requotePrice_1000
      (by decide) (by norm_num) sellLevel_requotePrice_102 one_pos (by norm_num) (by norm_num)
      (by norm_num)
  have hcall : e₀.call 1 (.modify 1 102 (2 ^ 63)) = some (e, .modified (.requoted report)) := by
    rw [call, hmodify]
    rfl
  refine ⟨e, _, _, _, _, o, run_concat hrun₀ hcall, h, hstrategy.trans hstrategy₀,
    hstp.trans hstp₀, ?_, ?_, by norm_num, ?_, ho⟩
  · simp only [if_true]
    rw [add_comm 1 (2 ^ 63)]
    rfl
  · intro p lv hlv
    simp only at hlv
    split_ifs at hlv with hp
    · exact le_of_eq hp.symm
    · exact le_of_sellLevel_requotePrice hlv
  · rw [getElem?_set_self]
    rw [length_map, length_range]
    norm_num

/-- Without room the whole level can be too much to add up: the bid for one lot trades, and would
abort if it had to see the whole level. -/
theorem wholeLevel_aborts : ∃ e outcomes,
    (∀ c ∈ twiceQueuedCalls ++ [(1, .submit (Order.limit (2 ^ 32 + 2) .buy 102 1))],
      c.2.InRange) ∧
    (fresh .priceTimePriority .allow 0 false).run
      (twiceQueuedCalls ++ [(1, .submit (Order.limit (2 ^ 32 + 2) .buy 102 1))]) =
        some (e, outcomes) ∧
    (fresh .priceTimePriority .allow 0 false).runWith wholeLevel
      (twiceQueuedCalls ++ [(1, .submit (Order.limit (2 ^ 32 + 2) .buy 102 1))]) = none := by
  obtain ⟨e, outcomes, slots, levels, loc, o, hrun, h, hstrategy, hstp, hlevel, hbest, hloc, hslot,
    hid, hside, hprice, hrem, huser⟩ := twiceQueuedCalls_run
  rw [← hid] at hloc
  have htif : TimeInForce.gtc ≠ .fok := by decide
  have hfront := h.crossPass_front (wrappingAdd 64 e.seq 1)
    { Order.limit (2 ^ 32 + 2) .buy 102 1 with
      timestamp := wrappingAdd 64 e.seq 1, remaining := 1 }
    hlevel hbest (by norm_num) (by simp [(List.getElem?_eq_some_iff.mp hslot).1]) hslot hside hprice
    (by omega) (by rw [hrem]; norm_num) huser hloc (by norm_num) rfl rfl rfl rfl
  have habort := h.crossPassWith_eq_none (wrappingAdd 64 e.seq 1)
    { Order.limit (2 ^ 32 + 2) .buy 102 1 with
      timestamp := wrappingAdd 64 e.seq 1, remaining := 1 }
    hlevel hbest hslot hrem (by norm_num) rfl rfl rfl rfl
  rw [← hstrategy, ← hstp] at hfront habort
  obtain ⟨c, t, hpass, horder, -⟩ := hfront
  obtain ⟨e', report, hsubmit, -⟩ := @submit_filled e (Order.limit (2 ^ 32 + 2) .buy 102 1) _ _
    rfl c htif one_ne_zero hpass (by rw [horder])
  refine ⟨e', _, fun c hc => ?_, run_concat hrun (by rw [call, hsubmit]; rfl),
    runWith_concat_eq_none fun e₁ outcomes₁ hrun₁ => ?_⟩
  · rcases mem_append.mp hc with hc | hc
    · exact twiceQueuedCalls_inRange c hc
    · rw [mem_singleton.mp hc]
      decide
  · -- up to the bid the two engines agree
    have hsame : e₁ = e := by
      rcases @runWith_wholeLevel (fresh .priceTimePriority .allow 0 false) rfl rfl _
        (OrderBook.charted_withCapacity 0 false) twiceQueuedCalls_inRange with heq | hnone
      · rw [heq, hrun, some.injEq, Prod.mk.injEq] at hrun₁
        exact hrun₁.1.symm
      · rw [hnone.2] at hrun₁
        cases hrun₁
    rw [hsame, callWith, submitWith_eq_none rfl htif one_ne_zero habort]
    rfl

end MatchingEngine

end TradeCore
