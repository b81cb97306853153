import TradeCore.Engine

/-!
# The Command Processor

`Processor` (`exchange.rs`) owns the engines of a shard and turns commands into execution
reports: duplicate suppression, pre-trade risk (`risk.rs`), matching, the position ledger and
fees (`fees.rs`). `Processor.process` is one command, `Processor.processAll` a sequence.

The engines create their books on demand, so a command can create a book even where it only
looks at it. The one place where the order of a hash map reaches a report is `ForceClose`,
which cancels the orders of a user in the order of the book's id index. The iteration orders
of an execution are an `Oracle`: one `HashOrder` for every command, addressed by its position
in the sequence and in the batches around it.

A command may abort the process (`none`), as the engine calls may.
-/

namespace TradeCore

open Std

/-! ### Commands and reports -/

/-- A command of the intake queues. -/
inductive Command
  | new (order : Order)
  | cancel (instrument orderId cmdId : ℕ)
  | modify (instrument orderId newPrice newQty cmdId : ℕ)
  | forceClose (instrument user closeOrderId : ℕ) (closeSide : Side) (closeQty : ℕ)
  | halt (instrument cmdId : ℕ)
  | resume (instrument cmdId : ℕ)
  | haltUser (instrument user cmdId : ℕ)
  | resumeUser (instrument user cmdId : ℕ)
  | batch (commands : List Command)

namespace Command

/-- The id used for exact retry suppression; a batch answers with its first command. -/
def id : Command → ℕ
  | .new order => order.id
  | .cancel _ _ cmdId | .modify _ _ _ _ cmdId => cmdId
  | .halt _ cmdId | .resume _ cmdId => cmdId
  | .haltUser _ _ cmdId | .resumeUser _ _ cmdId => cmdId
  | .forceClose _ _ closeOrderId _ _ => closeOrderId
  | .batch [] => 0
  | .batch (c :: _) => c.id

/-- The instrument that the command targets. -/
def instrument : Command → ℕ
  | .new order => order.instrument
  | .cancel instrument _ _ | .modify instrument _ _ _ _ => instrument
  | .forceClose instrument _ _ _ _ => instrument
  | .halt instrument _ | .resume instrument _ => instrument
  | .haltUser instrument _ _ | .resumeUser instrument _ _ => instrument
  | .batch [] => 0
  | .batch (c :: _) => c.instrument

/-- The id, the instrument and the intake queue (`true` for the high-priority one) that the
cursor gate looks at. The commands of a batch are gated one by one. -/
def stream : Command → ℕ × ℕ × Bool
  | .new order => (order.id, order.instrument, false)
  | .batch _ => (0, 0, false)
  | cmd => (cmd.id, cmd.instrument, true)

/-- The command is not a group of commands. -/
def Single : Command → Prop
  | .batch _ => False
  | _ => True

/-- Induction over commands: single ones, batches, and the lists of commands in them. -/
theorem induct {P : Command → Prop} {Q : List Command → Prop}
    (single : ∀ cmd : Command, cmd.Single → P cmd) (batch : ∀ cmds, Q cmds → P (.batch cmds))
    (nil : Q []) (cons : ∀ cmd cmds, P cmd → Q cmds → Q (cmd :: cmds)) :
    (∀ cmd, P cmd) ∧ ∀ cmds, Q cmds := by
  have one : ∀ cmd, P cmd := by
    refine @Command.rec P Q ?_ ?_ ?_ ?_ ?_ ?_ ?_ ?_ batch nil cons
    all_goals
      intros
      exact single _ trivial
  refine ⟨one, fun cmds => ?_⟩
  induction cmds with
  | nil => exact nil
  | cons cmd cmds ih => exact cons cmd cmds (one cmd) ih

instance decidableSingle (c : Command) : Decidable c.Single := by
  cases c <;> unfold Single <;> infer_instance

end Command

/-- Why a command is rejected. -/
inductive RejectReason
  | duplicate
  | halted
  | userSuspended
  | maxQty
  | maxNotional
  | priceBand
  | maxUserOrders
  | unfillable
deriving DecidableEq, Repr

/-- An execution notification of the matching side. -/
inductive ExecReport
  | accepted (instrument orderId : ℕ)
  | trade (instrument taker maker : ℕ) (aggressor : Side) (price qty makerFee takerFee : ℕ)
  | filled (instrument orderId : ℕ)
  | partiallyFilled (instrument orderId filled : ℕ)
  | resting (instrument orderId : ℕ)
  | cancelled (instrument orderId : ℕ)
  | rejected (instrument orderId : ℕ) (reason : RejectReason)
  | modified (instrument orderId remaining : ℕ)
  | notFound (instrument orderId : ℕ)
  | depthLevel (instrument : ℕ) (side : Side) (level : UInt8) (price qty : ℕ)
  | depthEnd (instrument : ℕ) (bidLevels askLevels : UInt8)
  | halted (instrument : ℕ)
  | resumed (instrument : ℕ)
  | userHalted (instrument user : ℕ)
  | userResumed (instrument user : ℕ)
deriving DecidableEq, Repr

/-! ### Fees and risk -/

/-- Fee rates in basis points. -/
structure FeeSchedule where
  makerBps : ℕ
  takerBps : ℕ
deriving DecidableEq, Repr

/-- `notional * bps / 10_000` in wrapping 128-bit arithmetic, cut to 64 bits. -/
def FeeSchedule.fee (price qty bps : ℕ) : ℕ :=
  price * qty * bps % 2 ^ 128 / 10000 % 2 ^ 64

/-- The fees of one execution, maker first. -/
def FeeSchedule.fees (f : FeeSchedule) (price qty : ℕ) : ℕ × ℕ :=
  (fee price qty f.makerBps, fee price qty f.takerBps)

/-- Price banding around an external reference price. -/
structure PriceGuard where
  bandBps : ℕ
  refs : ExtTreeMap ℕ UInt64

namespace PriceGuard

/-- The reference price of an instrument; zero if unknown. -/
def reference (g : PriceGuard) (instrument : ℕ) : ℕ := (g.refs[instrument]?.getD 0).toNat

/-- The lowest and the highest price of the band, in saturating arithmetic. -/
def band (g : PriceGuard) (reference : ℕ) : ℕ × ℕ :=
  let delta := min (reference * g.bandBps) priceMax / 10000
  (reference - delta, min (reference + delta) priceMax)

/-- Vet an order: a limit order through the band is rejected, a market order becomes a limit
order at the edge of the band that never rests. -/
def vet (g : PriceGuard) (order : Order) : Except RejectReason Order :=
  if order.tif = .iocBudget ∨ order.tif = .fokBudget then .ok order
  else if g.reference order.instrument = 0 then .ok order
  else
    let (lo, hi) := g.band (g.reference order.instrument)
    match order.orderType, order.side with
    | .limit, .buy => if hi < order.price then .error .priceBand else .ok order
    | .limit, .sell => if order.price < lo then .error .priceBand else .ok order
    | .market, side =>
      .ok { order with
        orderType := .limit
        price := match side with
          | .buy => hi
          | .sell => lo
        tif := if order.tif = .gtc then .ioc else order.tif }

end PriceGuard

/-- Static pre-trade limits; zero means unlimited. -/
structure RiskLimits where
  maxOrderQty : ℕ
  maxNotional : ℕ
  maxUserOrders : ℕ
deriving DecidableEq, Repr

/-- The checks that need no book. -/
def RiskLimits.checkStatic (l : RiskLimits) (order : Order) : Except RejectReason Unit :=
  if 0 < l.maxOrderQty ∧ l.maxOrderQty < order.quantity then .error .maxQty
  else if 0 < l.maxNotional ∧ order.orderType = .limit ∧
      l.maxNotional < order.price * order.quantity then .error .maxNotional
  else .ok ()

/-! ### The processor -/

/-- The parts of a processor that are fixed when it is built. -/
structure ProcessorConfig where
  strategy : Strategy
  guard : Option PriceGuard
  defaultPool : ℕ × Bool
  stp : SelfTradePolicy
  limits : Option RiskLimits
  dedup : Bool
  fees : FeeSchedule

/-- The deterministic core of a shard: engines, duplicate filters, halts and positions. -/
structure Processor where
  config : ProcessorConfig
  engines : ExtTreeMap ℕ MatchingEngine
  seenCommandIds : ExtTreeSet ℕ
  maxNewId : ℕ
  maxAdminId : ℕ
  halted : ExtTreeSet ℕ
  suspended : ExtTreeSet ℕ
  /-- Net positions by user and instrument, as signed 64-bit values. -/
  positions : AList fun _ : ℕ × ℕ => ℤ

/-- The iteration orders of one execution: a command's place is its position in the
sequence, then in its batch, and so on. -/
abbrev Oracle := List ℕ → HashOrder

/-- The orders for the command at position `i`. -/
def Oracle.at (ω : Oracle) (i : ℕ) : Oracle := fun place => ω (i :: place)

namespace Processor

/-- A processor without state. -/
def fresh (config : ProcessorConfig) : Processor where
  config := config
  engines := ∅
  seenCommandIds := ∅
  maxNewId := 0
  maxAdminId := 0
  halted := ∅
  suspended := ∅
  positions := ∅

/-- The configuration of an exchange with default settings. -/
def defaultConfig : ProcessorConfig where
  strategy := .priceTimePriority
  guard := none
  defaultPool := (4096, false)
  stp := .allow
  limits := none
  dedup := false
  fees := ⟨0, 0⟩

variable (p : Processor)

/-- The engine of an instrument, created on demand. -/
def engineFor (instrument : ℕ) : MatchingEngine :=
  p.engines[instrument]?.getD
    (MatchingEngine.fresh p.config.strategy p.config.stp p.config.defaultPool.1
      p.config.defaultPool.2)

/-- Write an engine back. -/
def setEngine (instrument : ℕ) (e : MatchingEngine) : Processor :=
  { p with engines := p.engines.insert instrument e }

/-- Net position of a user on an instrument. -/
def position (user instrument : ℕ) : ℤ :=
  (p.positions.lookup (user, instrument)).getD 0

/-- Run an engine call on the engine of an instrument. -/
def onEngine {α : Type} (p : Processor) (instrument : ℕ)
    (call : MatchingEngine → Option (MatchingEngine × α)) : Option (Processor × α) := do
  let (e, a) ← call (p.engineFor instrument)
  pure (p.setEngine instrument e, a)

/-! ### Duplicate suppression -/

/-- The high-water mark of one of the two intake queues. -/
def cursor (admin : Bool) : ℕ := if admin then p.maxAdminId else p.maxNewId

/-- Move a high-water mark. -/
def setCursor (admin : Bool) (id : ℕ) : Processor :=
  if admin then { p with maxAdminId := id } else { p with maxNewId := id }

/-- The cursor gate: each of the two intake queues admits increasing ids only. -/
def advance (cmd : Command) : Processor × Option ExecReport :=
  let (id, instrument, admin) := cmd.stream
  if p.config.dedup = false ∨ id = 0 then (p, none)
  else if id ≤ p.cursor admin then (p, some (.rejected instrument id .duplicate))
  else (p.setCursor admin id, none)

/-- Both duplicate filters: the exact ids, then the cursors. -/
def dedupe (cmd : Command) : Processor × Option ExecReport :=
  if cmd.id = 0 then p.advance cmd
  else if cmd.id ∈ p.seenCommandIds then
    (p, some (.rejected cmd.instrument cmd.id .duplicate))
  else { p with seenCommandIds := p.seenCommandIds.insert cmd.id }.advance cmd

/-- Continue with a command that passes the filters. -/
def gated (cmd : Command) (apply : Processor → Option (Processor × List ExecReport)) :
    Option (Processor × List ExecReport) :=
  match p.dedupe cmd with
  | (p, some report) => some (p, [report])
  | (p, none) => apply p

/-! ### New orders -/

/-- The synchronous checks of a new order. The check of the open orders creates the book of
the instrument. -/
def screen (order : Order) : Processor × Except RejectReason Order :=
  if order.instrument ∈ p.halted then (p, .error .halted)
  else if order.user ≠ 0 ∧ order.user ∈ p.suspended then (p, .error .userSuspended)
  else
    match p.config.limits.elim (.ok ()) fun limits => limits.checkStatic order with
    | .error reason => (p, .error reason)
    | .ok () =>
      match p.config.guard.elim (.ok order) fun guard => guard.vet order with
      | .error reason => (p, .error reason)
      | .ok order =>
        match p.config.limits with
        | none => (p, .ok order)
        | some limits =>
          if 0 < limits.maxUserOrders ∧ order.user ≠ 0 then
            let e := p.engineFor order.instrument
            (p.setEngine order.instrument e,
              if limits.maxUserOrders ≤ e.book.userOpenOrders order.user then
                .error .maxUserOrders
              else .ok order)
          else (p, .ok order)

/-- The report of one execution. -/
def tradeReport (instrument : ℕ) (t : Trade) : ExecReport :=
  .trade instrument t.taker t.maker t.aggressor t.price t.quantity
    (p.config.fees.fees t.price t.quantity).1 (p.config.fees.fees t.price t.quantity).2

/-- Add to a position in wrapping 64-bit arithmetic; user 0 has none. -/
def addPosition (user instrument : ℕ) (qty : ℤ) : Processor :=
  if user = 0 then p
  else
    let total := Int.bmod (p.position user instrument + qty) (2 ^ 64)
    { p with positions := p.positions.insert (user, instrument) total }

/-- Book one execution into the position ledger: the buyer first, then the seller. -/
def book (instrument : ℕ) (t : Trade) : Processor :=
  let qty := Int.bmod t.quantity (2 ^ 64)
  match t.aggressor with
  | .buy => (p.addPosition t.takerUser instrument qty).addPosition t.makerUser instrument (-qty)
  | .sell => (p.addPosition t.makerUser instrument qty).addPosition t.takerUser instrument (-qty)

/-- The report that closes a new order. -/
def statusReport (instrument id filled : ℕ) : OrderStatus → ExecReport
  | .filled => .filled instrument id
  | .partiallyFilled => .partiallyFilled instrument id filled
  | .resting => .resting instrument id
  | .cancelled => .cancelled instrument id
  | .rejected => .rejected instrument id .unfillable

/-- Match an accepted order and report the outcome: makers cancelled by self-trade
prevention, executions, the fate of the order. -/
def accept (order : Order) : Option (Processor × List ExecReport) := do
  let (p, report) ← p.onEngine order.instrument fun e => e.submit order
  let stp :=
    if p.config.stp = .allow then []
    else (p.engineFor order.instrument).stpCancelled.map (.cancelled order.instrument)
  pure (report.trades.foldl (fun p t => p.book order.instrument t) p,
    [.accepted order.instrument order.id] ++ stp ++
      report.trades.map (p.tradeReport order.instrument) ++
      [statusReport order.instrument order.id report.filled report.status])

/-- A new order. -/
def processNew (order : Order) : Option (Processor × List ExecReport) :=
  match p.screen order with
  | (p, .error reason) => some (p, [.rejected order.instrument order.id reason])
  | (p, .ok order) => p.accept order

/-! ### The other commands -/

/-- The reports of an amendment. -/
def modifyReports (instrument orderId newQty : ℕ) :
    ModifyOutcome → List ExecReport
  | .notFound => [.notFound instrument orderId]
  | .reduced id remaining => [.modified instrument id remaining]
  | .cancelled id => [.cancelled instrument id]
  | .requoted report =>
    report.trades.map (p.tradeReport instrument) ++
      [match report.status with
      | .filled => .filled instrument orderId
      | .resting | .partiallyFilled => .modified instrument orderId (newQty - report.filled)
      | .cancelled | .rejected => .cancelled instrument orderId]

/-- The market order that flattens a position. -/
def closeOrder (instrument user closeOrderId : ℕ) (closeSide : Side) (closeQty : ℕ) : Order :=
  (((Order.market closeOrderId closeSide closeQty).on instrument).by_ user).withTif .ioc

/-- Apply a single command that passed the filters. Batches are taken apart by `process`. -/
def apply (ω : HashOrder) : Command → Option (Processor × List ExecReport)
  | .new order => p.processNew order
  | .cancel instrument orderId _ => do
      let (p, removed) ← p.onEngine instrument fun e => e.cancel orderId
      pure (p, [if removed then .cancelled instrument orderId else .notFound instrument orderId])
  | .modify instrument orderId newPrice newQty _ => do
      let (p, outcome) ← p.onEngine instrument fun e => e.modify orderId newPrice newQty
      pure (p, p.modifyReports instrument orderId newQty outcome)
  | .forceClose instrument user closeOrderId closeSide closeQty => do
      let (p, ids) ← p.onEngine instrument fun e => e.cancelAllForUser ω user
      if closeQty = 0 then pure (p, ids.map (.cancelled instrument))
      else
        let (p, reports) ←
          p.processNew (closeOrder instrument user closeOrderId closeSide closeQty)
        pure (p, ids.map (.cancelled instrument) ++ reports)
  | .halt instrument _ =>
    some ({ p with halted := p.halted.insert instrument }, [.halted instrument])
  | .resume instrument _ =>
    some ({ p with halted := p.halted.erase instrument }, [.resumed instrument])
  | .haltUser instrument user _ =>
    some ({ p with suspended := p.suspended.insert user }, [.userHalted instrument user])
  | .resumeUser instrument user _ =>
    some ({ p with suspended := p.suspended.erase user }, [.userResumed instrument user])
  | .batch _ => some (p, [])

mutual

/-- Apply one command and collect its reports. -/
def process (p : Processor) (ω : Oracle) : Command → Option (Processor × List ExecReport)
  | .batch cmds => p.gated (.batch cmds) fun p => p.processAll ω 0 cmds
  | cmd => p.gated cmd fun p => p.apply (ω []) cmd

/-- Apply commands one after the other, the first at position `i`. -/
def processAll (p : Processor) (ω : Oracle) (i : ℕ) :
    List Command → Option (Processor × List ExecReport)
  | [] => some (p, [])
  | cmd :: cmds => do
      let (p, reports) ← p.process (ω.at i) cmd
      let (p, later) ← p.processAll ω (i + 1) cmds
      pure (p, reports ++ later)

end

/-- The first command of a sequence, and the others. -/
theorem processAll_cons (ω : Oracle) (i : ℕ) (cmd : Command) (cmds : List Command) :
    p.processAll ω i (cmd :: cmds) = (p.process (ω.at i) cmd).bind fun r =>
      (r.1.processAll ω (i + 1) cmds).map fun r' => (r'.1, r.2 ++ r'.2) := by
  rw [processAll]
  cases p.process (ω.at i) cmd with
  | none => rfl
  | some r =>
    simp only [Option.bind_eq_bind, Option.bind_some]
    cases r.1.processAll ω (i + 1) cmds <;> rfl

theorem processAll_cons_eq_some {p p' : Processor} {ω : Oracle} {i : ℕ} {cmd : Command}
    {cmds : List Command} {reports : List ExecReport}
    (h : p.processAll ω i (cmd :: cmds) = some (p', reports)) :
    ∃ p₁ r₁ r₂, p.process (ω.at i) cmd = some (p₁, r₁) ∧
      p₁.processAll ω (i + 1) cmds = some (p', r₂) ∧ reports = r₁ ++ r₂ := by
  simp only [processAll_cons, Option.bind_eq_some_iff, Option.map_eq_some_iff, Prod.exists,
    Prod.mk.injEq] at h
  obtain ⟨p₁, r₁, h₁, p₂, r₂, h₂, rfl, rfl⟩ := h
  exact ⟨p₁, r₁, r₂, h₁, h₂, rfl⟩

/-- A single command passes the filters and is applied. -/
theorem process_of_single (ω : Oracle) {cmd : Command} (h : cmd.Single) :
    p.process ω cmd = p.gated cmd fun p => p.apply (ω []) cmd := by
  cases cmd with
  | batch cmds => exact h.elim
  | _ => rw [process]; simp

end Processor

end TradeCore
