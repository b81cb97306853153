import TradeCore.ProcessorSpec
import TradeCore.SelfTrade

/-!
# The Trade Tape of a Command

Three commands can take liquidity: a new order, the closing order of a forced liquidation, and
an amendment that re-enters its order. `Processor.TakerOf` lists them, with the engine that
meets the taker. The first two pass the checks of a new order; the amendment does not.

The `Trade` reports of a command are the trades of its taker, in order, and nothing else
(`Processor.apply_tape`). An amendment reports its trades without booking them; all other
commands book what they report.
-/

namespace TradeCore

open Std List Option

variable {cmd : Command} {ω : HashOrder} {reports : List ExecReport} {p p' : Processor}

/-- The report of an execution. -/
def ExecReport.isTrade : ExecReport → Bool
  | .trade .. => true
  | _ => false

/-- A sum over reports that only the trades contribute to. -/
theorem ExecReport.sum_filter_isTrade {M : Type} [AddCommMonoid M] (f : ExecReport → M)
    (h : ∀ r, r.isTrade = false → f r = 0) (reports : List ExecReport) :
    ((reports.filter ExecReport.isTrade).map f).sum = (reports.map f).sum := by
  induction reports with
  | nil => rfl
  | cons r reports ih =>
    cases hr : r.isTrade with
    | true => simp [hr, ih]
    | false => simp [hr, ih, h r hr]

/-- Whether the command amends an order. -/
def Command.isModify : Command → Bool
  | .modify .. => true
  | _ => false

namespace Processor

/-- The orders with which a command can take liquidity, and the engine that meets them. -/
inductive TakerOf (p : Processor) : Command → MatchingEngine → Order → Prop
  | new {order taken : Order} (h : (p.screen order).2 = .ok taken) :
      TakerOf p (.new order) (p.engineFor order.instrument) taken
  | close {instrument user closeOrderId closeQty : ℕ} {closeSide : Side} {taken : Order}
      {ω : HashOrder} {e : MatchingEngine} {ids : List ℕ}
      (hpull : (p.engineFor instrument).cancelAllForUser ω user = some (e, ids))
      (h : ((p.setEngine instrument e).screen
        (closeOrder instrument user closeOrderId closeSide closeQty)).2 = .ok taken) :
      TakerOf p (.forceClose instrument user closeOrderId closeSide closeQty) e taken
  | requote {instrument id newPrice newQty cmdId : ℕ} {o : Order} {b : OrderBook}
      (hreq : (p.engineFor instrument).Requotes id newPrice newQty o)
      (hcancel : (p.engineFor instrument).book.cancel id = some (some o, b)) :
      TakerOf p (.modify instrument id newPrice newQty cmdId)
        { p.engineFor instrument with book := b } (o.requote newPrice newQty)

/-- All engines have charted books. -/
def Charted (p : Processor) : Prop := ∀ instrument, (p.engineFor instrument).book.Charted

/-- The taker meets a charted book. -/
theorem TakerOf.charted {e : MatchingEngine} {taken : Order} (h : p.TakerOf cmd e taken)
    (hp : p.Charted) : e.book.Charted := by
  cases h with
  | new h => exact hp _
  | close hpull h =>
    exact (hp _).wears (MatchingEngine.cancelAllForUser_slab (hp _).tidy hpull).1.wears
  | requote hreq hcancel => exact (hp _).wears ((hp _).tidy.cancel hcancel).wears

/-- A new processor has charted books. -/
theorem charted_fresh (config : ProcessorConfig) : (fresh config).Charted := by
  intro instrument
  simp only [engineFor, fresh, ExtTreeMap.getElem?_empty, getD_none]
  exact OrderBook.charted_withCapacity _ _

/-- The filters keep the books charted. -/
theorem Charted.dedupe (h : p.Charted) (cmd : Command) : (p.dedupe cmd).1.Charted := by
  intro instrument
  rw [engineFor_dedupe]
  exact h instrument

/-- An applied command keeps the books charted. -/
theorem Charted.apply (h : p.Charted) (hs : cmd.Single) (hr : cmd.InRange)
    (happly : p.apply ω cmd = some (p', reports)) : p'.Charted := by
  obtain ⟨calls, outcomes, hmakes, hrun, hothers⟩ := apply_makes hs happly
  intro i
  by_cases hi : i = cmd.instrument
  · rw [hi]
    exact (MatchingEngine.run_charted (h _) (hmakes.inRange hr) hrun).1
  · rw [hothers i hi]
    exact h i

/-! ### Books -/

/-- An order meets a worn book, and takes from it what the checks hand on. -/
theorem Enters.taker {q : Processor} {pulled : List ExecReport} {order : Order} (hp : p.Charted)
    (h : p.Enters ω cmd q pulled order) :
    (p.engineFor cmd.instrument).book.Wears (q.engineFor cmd.instrument).book ∧
      ∀ taken, (q.screen order).2 = .ok taken →
        p.TakerOf cmd (q.engineFor cmd.instrument) taken := by
  cases h with
  | new order => exact ⟨(hp _).tidy.wears, fun taken hok => .new hok⟩
  | @close instrument _ _ _ _ e _ hpull _ =>
    have he : (p.setEngine instrument e).engineFor instrument = e := engineFor_setEngine_self _ _ _
    rw [Command.instrument, he]
    exact ⟨(MatchingEngine.cancelAllForUser_slab (hp _).tidy hpull).1.wears,
      fun taken hok => .close hpull hok⟩

/-- **What a command does to the book of an instrument**: it wears it, and perhaps inserts
what is left of its taker. -/
theorem apply_slab (hp : p.Charted) (hs : cmd.Single) (h : p.apply ω cmd = some (p', reports))
    (i : ℕ) :
    ∃ b, (p.engineFor i).book.Wears b ∧ ((p'.engineFor i).book = b ∨
      ∃ e taken rest seq, i = cmd.instrument ∧ p.TakerOf cmd e taken ∧ e.book.Wears b ∧
        MatchingEngine.RestOf seq taken rest ∧ b.insert rest = some (p'.engineFor i).book) := by
  by_cases hsame : p'.engineFor i = p.engineFor i
  · exact ⟨_, (hp i).tidy.wears, .inl (by rw [hsame])⟩
  by_cases hi : i = cmd.instrument
  · subst hi
    cases apply_does h with
    | enters hcmd hnew =>
      obtain ⟨hinst, -⟩ := hcmd.facts
      obtain ⟨hw, htaker⟩ := hcmd.taker hp
      cases hnew with
      | refused _ hengine => exact ⟨_, hw, .inl (by rw [hengine])⟩
      | @accepted taken e _ hscreen _ hsubmit hengine =>
        rw [hinst] at hsubmit hengine
        obtain ⟨-, -, -, b, ⟨_, hw'⟩, hend⟩ :=
          MatchingEngine.submit_slab ((hp _).wears hw) hsubmit
        rw [hengine, engineFor_setEngine_self]
        refine ⟨b, hw.trans hw'.wears, hend.imp_right ?_⟩
        rintro ⟨rest, hrest, hins⟩
        exact ⟨_, taken, rest, e.seq, rfl, htaker taken hscreen, hw'.wears, hrest, hins⟩
    | @cancel instrument _ _ e _ hcancel =>
      refine ⟨e.book, (MatchingEngine.cancel_slab (hp _).tidy hcancel).1.wears, .inl ?_⟩
      exact congrArg MatchingEngine.book (engineFor_setEngine_self _ _ _)
    | @modify instrument _ _ _ _ e _ hmodify =>
      have he : (p.setEngine instrument e).engineFor instrument = e :=
        engineFor_setEngine_self _ _ _
      rcases MatchingEngine.modify_slab (hp _).tidy hmodify with
        ⟨hw, -, -⟩ | ⟨o, b, report, hreq, hcancel, hw, hsubmit, -⟩
      · exact ⟨e.book, hw.wears, .inl (congrArg MatchingEngine.book he)⟩
      · obtain ⟨-, -, -, b', ⟨_, hw'⟩, hend⟩ :=
          MatchingEngine.submit_slab ((hp _).wears hw.wears) hsubmit
        refine ⟨b', hw.wears.trans hw'.wears, hend.imp (fun heq => ?_) ?_⟩
        · rw [← heq]
          exact congrArg MatchingEngine.book he
        · rintro ⟨rest, hrest, hins⟩
          refine ⟨_, _, rest, e.seq, rfl, .requote hreq hcancel, hw'.wears, hrest, ?_⟩
          rw [hins]
          exact congrArg (fun e => some (MatchingEngine.book e)) he.symm
    | @pull instrument _ _ _ e _ hpull =>
      refine ⟨e.book, (MatchingEngine.cancelAllForUser_slab (hp _).tidy hpull).1.wears, .inl ?_⟩
      exact congrArg MatchingEngine.book (engineFor_setEngine_self _ _ _)
    | halt | resume | haltUser | resumeUser => exact absurd rfl hsame
    | batch => exact hs.elim
  · obtain ⟨calls, outcomes, -, -, hothers⟩ := apply_makes hs h
    exact absurd (hothers i hi) hsame

/-- All records of all books satisfy `P`. -/
def Records (P : Order → Prop) (p : Processor) : Prop :=
  ∀ instrument slot o, (p.engineFor instrument).book.pool.get slot = some o → P o

/-- **An invariant of records**: wearing keeps it, and what is left of a taker has it. -/
theorem Records.apply {P : Order → Prop} (hrec : Records P p) (hp : p.Charted) (hs : cmd.Single)
    (h : p.apply ω cmd = some (p', reports)) (hwear : ∀ o o', SameOrder o o' → P o → P o')
    (hrest : ∀ e taken seq rest, p.TakerOf cmd e taken →
      MatchingEngine.RestOf seq taken rest → P rest) : Records P p' := by
  intro i slot o ho
  obtain ⟨b, hw, heq | ⟨e, taken, rest, seq, -, htaker, -, hof, hins⟩⟩ := apply_slab hp hs h i
  · rw [heq] at ho
    obtain ⟨o₀, ho₀, hsame, -⟩ := hw.record slot o ho
    exact hwear o₀ o hsame (hrec i slot o₀ ho₀)
  · rcases (OrderBook.fills_insert hins).record slot o ho with rfl | ho
    · exact hrest e taken seq o htaker hof
    · obtain ⟨o₀, ho₀, hsame, -⟩ := hw.record slot o ho
      exact hwear o₀ o hsame (hrec i slot o₀ ho₀)

/-- The filters keep the records. -/
theorem Records.dedupe {P : Order → Prop} (h : Records P p) (cmd : Command) :
    Records P (p.dedupe cmd).1 := by
  intro i slot o ho
  rw [engineFor_dedupe] at ho
  exact h i slot o ho

/-- A new processor has no records. -/
theorem records_fresh (P : Order → Prop) (config : ProcessorConfig) : Records P (fresh config) := by
  intro instrument slot o ho
  have hslots : ((fresh config).engineFor instrument).book.pool.slots = [] := by
    simp only [engineFor, fresh, ExtTreeMap.getElem?_empty, getD_none]
    cases hp : config.defaultPool.2 <;>
      simp [MatchingEngine.fresh, MatchingEngine.withPool, MatchingEngine.withStp,
        OrderBook.withCapacity, OrderPool.withCapacity]
  rw [OrderPool.get, hslots] at ho
  cases ho

/-! ### Reports -/

theorem filter_isTrade_map (p : Processor) (instrument : ℕ) (trades : List Trade) :
    (trades.map (p.tradeReport instrument)).filter ExecReport.isTrade =
      trades.map (p.tradeReport instrument) := by
  rw [filter_eq_self]
  intro r hr
  obtain ⟨t, -, rfl⟩ := List.mem_map.mp hr
  rfl

theorem filter_isTrade_cancelled (instrument : ℕ) (ids : List ℕ) :
    (ids.map (ExecReport.cancelled instrument)).filter ExecReport.isTrade = [] := by
  rw [filter_eq_nil_iff]
  intro r hr
  obtain ⟨id, -, rfl⟩ := List.mem_map.mp hr
  simp [ExecReport.isTrade]

/-- The trades among the reports of an accepted order. -/
theorem filter_isTrade_acceptReports (p : Processor) (order : Order) (e : MatchingEngine)
    (report : SubmitReport) :
    (p.acceptReports order e report).filter ExecReport.isTrade =
      report.trades.map (p.tradeReport order.instrument) := by
  have hstp : (if p.config.stp = .allow then [] else
      e.stpCancelled.map (.cancelled order.instrument)).filter ExecReport.isTrade = [] := by
    split
    · rfl
    · exact filter_isTrade_cancelled _ _
  have hstatus : ExecReport.isTrade
      (statusReport order.instrument order.id report.filled report.status) = false := by
    cases report.status <;> rfl
  have haccepted : (ExecReport.accepted order.instrument order.id).isTrade = false := rfl
  rw [acceptReports, filter_append, filter_append, filter_append, hstp, filter_isTrade_map]
  simp [haccepted, hstatus]

/-- The trades among the reports of an amendment that re-enters its order. -/
theorem filter_isTrade_requoted (p : Processor) (instrument orderId newQty : ℕ)
    (report : SubmitReport) :
    (p.modifyReports instrument orderId newQty (.requoted report)).filter ExecReport.isTrade =
      report.trades.map (p.tradeReport instrument) := by
  simp only [modifyReports, filter_append, filter_isTrade_map]
  cases report.status <;> simp [ExecReport.isTrade]

/-- **The tape of a command.** Its `Trade` reports are the trades of its taker. They are
booked, but for those of an amendment. -/
theorem apply_tape (hs : cmd.Single) (h : p.apply ω cmd = some (p', reports)) :
    ∃ trades, reports.filter ExecReport.isTrade = trades.map (p.tradeReport cmd.instrument) ∧
      (trades = [] ∨ ∃ e taken e' report, p.TakerOf cmd e taken ∧
        e.submit taken = some (e', report) ∧ report.trades = trades) ∧
      p'.positions = if cmd.isModify then p.positions
        else (trades.foldl (fun p t => p.book cmd.instrument t) p).positions := by
  cases apply_does h with
  | @enters _ q _ _ pulled _ hcmd hnew =>
    obtain ⟨hinst, ⟨engines, hq⟩, ids, hids⟩ := hcmd.facts
    have hmodify : cmd.isModify = false := by cases hcmd <;> rfl
    have hpulled : pulled.filter ExecReport.isTrade = [] := by
      rw [hids]
      exact filter_isTrade_cancelled _ _
    rw [filter_append, hpulled, nil_append, hmodify]
    cases hnew with
    | refused _ _ hwith =>
      obtain ⟨engines', rfl⟩ := hwith
      exact ⟨[], rfl, .inl rfl, by rw [hq]; rfl⟩
    | @accepted taken e report hscreen hv hsubmit _ _ hpos =>
      rw [hinst] at hsubmit hpos
      refine ⟨report.trades, ?_, .inr ⟨_, taken, e, report, ?_, hsubmit, rfl⟩, ?_⟩
      · rw [filter_isTrade_acceptReports, hv.instrument, hinst,
          tradeReport_congr (show q.config = p.config by rw [hq])]
      · cases hcmd with
        | new order => exact .new hscreen
        | close hpull _ =>
          rw [Command.instrument, engineFor_setEngine_self]
          exact .close hpull hscreen
      · rw [hpos]
        exact positions_books (by rw [hq]) _ _
  | @cancel _ _ _ _ removed _ =>
    refine ⟨[], ?_, .inl rfl, rfl⟩
    cases removed <;> rfl
  | modify hmodify =>
    rcases MatchingEngine.modify_eq_some hmodify with ⟨rfl, -⟩ | ⟨rfl, -⟩ | ⟨rfl, -⟩ |
      ⟨o, b, report, hreq, hcancel, hsubmit, rfl⟩
    · exact ⟨[], rfl, .inl rfl, rfl⟩
    · exact ⟨[], rfl, .inl rfl, rfl⟩
    · exact ⟨[], rfl, .inl rfl, rfl⟩
    · exact ⟨report.trades, p.filter_isTrade_requoted _ _ _ _,
        .inr ⟨_, _, _, report, .requote hreq hcancel, hsubmit, rfl⟩, rfl⟩
  | pull hpull => exact ⟨[], filter_isTrade_cancelled _ _, .inl rfl, rfl⟩
  | halt | resume | haltUser | resumeUser => exact ⟨[], rfl, .inl rfl, rfl⟩
  | batch => exact hs.elim

/-- A reported trade is a trade of the command's taker. -/
theorem exists_trade_of_mem (hs : cmd.Single) (h : p.apply ω cmd = some (p', reports))
    {r : ExecReport} (hr : r ∈ reports) (htrade : r.isTrade = true) :
    ∃ e taken e' report, p.TakerOf cmd e taken ∧ e.submit taken = some (e', report) ∧
      ∃ t ∈ report.trades, r = p.tradeReport cmd.instrument t := by
  obtain ⟨trades, hreports, htaker, -⟩ := apply_tape hs h
  have hmem : r ∈ trades.map (p.tradeReport cmd.instrument) := by
    rw [← hreports, mem_filter]
    exact ⟨hr, htrade⟩
  obtain ⟨t, ht, rfl⟩ := List.mem_map.mp hmem
  rcases htaker with rfl | ⟨e, taken, e', report, htaker, hsubmit, rfl⟩
  · cases ht
  · exact ⟨e, taken, e', report, htaker, hsubmit, t, ht, rfl⟩

end Processor

/-- A fee is exact iff the exact one fits into 64 bits: its product then also fits into 128. -/
theorem FeeSchedule.fee_eq_iff (price qty bps : ℕ) :
    fee price qty bps = price * qty * bps / 10000 ↔ price * qty * bps / 10000 < 2 ^ 64 := by
  constructor
  · intro h
    rw [← h]
    exact Nat.mod_lt _ (by decide)
  · intro h
    have hwide : price * qty * bps < 2 ^ 128 := by omega
    rw [fee, Nat.mod_eq_of_lt hwide, Nat.mod_eq_of_lt h]

namespace Processor

/-- **Fees on the tape.** In every run the fees of a trade are the exact ones, rounded down, iff
these fit into 64 bits. -/
theorem fees_exact_iff (config : ProcessorConfig) (ω : Oracle) (i : ℕ) (cmds : List Command)
    (p : Processor) (reports : List ExecReport)
    (h : (fresh config).processAll ω i cmds = some (p, reports))
    (instrument taker maker : ℕ) (aggressor : Side) (price qty makerFee takerFee : ℕ)
    (htrade : .trade instrument taker maker aggressor price qty makerFee takerFee ∈ reports) :
    (makerFee = price * qty * config.fees.makerBps / 10000 ↔
      price * qty * config.fees.makerBps / 10000 < 2 ^ 64) ∧
    (takerFee = price * qty * config.fees.takerBps / 10000 ↔
      price * qty * config.fees.takerBps / 10000 < 2 ^ 64) := by
  obtain ⟨es, htrace, rfl, -⟩ := @trace_of_processAll _ _ undisturbed (fun _ _ => True) _ _ _ cmds
    h fun _ _ _ => trivial
  suffices hfees : makerFee = FeeSchedule.fee price qty config.fees.makerBps ∧
      takerFee = FeeSchedule.fee price qty config.fees.takerBps by
    rw [hfees.1, hfees.2]
    exact ⟨FeeSchedule.fee_eq_iff _ _ _, FeeSchedule.fee_eq_iff _ _ _⟩
  refine (htrace.rule (P := fun p => p.config = config)
    (Q := fun r => ∀ instrument taker maker aggressor price qty makerFee takerFee,
      r = .trade instrument taker maker aggressor price qty makerFee takerFee →
        makerFee = FeeSchedule.fee price qty config.fees.makerBps ∧
        takerFee = FeeSchedule.fee price qty config.fees.takerBps)
    nofun ?_ ?_ (fun _ _ _ hout => hout.elim) rfl).2 _ htrade _ _ _ _ _ _ _ _ rfl
  · exact fun p cmd hp => (p.config_dedupe cmd).trans hp
  · intro p ω cmd p' reports hs _ hp happly
    constructor
    · obtain ⟨engines, positions, rfl⟩ := exists_apply happly
      exact hp
    · rintro r hr instrument taker maker aggressor price qty makerFee takerFee rfl
      obtain ⟨e, taken, e', report, -, -, t, -, heq⟩ := exists_trade_of_mem hs happly hr rfl
      simp only [tradeReport, ExecReport.trade.injEq] at heq
      obtain ⟨-, -, -, -, rfl, rfl, rfl, rfl⟩ := heq
      rw [hp]
      exact ⟨rfl, rfl⟩

/-- Rates of 10 and 20 basis points. -/
def feeConfig : ProcessorConfig := { defaultConfig with fees := ⟨10, 20⟩ }

theorem fees_exact_iff_small : ∃ p reports,
    (fresh feeConfig).processAll (fun _ => 1) 0
      [.new (Order.limit 1 .sell 1000 3), .new (Order.limit 2 .buy 1000 3)] = some (p, reports) ∧
    .trade 0 2 1 .buy 1000 3 3 6 ∈ reports ∧ 3 = 1000 * 3 * 10 / 10000 := by
  have hrun : ((fresh feeConfig).processAll (fun _ => 1) 0
      [.new (Order.limit 1 .sell 1000 3), .new (Order.limit 2 .buy 1000 3)]).map
      (fun r => decide (.trade 0 2 1 .buy 1000 3 3 6 ∈ r.2)) = some true := by decide +kernel
  obtain ⟨⟨p, reports⟩, hrun, hmem⟩ := map_eq_some_iff.mp hrun
  have hmem := of_decide_eq_true hmem
  exact ⟨p, reports, hrun, hmem,
    (fees_exact_iff _ _ _ _ _ _ hrun _ _ _ _ _ _ _ _ hmem).1.mpr (by decide)⟩

/-- A trillion lots at a trillion ticks: the maker owes `10 ^ 21`, which 64 bits do not hold. -/
theorem fees_truncated : ((fresh feeConfig).processAll (fun _ => 1) 0
      [.new (Order.limit 1 .sell (10 ^ 12) (10 ^ 12)),
        .new (Order.limit 2 .buy (10 ^ 12) (10 ^ 12))]).map
      (fun r => decide (.trade 0 2 1 .buy (10 ^ 12) (10 ^ 12) (10 ^ 21 % 2 ^ 64)
        (2 * 10 ^ 21 % 2 ^ 64) ∈ r.2)) = some true ∧
    10 ^ 21 % 2 ^ 64 ≠ 10 ^ 12 * 10 ^ 12 * feeConfig.fees.makerBps / 10000 ∧
    2 * 10 ^ 21 % 2 ^ 64 ≠ 10 ^ 12 * 10 ^ 12 * feeConfig.fees.takerBps / 10000 := by
  decide +kernel

end Processor

end TradeCore
