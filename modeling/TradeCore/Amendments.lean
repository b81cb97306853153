import TradeCore.Tape

/-!
# Amendments and the Checks of New Orders

A new order passes the price band and the static limits (`risk.rs`) before it reaches the
book, and so does the closing order of a forced liquidation. An amendment that re-enters its
order goes to the engine directly. Every property that the checks are meant to give therefore
holds exactly as far as the amendments of the run respect it by themselves:

* trades stay inside the price band when every amendment that crosses has a price inside it
  (`Processor.trades_in_band`);
* resting orders respect the static limits when every amendment that re-enters an order does
  (`Processor.resting_within_limits`).

Each has a run in which one amendment breaks it.
-/

namespace TradeCore

open Std List Option

variable {cmd : Command} {taken : Order} {p : Processor} {bps r : ℕ}

/-- A cancellation does not touch the other side. -/
theorem OrderBook.best_cancel {b b' : OrderBook} {id : ℕ} {o : Order}
    (h : b.cancel id = some (some o, b')) :
    b'.best o.side.opposite = b.best o.side.opposite := by
  rcases cancel_eq_some h with ⟨-, hr, -⟩ | ⟨slot, o', lv, counts, -, hr, hm⟩
  · cases hr
  · cases hr
    simp only [maintain, bind, bind_eq_some_iff, Prod.exists, Option.pure_def, some.injEq] at hm
    obtain ⟨x, pool, -, rfl⟩ := hm
    cases hs : o.side <;> simp [shrinkAs, shrink, setSide, best, Side.opposite, hs]

namespace Processor

/-- The command amends `o` on the instrument in a way that re-enters it. -/
def Amends (p : Processor) (cmd : Command) (instrument : ℕ) (o : Order) (newPrice newQty : ℕ) :
    Prop :=
  ∃ id cmdId, cmd = .modify instrument id newPrice newQty cmdId ∧
    (p.engineFor instrument).Requotes id newPrice newQty o

/-- Other commands amend nothing. -/
theorem not_amends (h : ∀ i id price qty cmdId, cmd ≠ .modify i id price qty cmdId) (p : Processor)
    (instrument : ℕ) (o : Order) (newPrice newQty : ℕ) :
    ¬ p.Amends cmd instrument o newPrice newQty := by
  rintro ⟨_, _, heq, _⟩
  exact h _ _ _ _ _ heq

/-- The amended order reaches the best price of the other side. -/
def Reaches (p : Processor) (instrument : ℕ) (o : Order) (newPrice newQty : ℕ) : Prop :=
  ∃ px, (p.engineFor instrument).book.best o.side.opposite = some px ∧
    crossable (o.requote newPrice newQty) px = true

/-- **An amendment trades only if it reaches the other side.** -/
theorem reaches_of_trade {instrument id newPrice newQty : ℕ} {o : Order} {b : OrderBook}
    (hcancel : (p.engineFor instrument).book.cancel id = some (some o, b)) {e' : MatchingEngine}
    {report : SubmitReport}
    (hsubmit : { p.engineFor instrument with book := b }.submit (o.requote newPrice newQty) =
      some (e', report)) (htrades : report.trades ≠ []) :
    p.Reaches instrument o newPrice newQty := by
  by_contra hout
  refine htrades (MatchingEngine.submit_trades_nil rfl (fun px hbest => ?_) hsubmit)
  by_contra hcross
  refine hout ⟨px, ?_, by simpa using hcross⟩
  rw [← OrderBook.best_cancel hcancel]
  exact hbest

end Processor

/-! ### The price band -/

/-- The command is no new order with a budget. -/
def Command.Plain : Command → Prop
  | .new order => order.tif.Plain
  | _ => True

/-- **A screened order** is a limit order inside the band. -/
theorem Processor.inBand_of_screen {g : PriceGuard} {order : Order} (hg : p.config.guard = some g)
    (h : (p.screen order).2 = .ok taken) (hplain : order.tif.Plain)
    (href : g.reference order.instrument ≠ 0) :
    taken.orderType = .limit ∧ taken.tif.Plain ∧
      inBand g.bandBps (g.reference order.instrument) taken.side taken.price := by
  obtain ⟨-, -, -, ⟨rfl, hpass⟩ | ⟨g', hg', rfl⟩⟩ := screen_eq_ok h
  · obtain ⟨htype, hband⟩ := hpass g hg hplain href
    exact ⟨htype, hplain, hband⟩
  · obtain rfl : g = g' := some.inj (hg.symm.trans hg')
    refine ⟨rfl, ?_, ?_⟩
    · simp only [PriceGuard.protect]
      split
      · exact ⟨TimeInForce.noConfusion, TimeInForce.noConfusion⟩
      · exact hplain
    · simp only [PriceGuard.protect]
      cases order.side <;> simp [inBand, PriceGuard.band]

/-- A limit order inside the band trades inside the band. -/
theorem inBand_of_crossable {px : ℕ} {taker : Order} (h : inBand bps r taker.side taker.price)
    (htype : taker.orderType = .limit) (hcross : crossable taker px = true) :
    inBand bps r taker.side px := by
  cases hs : taker.side with
  | buy =>
    simp only [crossable, htype, hs, decide_eq_true_eq] at hcross
    rw [hs] at h
    exact Nat.le_trans hcross h
  | sell =>
    simp only [crossable, htype, hs, decide_eq_true_eq] at hcross
    rw [hs] at h
    exact Nat.le_trans h hcross

namespace Processor

/-- Reference prices may move, but not that of the instrument. -/
def RefsMove (instrument : ℕ) (p p' : Processor) : Prop :=
  ∃ g refs, p.config.guard = some g ∧
    PriceGuard.reference { g with refs := refs } instrument = g.reference instrument ∧
    p' = { p with config := { p.config with guard := some { g with refs := refs } } }

/-- A command in range without a budget; an amendment on the instrument that reaches the other
side has a price inside the band. -/
def AmendsInBand (bps r instrument : ℕ) (p : Processor) (cmd : Command) : Prop :=
  cmd.InRange ∧ cmd.Plain ∧ ∀ o newPrice newQty, p.Amends cmd instrument o newPrice newQty →
    p.Reaches instrument o newPrice newQty → inBand bps r o.side newPrice

/-- What an execution with a price band keeps: charted books of limit orders, and the band. -/
structure Banded (bps r instrument : ℕ) (p : Processor) : Prop where
  charted : p.Charted
  limit : p.Records fun o => o.orderType = .limit
  guard : ∃ g, p.config.guard = some g ∧ g.bandBps = bps ∧ g.reference instrument = r

/-- The taker of a command on a banded instrument, if it trades, is a limit order inside the
band. -/
theorem Banded.taker {e e' : MatchingEngine} {report : SubmitReport}
    (hp : p.Banded bps r cmd.instrument) (hr : r ≠ 0)
    (hok : p.AmendsInBand bps r cmd.instrument cmd) (h : p.TakerOf cmd e taken)
    (hsubmit : e.submit taken = some (e', report)) (htrades : report.trades ≠ []) :
    taken.orderType = .limit ∧ taken.tif.Plain ∧ inBand bps r taken.side taken.price := by
  obtain ⟨g, hg, rfl, rfl⟩ := hp.guard
  cases h with
  | new h => exact inBand_of_screen hg h hok.2.1 hr
  | close hpull h => exact inBand_of_screen (p := p.setEngine _ e) hg h ⟨nofun, nofun⟩ hr
  | @requote instrument id newPrice newQty cmdId o b hreq hcancel =>
    refine ⟨?_, ⟨nofun, nofun⟩, ?_⟩
    · obtain ⟨slot, -, hget⟩ := bind_eq_some_iff.mp hreq.1
      exact hp.limit instrument slot o hget
    · exact hok.2.2 o newPrice newQty ⟨id, cmdId, rfl, hreq⟩
        (reaches_of_trade hcancel hsubmit htrades)

/-- An applied command keeps the band. -/
theorem Banded.apply {instrument : ℕ} {p' : Processor} {ω : HashOrder} {reports : List ExecReport}
    (hp : p.Banded bps r instrument) (hs : cmd.Single) (hr : cmd.InRange)
    (h : p.apply ω cmd = some (p', reports)) : p'.Banded bps r instrument where
  charted := hp.charted.apply hs hr h
  limit := hp.limit.apply hp.charted hs h (fun o o' hsame ho => by rw [hsame]; exact ho)
    fun e taken seq rest _ hrest => by rw [hrest.same]; exact hrest.orderType
  guard := by
    obtain ⟨engines, positions, rfl⟩ := exists_apply h
    exact hp.guard

/-- **Price band on executions.** While the reference price of an instrument stands, all its
trades print inside the band, if the amendments that reach the other side have a price inside
it. -/
theorem trades_in_band (config : ProcessorConfig) (g : PriceGuard) (hg : config.guard = some g)
    (instrument : ℕ) (href : g.reference instrument ≠ 0) (es : List Event) (p : Processor)
    (h : Trace (RefsMove instrument) (AmendsInBand g.bandBps (g.reference instrument) instrument)
      (fresh config) es p) (taker maker : ℕ) (aggressor : Side) (price qty makerFee takerFee : ℕ)
    (htrade : .trade instrument taker maker aggressor price qty makerFee takerFee ∈
      es.flatMap Event.reports) :
    inBand g.bandBps (g.reference instrument) aggressor price := by
  refine (h.rule (P := Banded g.bandBps (g.reference instrument) instrument)
    (Q := fun r => ∀ taker maker aggressor price qty makerFee takerFee,
      r = .trade instrument taker maker aggressor price qty makerFee takerFee →
        inBand g.bandBps (g.reference instrument) aggressor price)
    nofun ?_ ?_ ?_ ⟨charted_fresh config, records_fresh _ config, g, hg, rfl, rfl⟩).2 _ htrade taker
    maker aggressor price qty makerFee takerFee rfl
  · intro p cmd hp
    refine ⟨hp.charted.dedupe cmd, hp.limit.dedupe cmd, ?_⟩
    rw [config_dedupe]
    exact hp.guard
  · intro p ω cmd p' reports hs hok hp happly
    refine ⟨hp.apply hs hok.1 happly, ?_⟩
    rintro r hr taker maker aggressor price qty makerFee takerFee rfl
    obtain ⟨e, taken, e', report, htaker, hsubmit, t, ht, heq⟩ :=
      exists_trade_of_mem hs happly hr rfl
    simp only [tradeReport, ExecReport.trade.injEq] at heq
    obtain ⟨rfl, -, -, rfl, rfl, -⟩ := heq
    obtain ⟨htype, hplain, hband⟩ :=
      hp.taker href hok htaker hsubmit (ne_nil_of_mem ht)
    obtain ⟨taker', -, -, hside, hkeep, hof⟩ :=
      MatchingEngine.submit_trades (htaker.charted hp.charted) hsubmit
    obtain ⟨hprice, htype'⟩ := hkeep hplain.1 hplain.2
    rw [(hof t ht).aggressor]
    refine inBand_of_crossable ?_ (htype'.trans htype) (hof t ht).crosses
    rw [hside, hprice]
    exact hband
  · rintro p p' hp ⟨g', refs, hg', href', rfl⟩
    obtain ⟨g₀, hg₀, hbps, hr₀⟩ := hp.guard
    obtain rfl : g' = g₀ := some.inj (hg'.symm.trans hg₀)
    exact ⟨hp.charted, hp.limit, _, rfl, hbps, href'.trans hr₀⟩

/-- A price band of ten percent around 100. -/
def tenPercent : PriceGuard where
  bandBps := 1000
  refs := (∅ : ExtTreeMap ℕ UInt64).insert 0 100

/-- The default settings with that band. -/
def bandedConfig : ProcessorConfig := { defaultConfig with guard := some tenPercent }

/-- An ask at 105 and a bid at 100. -/
def quotes : List Command :=
  [.new ((Order.limit 1 .sell 105 5).by_ 1), .new ((Order.limit 2 .buy 100 5).by_ 2)]

/-- A bid that is amended from 100 to 105 takes the ask at 105. -/
def raisedBid : List Command := quotes ++ [.modify 0 2 105 5 3]

theorem trades_in_band_raisedBid : ∃ es p,
    Trace (RefsMove 0) (AmendsInBand 1000 100 0) (fresh bandedConfig) es p ∧
    .trade 0 2 1 .buy 105 5 0 0 ∈ es.flatMap Event.reports ∧ inBand 1000 100 .buy 105 := by
  have hrun : ((fresh bandedConfig).processAll (fun _ => 1) 0 raisedBid).map
      (fun r => decide (.trade 0 2 1 .buy 105 5 0 0 ∈ r.2)) = some true := by decide +kernel
  obtain ⟨⟨p, reports⟩, hrun, hmem⟩ := map_eq_some_iff.mp hrun
  have hok : ∀ p, ∀ c ∈ Command.allLeaves raisedBid, AmendsInBand 1000 100 0 p c := by
    intro p c hc
    simp only [raisedBid, quotes, cons_append, nil_append, Command.allLeaves, Command.leaves,
      mem_cons, not_mem_nil, or_false] at hc
    rcases hc with rfl | rfl | rfl
    iterate 2
      exact ⟨by unfold Command.InRange; decide, ⟨by simp [Order.by_, Order.limit],
        by simp [Order.by_, Order.limit]⟩, fun o _ _ h => absurd h (not_amends (by simp) _ _ _ _ _)⟩
    · refine ⟨by unfold Command.InRange; decide, trivial, ?_⟩
      rintro o newPrice newQty ⟨_, _, h, _⟩ _
      obtain ⟨-, -, rfl, -⟩ := Command.modify.inj h
      cases o.side <;> simp [inBand, priceMax]
  obtain ⟨es, htrace, rfl, -⟩ := trace_of_processAll raisedBid hrun hok
  have hmem := of_decide_eq_true hmem
  exact ⟨es, p, htrace, hmem, trades_in_band bandedConfig tenPercent rfl 0 (by decide +kernel) es p
    htrace 2 1 .buy 105 5 0 0 hmem⟩

/-- **An amendment trades outside the band**: bid 2 moves from 100 to 120 and takes the ask
at 120, while a new order with that price is rejected. -/
theorem amendment_leaves_band : ∃ p reports,
    (fresh bandedConfig).processAll (fun _ => 1) 0
      [.new ((Order.limit 1 .sell 120 5).by_ 1), .new ((Order.limit 2 .buy 100 5).by_ 2),
        .modify 0 2 120 5 3] = some (p, reports) ∧
    .trade 0 2 1 .buy 120 5 0 0 ∈ reports ∧ ¬ inBand 1000 100 .buy 120 ∧
    ((fresh bandedConfig).screen ((Order.limit 2 .buy 120 5).by_ 2)).2 = .error .priceBand := by
  have hrun : ((fresh bandedConfig).processAll (fun _ => 1) 0
      [.new ((Order.limit 1 .sell 120 5).by_ 1), .new ((Order.limit 2 .buy 100 5).by_ 2),
        .modify 0 2 120 5 3]).map (fun r => decide (.trade 0 2 1 .buy 120 5 0 0 ∈ r.2)) =
      some true := by decide +kernel
  obtain ⟨⟨p, reports⟩, hrun, htrade⟩ := map_eq_some_iff.mp hrun
  exact ⟨p, reports, hrun, of_decide_eq_true htrade, by simp [inBand, priceMax], by decide +kernel⟩

end Processor

/-! ### Static limits -/

/-- A quantity and price within the static limits. -/
def RiskLimits.Within (l : RiskLimits) (price quantity : ℕ) : Prop :=
  (0 < l.maxOrderQty → quantity ≤ l.maxOrderQty) ∧
    (0 < l.maxNotional → price * quantity ≤ l.maxNotional)

/-- A limit order that passes the static checks is within the limits. -/
theorem RiskLimits.within_of_checkStatic {l : RiskLimits} {order : Order}
    (h : l.checkStatic order = .ok ()) (htype : order.orderType = .limit) :
    l.Within order.price order.quantity := by
  unfold checkStatic at h
  split at h
  · cases h
  · rename_i hqty
    split at h
    · cases h
    · rename_i hnotional
      exact ⟨fun hpos => Nat.le_of_not_lt fun hlt => hqty ⟨hpos, hlt⟩,
        fun hpos => Nat.le_of_not_lt fun hlt => hnotional ⟨hpos, htype, hlt⟩⟩

namespace Processor

/-- A command in range; an amendment that re-enters an order is within the limits. -/
def AmendsWithin (l : RiskLimits) (p : Processor) (cmd : Command) : Prop :=
  cmd.InRange ∧ ∀ instrument o newPrice newQty, p.Amends cmd instrument o newPrice newQty →
    l.Within newPrice newQty

/-- What is left to rest of a taker is within the limits. -/
theorem within_of_restOf {l : RiskLimits} (hl : p.config.limits = some l)
    (hok : p.AmendsWithin l cmd) {e : MatchingEngine} {rest : Order} {seq : ℕ}
    (h : p.TakerOf cmd e taken) (hrest : MatchingEngine.RestOf seq taken rest) :
    l.Within rest.price rest.quantity := by
  have hsame : rest.price = taken.price ∧ rest.quantity = taken.quantity := by
    rw [hrest.same]
    exact ⟨rfl, rfl⟩
  rw [hsame.1, hsame.2]
  cases h with
  | new h =>
    -- an order that may rest is handed on as it came
    obtain rfl := (vettedTo_of_screen h).same hrest.tif
    exact l.within_of_checkStatic ((screen_eq_ok h).2.2.1 l hl).1 hrest.orderType
  | close hpull h =>
    have htif := hrest.tif
    rw [(vettedTo_of_screen h).same htif] at htif
    cases htif
  | @requote instrument id newPrice newQty cmdId o b hreq hcancel =>
    exact hok.2 instrument o newPrice newQty ⟨id, cmdId, rfl, hreq⟩

/-- **Static limits on what rests.** Every live record of every book is within the limits, if
the amendments that re-enter an order are. -/
theorem resting_within_limits (config : ProcessorConfig) (l : RiskLimits)
    (hl : config.limits = some l) (es : List Event) (p : Processor)
    (h : Trace undisturbed (AmendsWithin l) (fresh config) es p) (instrument slot : ℕ) (o : Order)
    (ho : (p.engineFor instrument).book.pool.get slot = some o) :
    (0 < l.maxOrderQty → o.quantity ≤ l.maxOrderQty) ∧
      (0 < l.maxNotional → o.price * o.quantity ≤ l.maxNotional) := by
  have hinv := h.invariant (P := fun p => p.Charted ∧ p.config.limits = some l ∧
    p.Records fun o => l.Within o.price o.quantity) ?_ ?_ (fun _ _ _ hout => hout.elim)
    ⟨charted_fresh config, hl, records_fresh _ config⟩
  · exact hinv.2.2 instrument slot o ho
  · rintro p cmd ⟨hc, hl, hrec⟩
    exact ⟨hc.dedupe cmd, by rwa [config_dedupe], hrec.dedupe cmd⟩
  · rintro p ω cmd p' reports hs hok ⟨hc, hl, hrec⟩ happly
    refine ⟨hc.apply hs hok.1 happly, ?_, ?_⟩
    · obtain ⟨engines, positions, rfl⟩ := exists_apply happly
      exact hl
    · refine hrec.apply hc hs happly (fun o o' hsame ho => ?_) fun e taken seq rest htaker hrest =>
        within_of_restOf hl hok htaker hrest
      rw [hsame]
      exact ho

/-- At most ten lots an order, and a notional of at most 1000. -/
def tenLots : RiskLimits where
  maxOrderQty := 10
  maxNotional := 1000
  maxUserOrders := 0

/-- The default settings with those limits. -/
def limitedConfig : ProcessorConfig := { defaultConfig with limits := some tenLots }

/-- A bid that is amended to ten lots at 99. -/
theorem resting_within_limits_amended : ∃ es p slot o,
    Trace undisturbed (AmendsWithin tenLots) (fresh limitedConfig) es p ∧
    (p.engineFor 0).book.pool.get slot = some o ∧ o.quantity = 10 ∧ o.price = 99 ∧
    o.quantity ≤ 10 ∧ o.price * o.quantity ≤ 1000 := by
  have hrun : ((fresh limitedConfig).processAll (fun _ => 1) 0
      [.new ((Order.limit 1 .buy 100 5).by_ 1), .modify 0 1 99 10 2]).map
        (fun r => (r.1.engineFor 0).book.pool.slots.map fun o => (o.quantity, o.price)) =
      some [(10, 99)] := by decide +kernel
  obtain ⟨⟨p, reports⟩, hrun, hslots⟩ := map_eq_some_iff.mp hrun
  have hok : ∀ p, ∀ c ∈ Command.allLeaves
      [.new ((Order.limit 1 .buy 100 5).by_ 1), .modify 0 1 99 10 2], AmendsWithin tenLots p c := by
    intro p c hc
    simp only [Command.allLeaves, Command.leaves, singleton_append, mem_cons,
      not_mem_nil, or_false] at hc
    rcases hc with rfl | rfl
    · exact ⟨by unfold Command.InRange; decide,
        fun _ _ _ _ h => absurd h (not_amends (by simp) _ _ _ _ _)⟩
    · refine ⟨by unfold Command.InRange; decide, ?_⟩
      rintro i o newPrice newQty ⟨_, _, h, _⟩
      obtain ⟨-, -, rfl, rfl, -⟩ := Command.modify.inj h
      exact ⟨fun _ => by decide, fun _ => by decide⟩
  obtain ⟨es, htrace, -⟩ := trace_of_processAll _ hrun hok
  obtain ⟨o, ho, hpair⟩ := map_eq_singleton_iff.mp hslots
  have hget : (p.engineFor 0).book.pool.get 0 = some o := by
    rw [OrderPool.get, ho]
    rfl
  have hwithin := resting_within_limits limitedConfig tenLots rfl es p htrace 0 0 o hget
  obtain ⟨hq, hp⟩ := Prod.mk.inj hpair
  exact ⟨es, p, 0, o, htrace, hget, hq, hp, hwithin.1 (by decide), hwithin.2 (by decide)⟩

/-- **An amendment rests beyond the limits**: order 1 grows from 5 to 100 lots, while a new
order of that size is rejected. -/
theorem amendment_exceeds_limits : ∃ p reports o,
    (fresh limitedConfig).processAll (fun _ => 1) 0
      [.new ((Order.limit 1 .buy 100 5).by_ 1), .modify 0 1 100 100 2] = some (p, reports) ∧
    (p.engineFor 0).book.get 1 = some o ∧ 0 < o.remaining ∧ tenLots.maxOrderQty < o.quantity ∧
    tenLots.maxNotional < o.price * o.quantity ∧
    ((fresh limitedConfig).screen ((Order.limit 1 .buy 100 100).by_ 1)).2 = .error .maxQty := by
  have hrun : ((fresh limitedConfig).processAll (fun _ => 1) 0
      [.new ((Order.limit 1 .buy 100 5).by_ 1), .modify 0 1 100 100 2]).map
        (fun r => ((r.1.engineFor 0).book.get 1).map fun o => (o.remaining, o.quantity, o.price)) =
      some (some (100, 100, 100)) := by decide +kernel
  obtain ⟨⟨p, reports⟩, hrun, hget⟩ := map_eq_some_iff.mp hrun
  obtain ⟨o, ho, hfields⟩ := map_eq_some_iff.mp hget
  simp only [Prod.mk.injEq] at hfields
  obtain ⟨hrem, hqty, hprice⟩ := hfields
  refine ⟨p, reports, o, hrun, ho, ?_, ?_, ?_, by decide +kernel⟩
  · rw [hrem]
    decide
  · rw [hqty]
    decide
  · rw [hqty, hprice]
    decide

end Processor

end TradeCore
