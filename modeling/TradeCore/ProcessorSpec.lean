import TradeCore.Wire

/-!
# What a Command Does

Every property of the processor rests on a few facts about single commands, stated here once:

* the duplicate filters touch the seen ids and the cursors (`Processor.exists_dedupe`);
* the checks of a new order create at most its book and hand on a vetted order
  (`Processor.vettedTo_of_screen`, `Processor.engineFor_screen`);
* an applied command makes a few calls to the engine of its instrument, known in advance
  (`Command.Makes`), and leaves the other engines alone (`Processor.apply_makes`).

A `Processor.Trace` is an execution taken apart into the commands it meets, with the batches
opened. Every execution has one (`Processor.trace_of_processAll`), so that properties of
executions are proved by induction on traces.
-/

namespace TradeCore

open Std List Option

variable {cmd : Command} {ω : HashOrder} {order : Order} {p p' q : Processor} {instrument : ℕ}

/-! ### Engines and positions -/

/-- What the checks of a new order may change: its type, price and time-in-force, as long as
they keep it from resting. -/
structure Order.VettedTo (order order' : Order) : Prop where
  id : order'.id = order.id
  instrument : order'.instrument = order.instrument
  user : order'.user = order.user
  side : order'.side = order.side
  quantity : order'.quantity = order.quantity
  inRange : order.InRange → order'.InRange
  same : order'.tif = .gtc → order' = order

theorem Order.VettedTo.refl (order : Order) : order.VettedTo order :=
  ⟨rfl, rfl, rfl, rfl, rfl, fun h => h, fun _ => rfl⟩

/-- The price is inside the band around the reference price `r`, in saturating arithmetic. -/
def inBand (bps r : ℕ) : Side → ℕ → Prop
  | .buy, price => price ≤ min (r + min (r * bps) priceMax / 10000) priceMax
  | .sell, price => r - min (r * bps) priceMax / 10000 ≤ price

/-- The time-in-force carries no budget. -/
def TimeInForce.Plain (tif : TimeInForce) : Prop := tif ≠ .iocBudget ∧ tif ≠ .fokBudget

namespace PriceGuard

/-- A market order under price protection. -/
def protect (g : PriceGuard) (order : Order) : Order :=
  { order with
    orderType := .limit
    price := match order.side with
      | .buy => (g.band (g.reference order.instrument)).2
      | .sell => (g.band (g.reference order.instrument)).1
    tif := if order.tif = .gtc then .ioc else order.tif }

/-- What the guard demands of an order that it leaves alone. -/
def Passes (g : PriceGuard) (order : Order) : Prop :=
  order.tif.Plain → g.reference order.instrument ≠ 0 → order.orderType = .limit ∧
    inBand g.bandBps (g.reference order.instrument) order.side order.price

theorem vet_cases (g : PriceGuard) (order : Order) :
    (g.vet order = .ok order ∧ g.Passes order) ∨ g.vet order = .error .priceBand ∨
      g.vet order = .ok (g.protect order) := by
  unfold vet
  split
  · rename_i hbudget
    exact .inl ⟨rfl, fun hplain => (hbudget.elim hplain.1 hplain.2).elim⟩
  · split
    · exact .inl ⟨rfl, fun _ href => absurd ‹_› href⟩
    · dsimp only
      split
      · rename_i htype hside
        split
        · exact .inr (.inl rfl)
        · exact .inl ⟨rfl, fun _ _ => ⟨htype, hside ▸ Nat.le_of_not_lt ‹_›⟩⟩
      · rename_i htype hside
        split
        · exact .inr (.inl rfl)
        · exact .inl ⟨rfl, fun _ _ => ⟨htype, hside ▸ Nat.le_of_not_lt ‹_›⟩⟩
      · exact .inr (.inr rfl)

theorem vettedTo_protect (g : PriceGuard) (order : Order) : order.VettedTo (g.protect order) := by
  refine ⟨rfl, rfl, rfl, rfl, rfl, fun hr => ⟨hr.id, hr.instrument, hr.user, ?_, hr.quantity,
    hr.remaining, hr.timestamp⟩, fun hgtc => ?_⟩
  · have href := (g.refs[order.instrument]?.getD 0).toNat_lt
    simp only [protect, band, reference, priceMax]
    split <;> omega
  · -- a protected market order is never good till cancelled
    simp only [protect] at hgtc
    split at hgtc
    · cases hgtc
    · exact absurd hgtc ‹_›

end PriceGuard

namespace Processor

variable {reports : List ExecReport}

section Engines

variable (p : Processor) (instrument : ℕ) (e : MatchingEngine)

@[simp] theorem engineFor_setEngine_self : (p.setEngine instrument e).engineFor instrument = e := by
  simp [engineFor, setEngine]

theorem engineFor_setEngine_ne {instrument' : ℕ} (h : instrument' ≠ instrument) :
    (p.setEngine instrument e).engineFor instrument' = p.engineFor instrument' := by
  simp [engineFor, setEngine, ExtTreeMap.getElem?_insert, h.symm]

end Engines

/-- A booking touches the ledger only. -/
theorem exists_addPosition (p : Processor) (user instrument : ℕ) (qty : ℤ) :
    ∃ positions, p.addPosition user instrument qty = { p with positions := positions } := by
  unfold addPosition
  split
  · exact ⟨p.positions, rfl⟩
  · exact ⟨_, rfl⟩

/-- A position after a booking. -/
theorem position_addPosition (p : Processor) (user instrument : ℕ) (qty : ℤ)
    (user' instrument' : ℕ) :
    (p.addPosition user instrument qty).position user' instrument' =
      if user ≠ 0 ∧ user' = user ∧ instrument' = instrument then
        Int.bmod (p.position user instrument + qty) (2 ^ 64)
      else p.position user' instrument' := by
  unfold addPosition
  by_cases hu : user = 0
  · simp [hu]
  · rw [if_neg hu]
    by_cases hkey : (user', instrument') = (user, instrument)
    · cases hkey
      simp [position, hu]
    · have hne : ¬ (user' = user ∧ instrument' = instrument) := by simpa using hkey
      rw [if_neg fun hc => hne hc.2]
      simp [position, AList.lookup_insert_ne hkey]

/-- The checks of a new order up to the price band. -/
def vetted (p : Processor) (order : Order) : Except RejectReason Order :=
  if order.instrument ∈ p.halted then .error .halted
  else if order.user ≠ 0 ∧ order.user ∈ p.suspended then .error .userSuspended
  else (p.config.limits.elim (.ok ()) fun limits => limits.checkStatic order).bind fun _ =>
    p.config.guard.elim (.ok order) fun guard => guard.vet order

/-- The last check, of the open orders of the user. -/
def capped (p : Processor) : Except RejectReason Order → Processor × Except RejectReason Order
  | .error reason => (p, .error reason)
  | .ok taken =>
    match p.config.limits with
    | none => (p, .ok taken)
    | some limits =>
      if 0 < limits.maxUserOrders ∧ taken.user ≠ 0 then
        (p.setEngine taken.instrument (p.engineFor taken.instrument),
          if limits.maxUserOrders ≤
              (p.engineFor taken.instrument).book.userOpenOrders taken.user then
            .error .maxUserOrders
          else .ok taken)
      else (p, .ok taken)

theorem screen_eq (p : Processor) (order : Order) : p.screen order = p.capped (p.vetted order) := by
  unfold screen vetted
  split
  · rfl
  · split
    · rfl
    · cases p.config.limits.elim (.ok ()) fun limits => limits.checkStatic order with
      | error reason => rfl
      | ok =>
        change _ = p.capped (p.config.guard.elim (.ok order) fun guard => guard.vet order)
        cases p.config.guard.elim (.ok order) fun guard => guard.vet order <;> rfl

theorem vetted_eq_ok {taken : Order} (h : p.vetted order = .ok taken) :
    order.instrument ∉ p.halted ∧ (order.user ≠ 0 → order.user ∉ p.suspended) ∧
      (∀ l, p.config.limits = some l → l.checkStatic order = .ok ()) ∧
      ((taken = order ∧ ∀ g, p.config.guard = some g → g.Passes order) ∨
        ∃ g, p.config.guard = some g ∧ taken = g.protect order) := by
  unfold vetted at h
  split at h
  · cases h
  · split at h
    · cases h
    · rename_i hhalted hsuspended
      refine ⟨hhalted, fun hu hmem => hsuspended ⟨hu, hmem⟩, fun l hl => ?_, ?_⟩
      · rw [hl] at h
        cases hstatic : l.checkStatic order with
        | error reason =>
          rw [elim_some, hstatic] at h
          cases h
        | ok => rfl
      · cases hstatic : p.config.limits.elim (.ok ()) fun limits => limits.checkStatic order with
        | error reason =>
          rw [hstatic] at h
          cases h
        | ok =>
          rw [hstatic] at h
          cases hg : p.config.guard with
          | none =>
            rw [hg] at h
            exact .inl ⟨(Except.ok.inj h).symm, by simp⟩
          | some g =>
            rw [hg] at h
            obtain ⟨hvet, hpass⟩ | hvet | hvet := g.vet_cases order
            · cases hvet.symm.trans h
              exact .inl ⟨rfl, by simpa using hpass⟩
            · cases hvet.symm.trans h
            · cases hvet.symm.trans h
              exact .inr ⟨g, rfl, rfl⟩

/-- The checks of a new order do not look for duplicates. -/
theorem vetted_ne_duplicate (p : Processor) (order : Order) :
    p.vetted order ≠ .error .duplicate := by
  intro h
  unfold vetted at h
  split at h
  · cases h
  · split at h
    · cases h
    · cases hstatic : p.config.limits.elim (.ok ()) fun limits => limits.checkStatic order with
      | error reason =>
        rw [hstatic] at h
        cases h
        obtain ⟨l, -, hstatic⟩ : ∃ l, p.config.limits = some l ∧
            l.checkStatic order = .error .duplicate := by
          cases hl : p.config.limits <;> simp_all
        unfold RiskLimits.checkStatic at hstatic
        split at hstatic
        · cases hstatic
        · split at hstatic <;> cases hstatic
      | ok =>
        rw [hstatic] at h
        cases hg : p.config.guard with
        | none =>
          rw [hg] at h
          cases h
        | some g =>
          rw [hg] at h
          obtain ⟨hvet, -⟩ | hvet | hvet := g.vet_cases order <;> cases hvet.symm.trans h

theorem capped_cases (p : Processor) (r : Except RejectReason Order) :
    (∃ engines, (p.capped r).1 = { p with engines := engines }) ∧
      (∀ i, (p.capped r).1.engineFor i = p.engineFor i) ∧
      ((p.capped r).2 = .error .maxUserOrders ∨ (p.capped r).2 = r ∧
        ∀ taken l, r = .ok taken → p.config.limits = some l → 0 < l.maxUserOrders →
          taken.user ≠ 0 → (p.engineFor taken.instrument).book.userOpenOrders taken.user <
            l.maxUserOrders) := by
  unfold capped
  split
  · exact ⟨⟨_, rfl⟩, fun _ => rfl, .inr ⟨rfl, nofun⟩⟩
  · rename_i taken
    split
    · exact ⟨⟨_, rfl⟩, fun _ => rfl, .inr ⟨rfl, by simp [*]⟩⟩
    · split
      · refine ⟨⟨_, rfl⟩, fun i => ?_, ?_⟩
        · by_cases hi : i = taken.instrument
          · rw [hi, engineFor_setEngine_self]
          · rw [engineFor_setEngine_ne _ _ _ hi]
        · dsimp only
          split
          · exact .inl rfl
          · exact .inr ⟨rfl, by simp_all⟩
      · exact ⟨⟨_, rfl⟩, fun _ => rfl, .inr ⟨rfl, by simp_all⟩⟩

/-- **What an order that passes the checks has passed.** -/
theorem screen_eq_ok {taken : Order} (h : (p.screen order).2 = .ok taken) :
    order.instrument ∉ p.halted ∧ (order.user ≠ 0 → order.user ∉ p.suspended) ∧
      (∀ l, p.config.limits = some l → l.checkStatic order = .ok () ∧
        (0 < l.maxUserOrders → taken.user ≠ 0 →
          (p.engineFor taken.instrument).book.userOpenOrders taken.user < l.maxUserOrders)) ∧
      ((taken = order ∧ ∀ g, p.config.guard = some g → g.Passes order) ∨
        ∃ g, p.config.guard = some g ∧ taken = g.protect order) := by
  rw [screen_eq] at h
  obtain hmax | ⟨hr, hcap⟩ := (p.capped_cases (p.vetted order)).2.2
  · cases hmax.symm.trans h
  · obtain ⟨hhalted, hsuspended, hstatic, htaken⟩ := vetted_eq_ok (hr.symm.trans h)
    exact ⟨hhalted, hsuspended,
      fun l hl => ⟨hstatic l hl, hcap taken l (hr.symm.trans h) hl⟩, htaken⟩

theorem ne_duplicate_of_screen {reason : RejectReason} (h : (p.screen order).2 = .error reason) :
    reason ≠ .duplicate := by
  rintro rfl
  rw [screen_eq] at h
  obtain hmax | ⟨hr, -⟩ := (p.capped_cases (p.vetted order)).2.2
  · cases hmax.symm.trans h
  · exact p.vetted_ne_duplicate order (hr.symm.trans h)

/-- An order that passes the checks keeps its owner, place and size. -/
theorem vettedTo_of_screen {order' : Order} (h : (p.screen order).2 = .ok order') :
    order.VettedTo order' := by
  obtain ⟨-, -, -, ⟨rfl, -⟩ | ⟨g, -, rfl⟩⟩ := screen_eq_ok h
  · exact .refl _
  · exact g.vettedTo_protect order

/-- The checks create at most the book of the instrument. -/
theorem exists_screen (p : Processor) (order : Order) :
    ∃ engines, (p.screen order).1 = { p with engines := engines } := by
  rw [screen_eq]
  exact (p.capped_cases _).1

/-- The checks leave every engine as it is. -/
theorem engineFor_screen (p : Processor) (order : Order) (instrument : ℕ) :
    (p.screen order).1.engineFor instrument = p.engineFor instrument := by
  rw [screen_eq]
  exact (p.capped_cases _).2.1 instrument

/-- What the filters report. -/
theorem dedupe_report {p₁ : Processor} {report : ExecReport}
    (h : p.dedupe cmd = (p₁, some report)) :
    report = .rejected cmd.instrument cmd.id .duplicate := by
  have hstream : cmd.stream.1 ≠ 0 →
      cmd.stream.1 = cmd.id ∧ cmd.stream.2.1 = cmd.instrument := by
    intro hne
    cases cmd with
    | batch cmds => exact absurd rfl hne
    | _ => exact ⟨rfl, rfl⟩
  have hadvance : ∀ {p : Processor}, p.advance cmd = (p₁, some report) →
      report = .rejected cmd.instrument cmd.id .duplicate := by
    intro p h
    simp only [advance] at h
    split at h
    · cases h
    · rename_i hne
      split at h
      · obtain ⟨hid, hinst⟩ := hstream fun hz => hne (.inr hz)
        rw [← hid, ← hinst]
        exact (some.inj (Prod.mk.inj h).2).symm
      · cases h
  unfold dedupe at h
  split at h
  · exact hadvance h
  · split at h
    · exact (some.inj (Prod.mk.inj h).2).symm
    · exact hadvance h

section

variable (p : Processor) (cmd : Command)

/-- What the duplicate filters change: the seen ids and the cursors. -/
theorem exists_dedupe : ∃ seen maxNewId maxAdminId,
    (p.dedupe cmd).1 =
      { p with seenCommandIds := seen, maxNewId := maxNewId, maxAdminId := maxAdminId } := by
  have hadvance : ∀ p : Processor, ∃ maxNewId maxAdminId, (p.advance cmd).1 =
      { p with maxNewId := maxNewId, maxAdminId := maxAdminId } := by
    intro p
    simp only [advance, setCursor]
    split
    · exact ⟨_, _, rfl⟩
    · split
      · exact ⟨_, _, rfl⟩
      · split
        · exact ⟨_, _, rfl⟩
        · exact ⟨_, _, rfl⟩
  unfold dedupe
  split
  · obtain ⟨a, b, h⟩ := hadvance p
    exact ⟨_, a, b, h⟩
  · split
    · exact ⟨_, _, _, rfl⟩
    · obtain ⟨a, b, h⟩ := hadvance { p with seenCommandIds := p.seenCommandIds.insert cmd.id }
      exact ⟨_, a, b, h⟩

/-- The ids seen after the filters. -/
theorem mem_seen_dedupe (id : ℕ) :
    id ∈ (p.dedupe cmd).1.seenCommandIds ↔
      id ∈ p.seenCommandIds ∨ cmd.id ≠ 0 ∧ id = cmd.id := by
  have hadvance : ∀ p : Processor, (p.advance cmd).1.seenCommandIds = p.seenCommandIds := by
    intro p
    simp only [advance, setCursor]
    split
    · rfl
    · split
      · rfl
      · split <;> rfl
  unfold dedupe
  split
  · rename_i hz
    rw [hadvance]
    simp [hz]
  · rename_i hz
    split
    · rename_i hmem
      refine ⟨.inl, fun h => h.elim (fun h => h) fun h => ?_⟩
      rw [h.2]
      exact hmem
    · rw [hadvance, ExtTreeSet.mem_insert, LawfulEqCmp.compare_eq_iff_eq]
      simp [hz, eq_comm, or_comm]

/-- The filters leave the engines alone. -/
theorem engineFor_dedupe (instrument : ℕ) :
    (p.dedupe cmd).1.engineFor instrument = p.engineFor instrument := by
  obtain ⟨seen, maxNewId, maxAdminId, h⟩ := p.exists_dedupe cmd
  rw [h]
  rfl

theorem config_dedupe : (p.dedupe cmd).1.config = p.config := by
  obtain ⟨seen, maxNewId, maxAdminId, h⟩ := p.exists_dedupe cmd
  rw [h]

theorem halted_dedupe : (p.dedupe cmd).1.halted = p.halted := by
  obtain ⟨seen, maxNewId, maxAdminId, h⟩ := p.exists_dedupe cmd
  rw [h]

end

/-- The order of a forced liquidation is in range. -/
theorem inRange_closeOrder {user closeOrderId closeQty : ℕ} {closeSide : Side}
    (h : (Command.forceClose instrument user closeOrderId closeSide closeQty).InRange) :
    (closeOrder instrument user closeOrderId closeSide closeQty).InRange := by
  refine ⟨h.2.2.1, h.1, h.2.1, ?_, h.2.2.2, h.2.2.2, by norm_num [closeOrder, Order.market,
    Order.on, Order.by_, Order.withTif]⟩
  cases closeSide <;> norm_num [closeOrder, Order.market, Order.on, Order.by_, Order.withTif,
    priceMax]

/-! ### Inverting a command -/

/-- An engine call that returns. -/
theorem onEngine_eq_some {α : Type} {call : MatchingEngine → Option (MatchingEngine × α)} {a : α}
    (h : p.onEngine instrument call = some (p', a)) :
    ∃ e, call (p.engineFor instrument) = some (e, a) ∧ p' = p.setEngine instrument e := by
  rw [onEngine, bind_eq_bind, bind_eq_some_iff] at h
  obtain ⟨⟨e, a'⟩, hcall, heq⟩ := h
  cases heq
  exact ⟨e, hcall, rfl⟩

/-- The executions of an order touch the ledger only. -/
theorem exists_books (p : Processor) (instrument : ℕ) (trades : List Trade) :
    ∃ positions, trades.foldl (fun p t => p.book instrument t) p =
      { p with positions := positions } := by
  induction trades generalizing p with
  | nil => exact ⟨p.positions, rfl⟩
  | cons t trades ih =>
    obtain ⟨positions, h⟩ := ih (p.book instrument t)
    have hbook : ∃ positions, p.book instrument t = { p with positions := positions } := by
      unfold book
      cases t.aggressor with
      | buy =>
        obtain ⟨a, ha⟩ := p.exists_addPosition t.takerUser instrument
          (Int.bmod t.quantity (2 ^ 64))
        obtain ⟨b, hb⟩ := exists_addPosition { p with positions := a } t.makerUser instrument
          (-Int.bmod t.quantity (2 ^ 64))
        exact ⟨b, by simp only [ha, hb]⟩
      | sell =>
        obtain ⟨a, ha⟩ := p.exists_addPosition t.makerUser instrument
          (Int.bmod t.quantity (2 ^ 64))
        obtain ⟨b, hb⟩ := exists_addPosition { p with positions := a } t.takerUser instrument
          (-Int.bmod t.quantity (2 ^ 64))
        exact ⟨b, by simp only [ha, hb]⟩
    obtain ⟨positions', h'⟩ := hbook
    refine ⟨positions, ?_⟩
    rw [foldl_cons, h, h']

@[simp] theorem engineFor_books (p : Processor) (instrument : ℕ) (trades : List Trade) (i : ℕ) :
    (trades.foldl (fun p t => p.book instrument t) p).engineFor i = p.engineFor i := by
  obtain ⟨positions, hbooks⟩ := p.exists_books instrument trades
  rw [hbooks]
  rfl

/-- The reports of an accepted order. -/
def acceptReports (p : Processor) (order : Order) (e : MatchingEngine) (report : SubmitReport) :
    List ExecReport :=
  [.accepted order.instrument order.id] ++
    (if p.config.stp = .allow then [] else e.stpCancelled.map (.cancelled order.instrument)) ++
    report.trades.map (p.tradeReport order.instrument) ++
    [statusReport order.instrument order.id report.filled report.status]

/-- What holds of the reports of an accepted order. -/
theorem forall_mem_acceptReports {e : MatchingEngine} {report : SubmitReport}
    {Q : ExecReport → Prop} :
    (∀ r ∈ p.acceptReports order e report, Q r) ↔
      Q (.accepted order.instrument order.id) ∧
      (p.config.stp ≠ .allow → ∀ id ∈ e.stpCancelled, Q (.cancelled order.instrument id)) ∧
      (∀ t ∈ report.trades, Q (p.tradeReport order.instrument t)) ∧
      Q (statusReport order.instrument order.id report.filled report.status) := by
  by_cases hstp : p.config.stp = .allow <;> simp [acceptReports, hstp, or_imp, forall_and]

/-- What holds of the reports of an amendment that re-enters its order. -/
theorem forall_mem_requoted {orderId newQty : ℕ} {report : SubmitReport} {Q : ExecReport → Prop}
    (htrades : ∀ t ∈ report.trades, Q (p.tradeReport instrument t))
    (hfilled : Q (.filled instrument orderId)) (hmodified : ∀ n, Q (.modified instrument orderId n))
    (hcancelled : Q (.cancelled instrument orderId)) :
    ∀ r ∈ p.modifyReports instrument orderId newQty (.requoted report), Q r := by
  refine forall_mem_append.mpr ⟨List.forall_mem_map.mpr htrades, forall_mem_singleton.mpr ?_⟩
  split
  · exact hfilled
  · exact hmodified _
  · exact hmodified _
  · exact hcancelled
  · exact hcancelled

/-- **An accepted order** is submitted to the engine of its instrument, and its executions are
booked and reported. -/
theorem accept_eq_some (h : p.accept order = some (p', reports)) :
    ∃ e report, (p.engineFor order.instrument).submit order = some (e, report) ∧
      p' = report.trades.foldl (fun p t => p.book order.instrument t)
        (p.setEngine order.instrument e) ∧
      reports = p.acceptReports order e report := by
  rw [accept, bind_eq_bind, bind_eq_some_iff] at h
  obtain ⟨⟨p₁, report⟩, hcall, heq⟩ := h
  obtain ⟨e, hsubmit, rfl⟩ := onEngine_eq_some hcall
  cases heq
  refine ⟨e, report, hsubmit, rfl, ?_⟩
  rw [engineFor_setEngine_self]
  rfl

/-- Processors of one configuration print trades in one way. -/
theorem tradeReport_congr (h : p.config = q.config) :
    p.tradeReport = q.tradeReport := by
  funext instrument t
  simp only [tradeReport, h]

/-- A booking depends on the ledger only. -/
theorem positions_books (h : p.positions = q.positions) (instrument : ℕ) (trades : List Trade) :
    (trades.foldl (fun p t => p.book instrument t) p).positions =
      (trades.foldl (fun p t => p.book instrument t) q).positions := by
  have hadd : ∀ {p q : Processor}, p.positions = q.positions → ∀ user qty,
      (p.addPosition user instrument qty).positions =
        (q.addPosition user instrument qty).positions := by
    intro p q h user qty
    unfold addPosition
    split
    · exact h
    · simp only [position, h]
  have hbook : ∀ {p q : Processor}, p.positions = q.positions → ∀ t,
      (p.book instrument t).positions = (q.book instrument t).positions := by
    intro p q h t
    unfold book
    cases t.aggressor with
    | buy => exact hadd (hadd h _ _) _ _
    | sell => exact hadd (hadd h _ _) _ _
  induction trades generalizing p q with
  | nil => exact h
  | cons t trades ih => exact ih (hbook h t)

/-- **What a new order comes to**: a check refuses it, or the engine of its instrument takes it
as the checks hand it on, and its executions are booked. -/
inductive Decides (q : Processor) (order : Order) (q' : Processor) : List ExecReport → Prop
  | refused {reason : RejectReason} (hscreen : (q.screen order).2 = .error reason)
      (hengine : ∀ i, q'.engineFor i = q.engineFor i)
      (hwith : ∃ engines, q' = { q with engines := engines }) :
      Decides q order q' [.rejected order.instrument order.id reason]
  | accepted {taken : Order} {e : MatchingEngine} {report : SubmitReport}
      (hscreen : (q.screen order).2 = .ok taken) (hv : order.VettedTo taken)
      (hsubmit : (q.engineFor order.instrument).submit taken = some (e, report))
      (hengine : ∀ i, q'.engineFor i = (q.setEngine order.instrument e).engineFor i)
      (hwith : ∃ engines positions, q' = { q with engines := engines, positions := positions })
      (hpos : q'.positions =
        (report.trades.foldl (fun q t => q.book order.instrument t) q).positions) :
      Decides q order q' (q.acceptReports taken e report)

/-- **How an order comes before the checks**: it is new, or it closes a position after the orders
of its user were pulled. It meets the processor `q`, after the reports of the pull. -/
inductive Enters (p : Processor) (ω : HashOrder) :
    Command → Processor → List ExecReport → Order → Prop
  | new (order : Order) : Enters p ω (.new order) p [] order
  | close {instrument user closeOrderId closeQty : ℕ} {closeSide : Side} {e : MatchingEngine}
      {ids : List ℕ} (hpull : (p.engineFor instrument).cancelAllForUser ω user = some (e, ids))
      (hqty : closeQty ≠ 0) :
      Enters p ω (.forceClose instrument user closeOrderId closeSide closeQty)
        (p.setEngine instrument e) (ids.map (.cancelled instrument))
        (closeOrder instrument user closeOrderId closeSide closeQty)

/-- **What an applied command does.** -/
inductive Does (p : Processor) (ω : HashOrder) : Command → Processor → List ExecReport → Prop
  | enters {cmd : Command} {q p' : Processor} {order : Order} {pulled reports : List ExecReport}
      (hcmd : p.Enters ω cmd q pulled order) (hnew : q.Decides order p' reports) :
      Does p ω cmd p' (pulled ++ reports)
  | cancel {instrument orderId cmdId : ℕ} {e : MatchingEngine} {removed : Bool}
      (hcancel : (p.engineFor instrument).cancel orderId = some (e, removed)) :
      Does p ω (.cancel instrument orderId cmdId) (p.setEngine instrument e)
        [if removed then .cancelled instrument orderId else .notFound instrument orderId]
  | modify {instrument orderId newPrice newQty cmdId : ℕ} {e : MatchingEngine}
      {outcome : ModifyOutcome}
      (hmodify : (p.engineFor instrument).modify orderId newPrice newQty = some (e, outcome)) :
      Does p ω (.modify instrument orderId newPrice newQty cmdId) (p.setEngine instrument e)
        (p.modifyReports instrument orderId newQty outcome)
  | pull {instrument user closeOrderId : ℕ} {closeSide : Side} {e : MatchingEngine} {ids : List ℕ}
      (hpull : (p.engineFor instrument).cancelAllForUser ω user = some (e, ids)) :
      Does p ω (.forceClose instrument user closeOrderId closeSide 0) (p.setEngine instrument e)
        (ids.map (.cancelled instrument))
  | halt (instrument cmdId : ℕ) : Does p ω (.halt instrument cmdId)
      { p with halted := p.halted.insert instrument } [.halted instrument]
  | resume (instrument cmdId : ℕ) : Does p ω (.resume instrument cmdId)
      { p with halted := p.halted.erase instrument } [.resumed instrument]
  | haltUser (instrument user cmdId : ℕ) : Does p ω (.haltUser instrument user cmdId)
      { p with suspended := p.suspended.insert user } [.userHalted instrument user]
  | resumeUser (instrument user cmdId : ℕ) : Does p ω (.resumeUser instrument user cmdId)
      { p with suspended := p.suspended.erase user } [.userResumed instrument user]
  | batch (cmds : List Command) : Does p ω (.batch cmds) p []

section Does

variable {pulled : List ExecReport}

/-- The pull before a closing order changes an engine and cancels orders. -/
theorem Enters.facts (h : p.Enters ω cmd q pulled order) :
    order.instrument = cmd.instrument ∧ (∃ engines, q = { p with engines := engines }) ∧
      ∃ ids : List ℕ, pulled = ids.map (.cancelled cmd.instrument) := by
  cases h with
  | new order => exact ⟨rfl, ⟨_, rfl⟩, [], rfl⟩
  | close hpull _ => exact ⟨rfl, ⟨_, rfl⟩, _, rfl⟩

theorem processNew_decides (h : q.processNew order = some (p', reports)) :
    q.Decides order p' reports := by
  have hvet := @vettedTo_of_screen order q
  have hengine := q.engineFor_screen order
  obtain ⟨engines, hq⟩ := q.exists_screen order
  unfold processNew at h
  rcases hscreen : q.screen order with ⟨q₁, reason | taken⟩
  · rw [hscreen] at h hengine hq
    cases h
    exact .refused (by rw [hscreen]) hengine ⟨engines, hq⟩
  · rw [hscreen] at h hvet hengine hq
    have hv := hvet rfl
    obtain ⟨e, report, hsubmit, rfl, rfl⟩ := accept_eq_some h
    obtain rfl : q₁ = { q with engines := engines } := hq
    have hreports : acceptReports { q with engines := engines } taken e report =
      q.acceptReports taken e report := rfl
    rw [hengine, hv.instrument] at hsubmit
    rw [hreports, hv.instrument]
    obtain ⟨positions, hbooks⟩ := exists_books
      ({ q with engines := engines }.setEngine order.instrument e) order.instrument report.trades
    have hpos : ({ q with engines := engines }.setEngine order.instrument e).positions =
      q.positions := rfl
    refine .accepted (by rw [hscreen]) hv hsubmit (fun i => ?_) ⟨_, positions, hbooks⟩
      (positions_books hpos _ _)
    rw [engineFor_books]
    by_cases hi : i = order.instrument
    · rw [hi, engineFor_setEngine_self, engineFor_setEngine_self]
    · rw [engineFor_setEngine_ne _ _ _ hi, engineFor_setEngine_ne _ _ _ hi, hengine]

/-- **Inverting a command.** -/
theorem apply_does (h : p.apply ω cmd = some (p', reports)) : p.Does ω cmd p' reports := by
  cases cmd with
  | new order => exact .enters (.new order) (processNew_decides h)
  | cancel instrument orderId cmdId =>
    obtain ⟨⟨p₁, removed⟩, hcall, heq⟩ := bind_eq_some_iff.mp h
    obtain ⟨e, hcancel, rfl⟩ := onEngine_eq_some hcall
    cases heq
    exact .cancel hcancel
  | modify instrument orderId newPrice newQty cmdId =>
    obtain ⟨⟨p₁, outcome⟩, hcall, heq⟩ := bind_eq_some_iff.mp h
    obtain ⟨e, hmodify, rfl⟩ := onEngine_eq_some hcall
    cases heq
    exact .modify hmodify
  | forceClose instrument user closeOrderId closeSide closeQty =>
    obtain ⟨⟨p₁, ids⟩, hcall, h⟩ := bind_eq_some_iff.mp h
    obtain ⟨e, hpull, rfl⟩ := onEngine_eq_some hcall
    by_cases hz : closeQty = 0
    · simp only [if_pos hz] at h
      cases h
      rw [hz]
      exact .pull hpull
    · simp only [if_neg hz] at h
      obtain ⟨⟨p₂, rest⟩, hnew, heq⟩ := bind_eq_some_iff.mp h
      cases heq
      exact .enters (.close hpull hz) (processNew_decides hnew)
  | halt | resume | haltUser | resumeUser | batch =>
    cases h
    constructor

end Does

/-! ### What stays -/

end Processor

/-- The halted instruments after a command. -/
def Command.haltedAfter (halted : ExtTreeSet ℕ) : Command → ExtTreeSet ℕ
  | .halt instrument _ => halted.insert instrument
  | .resume instrument _ => halted.erase instrument
  | _ => halted

/-- The suspended users after a command. -/
def Command.suspendedAfter (suspended : ExtTreeSet ℕ) : Command → ExtTreeSet ℕ
  | .haltUser _ user _ => suspended.insert user
  | .resumeUser _ user _ => suspended.erase user
  | _ => suspended

namespace Processor

/-- **What an applied command leaves alone**: the configuration and the duplicate filters, and
but for the four commands about them the halted instruments and suspended users. -/
theorem exists_apply (h : p.apply ω cmd = some (p', reports)) :
    ∃ engines positions, p' = { p with
      engines := engines
      positions := positions
      halted := cmd.haltedAfter p.halted
      suspended := cmd.suspendedAfter p.suspended } := by
  cases apply_does h with
  | enters hcmd hnew =>
    obtain ⟨engines, positions, rfl⟩ :
        ∃ engines positions, p' = { p with engines := engines, positions := positions } := by
      cases hnew with
      | refused _ _ hwith =>
        obtain ⟨engines, rfl⟩ := hwith
        cases hcmd <;> exact ⟨engines, _, rfl⟩
      | accepted _ _ _ _ hwith =>
        obtain ⟨engines, positions, rfl⟩ := hwith
        cases hcmd <;> exact ⟨engines, positions, rfl⟩
    cases hcmd <;> exact ⟨engines, positions, rfl⟩
  | _ => exact ⟨_, _, rfl⟩

/-- An applied command leaves the seen ids alone. -/
theorem seen_apply (h : p.apply ω cmd = some (p', reports)) :
    p'.seenCommandIds = p.seenCommandIds := by
  obtain ⟨engines, positions, rfl⟩ := exists_apply h
  rfl

/-- A gated command is rejected by the filters, or goes on. -/
theorem gated_eq_some {apply : Processor → Option (Processor × List ExecReport)}
    (h : p.gated cmd apply = some (p', reports)) :
    (p.dedupe cmd = (p', some (.rejected cmd.instrument cmd.id .duplicate)) ∧
      reports = [.rejected cmd.instrument cmd.id .duplicate]) ∨
    ∃ p₁, p.dedupe cmd = (p₁, none) ∧ apply p₁ = some (p', reports) := by
  rw [gated] at h
  split at h
  · rename_i p₁ report hdedupe
    cases h
    obtain rfl := dedupe_report hdedupe
    exact .inl ⟨hdedupe, rfl⟩
  · rename_i p₁ hdedupe
    exact .inr ⟨p₁, hdedupe, h⟩

/-- The ids seen after a single command. -/
theorem mem_seen_process {ω : Oracle} (hs : cmd.Single) (h : p.process ω cmd = some (p', reports))
    (id : ℕ) :
    id ∈ p'.seenCommandIds ↔ id ∈ p.seenCommandIds ∨ cmd.id ≠ 0 ∧ id = cmd.id := by
  rw [← mem_seen_dedupe p cmd id]
  rw [process_of_single p ω hs] at h
  obtain ⟨hadm, -⟩ | ⟨p₁, hadm, happly⟩ := gated_eq_some h
  · rw [hadm]
  · rw [hadm, seen_apply happly]

/-! ### The calls of a command -/

end Processor

/-- The engine calls that a single command can make. -/
inductive Command.Makes : Command → List (HashOrder × Call) → Prop
  | none (cmd : Command) : Makes cmd []
  | new {order order' : Order} (ω : HashOrder) (h : order.VettedTo order') :
      Makes (.new order) [(ω, .submit order')]
  | cancel (instrument orderId cmdId : ℕ) (ω : HashOrder) :
      Makes (.cancel instrument orderId cmdId) [(ω, .cancel orderId)]
  | modify (instrument orderId newPrice newQty cmdId : ℕ) (ω : HashOrder) :
      Makes (.modify instrument orderId newPrice newQty cmdId)
        [(ω, .modify orderId newPrice newQty)]
  | pull (instrument user closeOrderId : ℕ) (closeSide : Side) (closeQty : ℕ) (ω : HashOrder) :
      Makes (.forceClose instrument user closeOrderId closeSide closeQty)
        [(ω, .cancelAllForUser user)]
  | close {instrument user closeOrderId closeQty : ℕ} {closeSide : Side} {order' : Order}
      (ω ω' : HashOrder)
      (h : (Processor.closeOrder instrument user closeOrderId closeSide closeQty).VettedTo
        order') :
      Makes (.forceClose instrument user closeOrderId closeSide closeQty)
        [(ω, .cancelAllForUser user), (ω', .submit order')]

/-- The calls of a command in range are in range. -/
theorem Command.Makes.inRange {calls : List (HashOrder × Call)} (h : cmd.Makes calls)
    (hr : cmd.InRange) : ∀ c ∈ calls, c.2.InRange := by
  cases h with
  | none => exact nofun
  | new ω hv => exact forall_mem_singleton.mpr (hv.inRange hr)
  | cancel instrument orderId cmdId ω => exact forall_mem_singleton.mpr hr.2.1
  | modify instrument orderId newPrice newQty cmdId ω =>
    exact forall_mem_singleton.mpr ⟨hr.2.1, hr.2.2.1, hr.2.2.2.1⟩
  | pull instrument user closeOrderId closeSide closeQty ω =>
    exact forall_mem_singleton.mpr hr.2.1
  | close ω ω' hv =>
    refine forall_mem_cons.mpr ⟨hr.2.1, forall_mem_singleton.mpr ?_⟩
    exact hv.inRange (Processor.inRange_closeOrder hr)

namespace Processor

/-- **The calls of an applied command.** The engine of its instrument makes calls known in
advance, the others none. -/
theorem apply_makes (hs : cmd.Single) (h : p.apply ω cmd = some (p', reports)) :
    ∃ calls outcomes, cmd.Makes calls ∧
      (p.engineFor cmd.instrument).run calls = some (p'.engineFor cmd.instrument, outcomes) ∧
      ∀ i, i ≠ cmd.instrument → p'.engineFor i = p.engineFor i := by
  have hset : ∀ {instrument i : ℕ} {e : MatchingEngine}, i ≠ instrument →
      (p.setEngine instrument e).engineFor i = p.engineFor i :=
    fun hi => engineFor_setEngine_ne _ _ _ hi
  cases apply_does h with
  | enters hcmd hnew =>
    cases hnew with
    | refused _ hengine =>
      cases hcmd with
      | new order => exact ⟨[], [], .none _, by rw [hengine]; rfl, fun i _ => hengine i⟩
      | @close _ user _ _ _ _ ids hpull _ =>
        refine ⟨[(ω, .cancelAllForUser user)], [.cancelledAll ids], .pull .., ?_, fun i hi =>
          (hengine i).trans (hset hi)⟩
        simp [MatchingEngine.run, MatchingEngine.call, Command.instrument, hpull, hengine]
    | @accepted taken _ report _ hv hsubmit hengine =>
      cases hcmd with
      | new order =>
        refine ⟨[(1, .submit taken)], [.submitted report], .new _ hv, ?_, fun i hi =>
          (hengine i).trans (hset hi)⟩
        simp [MatchingEngine.run, MatchingEngine.call, Command.instrument, hsubmit, hengine]
      | @close instrument user _ _ _ _ ids hpull _ =>
        refine ⟨[(ω, .cancelAllForUser user), (1, .submit taken)],
          [.cancelledAll ids, .submitted report], .close _ _ hv, ?_, fun i hi =>
          (hengine i).trans ((engineFor_setEngine_ne _ _ _ hi).trans (hset hi))⟩
        have hself := (hengine instrument).trans (engineFor_setEngine_self _ _ _)
        have hsubmit := engineFor_setEngine_self p instrument _ ▸ hsubmit
        simp [MatchingEngine.run, MatchingEngine.call, Command.instrument, hpull, hsubmit, hself]
  | @cancel _ orderId _ _ removed hcancel =>
    refine ⟨[(1, .cancel orderId)], [.cancelled removed], .cancel .., ?_, fun i hi => hset hi⟩
    simp [MatchingEngine.run, MatchingEngine.call, Command.instrument, hcancel]
  | @modify _ orderId newPrice newQty _ _ outcome hmodify =>
    refine ⟨[(1, .modify orderId newPrice newQty)], [.modified outcome], .modify .., ?_,
      fun i hi => hset hi⟩
    simp [MatchingEngine.run, MatchingEngine.call, Command.instrument, hmodify]
  | @pull _ user _ _ _ ids hpull =>
    refine ⟨[(ω, .cancelAllForUser user)], [.cancelledAll ids], .pull .., ?_, fun i hi => hset hi⟩
    simp [MatchingEngine.run, MatchingEngine.call, Command.instrument, hpull]
  | halt | resume | haltUser | resumeUser => exact ⟨[], [], .none _, rfl, fun i _ => rfl⟩
  | batch => exact hs.elim

end Processor

/-! ### Executions -/

/-- What happens in an execution: a command is rejected as a duplicate, a command is applied
to a processor, a batch is taken apart, or something happens to the processor from outside,
such as a restart. -/
inductive Event
  | rejected (cmd : Command) (report : ExecReport)
  | applied (before : Processor) (cmd : Command) (reports : List ExecReport)
  | opened (cmds : List Command)
  | outside

/-- The reports of an event. -/
def Event.reports : Event → List ExecReport
  | .rejected _ report => [report]
  | .applied _ _ reports => reports
  | .opened _ => []
  | .outside => []

/-- The command that an event applies. -/
def Event.command : Event → Option Command
  | .applied _ cmd _ => some cmd
  | _ => none

namespace Processor

section Trace

variable (outside : Processor → Processor → Prop) (ok : Processor → Command → Prop)

/-- An **execution** of a processor, command by command. Every command that is applied meets
the condition `ok` in the state it is applied to. Between commands the processor may be
replaced as the relation `outside` allows. -/
inductive Trace : Processor → List Event → Processor → Prop
  | nil (p : Processor) : Trace p [] p
  | rejected {p p₁ p' : Processor} {cmd : Command} {report : ExecReport} {es : List Event}
      (hdedupe : p.dedupe cmd = (p₁, some report)) (hrest : Trace p₁ es p') :
      Trace p (.rejected cmd report :: es) p'
  | applied {p p₁ p₂ p' : Processor} {cmd : Command} {reports : List ExecReport}
      {es : List Event} (ω : HashOrder) (hs : cmd.Single) (hdedupe : p.dedupe cmd = (p₁, none))
      (hok : ok p₁ cmd) (happly : p₁.apply ω cmd = some (p₂, reports)) (hrest : Trace p₂ es p') :
      Trace p (.applied p₁ cmd reports :: es) p'
  | opened {p p₁ p' : Processor} {cmds : List Command} {es : List Event}
      (hdedupe : p.dedupe (.batch cmds) = (p₁, none)) (hrest : Trace p₁ es p') :
      Trace p (.opened cmds :: es) p'
  | outside {p p₁ p' : Processor} {es : List Event} (hstep : outside p p₁)
      (hrest : Trace p₁ es p') : Trace p (.outside :: es) p'

variable {outside ok} {es es' : List Event}

/-- Executions one after the other. -/
theorem Trace.append (h : Trace outside ok p es q) (h' : Trace outside ok q es' p') :
    Trace outside ok p (es ++ es') p' := by
  induction h with
  | nil p => exact h'
  | rejected hdedupe _ ih => exact .rejected hdedupe (ih h')
  | applied ω hs hdedupe hok happly _ ih => exact .applied ω hs hdedupe hok happly (ih h')
  | opened hdedupe _ ih => exact .opened hdedupe (ih h')
  | outside hstep _ ih => exact .outside hstep (ih h')

/-- The state between two parts of an execution. -/
theorem Trace.exists_of_append (h : Trace outside ok p (es ++ es') p') :
    ∃ q, Trace outside ok p es q ∧ Trace outside ok q es' p' := by
  induction es generalizing p with
  | nil => exact ⟨p, .nil p, h⟩
  | cons e es ih =>
    cases h with
    | rejected hdedupe hrest =>
      obtain ⟨q, hq, hq'⟩ := ih hrest
      exact ⟨q, .rejected hdedupe hq, hq'⟩
    | applied ω hs hdedupe hok happly hrest =>
      obtain ⟨q, hq, hq'⟩ := ih hrest
      exact ⟨q, .applied ω hs hdedupe hok happly hq, hq'⟩
    | opened hdedupe hrest =>
      obtain ⟨q, hq, hq'⟩ := ih hrest
      exact ⟨q, .opened hdedupe hq, hq'⟩
    | outside hstep hrest =>
      obtain ⟨q, hq, hq'⟩ := ih hrest
      exact ⟨q, .outside hstep hq, hq'⟩

/-- What holds of the applied commands may be added to their condition. -/
theorem Trace.and {ok' : Processor → Command → Prop} (h : Trace outside ok p es p')
    (hok' : ∀ q cmd reports, .applied q cmd reports ∈ es → ok' q cmd) :
    Trace outside (fun q cmd => ok q cmd ∧ ok' q cmd) p es p' := by
  induction h with
  | nil p => exact .nil p
  | rejected hdedupe _ ih =>
    exact .rejected hdedupe (ih fun q c r hmem => hok' q c r (mem_cons_of_mem _ hmem))
  | applied ω hs hdedupe hok happly _ ih =>
    exact .applied ω hs hdedupe ⟨hok, hok' _ _ _ mem_cons_self⟩ happly
      (ih fun q c r hmem => hok' q c r (mem_cons_of_mem _ hmem))
  | opened hdedupe _ ih =>
    exact .opened hdedupe (ih fun q c r hmem => hok' q c r (mem_cons_of_mem _ hmem))
  | outside hstep _ ih =>
    exact .outside hstep (ih fun q c r hmem => hok' q c r (mem_cons_of_mem _ hmem))

/-- **An invariant of executions and what they report**: the filters, the applied commands and what
happens from outside keep it, and under it the reports are as they should be. -/
theorem Trace.rule {P : Processor → Prop} {Q : ExecReport → Prop} (h : Trace outside ok p es p')
    (hrejected : ∀ instrument id, Q (.rejected instrument id .duplicate))
    (hdedupe : ∀ p cmd, P p → P (p.dedupe cmd).1)
    (happly : ∀ p ω cmd p' reports, cmd.Single → ok p cmd → P p →
      p.apply ω cmd = some (p', reports) → P p' ∧ ∀ r ∈ reports, Q r)
    (houtside : ∀ p p', P p → outside p p' → P p') (hp : P p) :
    P p' ∧ ∀ r ∈ es.flatMap Event.reports, Q r := by
  have hpass : ∀ {p p₁ : Processor} {cmd : Command} {r : Option ExecReport},
      p.dedupe cmd = (p₁, r) → P p → P p₁ := by
    intro p p₁ cmd r hadm hp
    have h₁ := hdedupe p cmd hp
    rwa [hadm] at h₁
  induction h with
  | nil p => exact ⟨hp, nofun⟩
  | rejected hadm _ ih =>
    refine (ih (hpass hadm hp)).imp_right fun hes => forall_mem_cons.mpr ⟨?_, hes⟩
    rw [dedupe_report hadm]
    exact hrejected _ _
  | @applied p p₁ p₂ _ cmd _ _ ω hs hadm hok happ _ ih =>
    obtain ⟨h₂, hr⟩ := happly p₁ ω cmd p₂ _ hs hok (hpass hadm hp) happ
    exact (ih h₂).imp_right fun hes => forall_mem_append.mpr ⟨hr, hes⟩
  | opened hadm _ ih => exact ih (hpass hadm hp)
  | outside hstep _ ih => exact ih (houtside _ _ hp hstep)

theorem Trace.invariant {P : Processor → Prop} (h : Trace outside ok p es p')
    (hdedupe : ∀ p cmd, P p → P (p.dedupe cmd).1)
    (happly : ∀ p ω cmd p' reports, cmd.Single → ok p cmd → P p →
      p.apply ω cmd = some (p', reports) → P p')
    (houtside : ∀ p p', P p → outside p p' → P p') (hp : P p) : P p' :=
  (h.rule (Q := fun _ => True) (fun _ _ => trivial) hdedupe
    (fun p ω cmd p' reports hs hok hp happ =>
      ⟨happly p ω cmd p' reports hs hok hp happ, fun _ _ => trivial⟩) houtside hp).1

end Trace

/-- Nothing happens from outside. -/
def undisturbed (_ _ : Processor) : Prop := False

end Processor

mutual

/-- The commands of a command: itself, or those of a batch in order. -/
def Command.leaves : Command → List Command
  | .batch cmds => Command.allLeaves cmds
  | cmd => [cmd]

/-- The commands of a list with the batches taken apart. -/
def Command.allLeaves : List Command → List Command
  | [] => []
  | cmd :: cmds => cmd.leaves ++ Command.allLeaves cmds

end

theorem Command.leaves_of_single (h : cmd.Single) : cmd.leaves = [cmd] := by
  cases cmd with
  | batch cmds => exact h.elim
  | _ => rw [Command.leaves]; nofun

namespace Processor

section Execution

variable {outside : Processor → Processor → Prop} {ok : Processor → Command → Prop}

/-- **Every execution has a trace** with its reports, which applies commands of the execution in
their order. -/
theorem trace_of_processAll {ω : Oracle} {i : ℕ} (cmds : List Command)
    (h : p.processAll ω i cmds = some (p', reports))
    (hok : ∀ p, ∀ c ∈ Command.allLeaves cmds, ok p c) :
    ∃ es, Trace outside ok p es p' ∧ reports = es.flatMap Event.reports ∧
      es.filterMap Event.command <+ Command.allLeaves cmds := by
  refine (Command.induct
    (P := fun cmd => ∀ (p p' : Processor) ω reports, p.process ω cmd = some (p', reports) →
      (∀ p, ∀ c ∈ cmd.leaves, ok p c) →
      ∃ es, Trace outside ok p es p' ∧ reports = es.flatMap Event.reports ∧
        es.filterMap Event.command <+ cmd.leaves)
    (Q := fun cmds => ∀ (p p' : Processor) ω i reports, p.processAll ω i cmds = some (p', reports) →
      (∀ p, ∀ c ∈ Command.allLeaves cmds, ok p c) →
      ∃ es, Trace outside ok p es p' ∧ reports = es.flatMap Event.reports ∧
        es.filterMap Event.command <+ Command.allLeaves cmds)
    ?_ ?_ ?_ ?_).2 cmds p p' ω i reports h hok
  · -- a single command is one event
    intro cmd hs p p' ω reports h hok
    rw [Command.leaves_of_single hs] at hok ⊢
    rw [process_of_single p ω hs] at h
    obtain ⟨hadm, rfl⟩ | ⟨p₁, hadm, happly⟩ := gated_eq_some h
    · exact ⟨_, .rejected hadm (.nil _), rfl, nil_sublist _⟩
    · exact ⟨[.applied p₁ cmd reports],
        .applied (ω []) hs hadm (hok p₁ cmd mem_cons_self) happly (.nil _),
        by simp [Event.reports], .refl _⟩
  · intro cmds ih p p' ω reports h hok
    rw [Command.leaves] at hok ⊢
    rw [process] at h
    obtain ⟨hadm, rfl⟩ | ⟨p₁, hadm, hall⟩ := gated_eq_some h
    · exact ⟨_, .rejected hadm (.nil _), rfl, nil_sublist _⟩
    · obtain ⟨es, htrace, heq, hsub⟩ := ih _ _ _ _ _ hall hok
      exact ⟨.opened cmds :: es, .opened hadm htrace, by rw [heq]; rfl, hsub⟩
  · intro p p' ω i reports h _
    rw [processAll] at h
    cases h
    exact ⟨[], .nil _, rfl, nil_sublist _⟩
  · intro cmd cmds ih ihs p p' ω i reports h hok
    rw [Command.allLeaves] at hok ⊢
    obtain ⟨p₁, r₁, r₂, h₁, h₂, rfl⟩ := processAll_cons_eq_some h
    obtain ⟨es₁, ht₁, hr₁, hs₁⟩ := ih _ _ _ _ h₁ fun p c hc => hok p c (mem_append_left _ hc)
    obtain ⟨es₂, ht₂, hr₂, hs₂⟩ := ihs _ _ _ _ _ h₂ fun p c hc => hok p c (mem_append_right _ hc)
    exact ⟨es₁ ++ es₂, ht₁.append ht₂, by rw [hr₁, hr₂, flatMap_append],
      by rw [filterMap_append]; exact hs₁.append hs₂⟩

/-- **At most once.** However commands are repeated, also inside batches, an execution applies
commands of the sequence in their order, an id at most once, and not if it was seen before. -/
theorem applies_once {ω : Oracle} {i : ℕ} {cmds : List Command}
    (h : p.processAll ω i cmds = some (p', reports)) :
    ∃ es, Trace undisturbed (fun _ _ => True) p es p' ∧ reports = es.flatMap Event.reports ∧
      es.filterMap Event.command <+ Command.allLeaves cmds ∧
      ∀ id ≠ 0, ((es.filterMap Event.command).map Command.id).count id ≤
        if id ∈ p.seenCommandIds then 0 else 1 := by
  obtain ⟨es, htrace, hreports, hsub⟩ := trace_of_processAll cmds h fun _ _ _ => trivial
  refine ⟨es, htrace, hreports, hsub, fun id hz => ?_⟩
  clear h hreports hsub
  -- the filters only add to the ids seen
  have hkeeps : ∀ {p p₁ : Processor} {cmd report}, p.dedupe cmd = (p₁, report) →
      (if id ∈ p₁.seenCommandIds then 0 else 1) ≤ if id ∈ p.seenCommandIds then 0 else 1 := by
    intro p p₁ cmd report h
    have hseen := h ▸ mem_seen_dedupe p cmd id
    split <;> split <;> simp_all
  induction htrace with
  | nil p => exact Nat.zero_le _
  | rejected hdedupe _ ih => exact ih.trans (hkeeps hdedupe)
  | @applied p _ _ _ cmd _ _ _ _ hdedupe _ happly _ ih =>
    rw [seen_apply happly] at ih
    by_cases hid : cmd.id = id
    · subst hid
      have hseen := hdedupe ▸ mem_seen_dedupe p cmd cmd.id
      have hnew : cmd.id ∉ p.seenCommandIds := fun hold => by simp [dedupe, hz, hold] at hdedupe
      simp_all [Event.command]
    · rw [filterMap_cons, Event.command, map_cons, count_cons_of_ne hid]
      exact ih.trans (hkeeps hdedupe)
  | opened hdedupe _ ih => exact ih.trans (hkeeps hdedupe)
  | outside hstep => exact hstep.elim

/-- A halt that is sent again, in a batch. -/
theorem applies_once_halt : ∃ es p',
    Trace undisturbed (fun _ _ => True) (fresh defaultConfig) es p' ∧
      es.flatMap Event.reports = [.halted 1, .rejected 1 7 .duplicate] ∧
      es.filterMap Event.command <+ [.halt 1 7, .halt 1 7] ∧
      ((es.filterMap Event.command).map Command.id).count 7 ≤ 1 := by
  have hrun : (fresh defaultConfig).processAll 1 0 [.halt 1 7, .batch [.halt 1 7]] = some (_, _) :=
    rfl
  obtain ⟨es, htrace, hreports, hsub, hcount⟩ := applies_once hrun
  exact ⟨es, _, htrace, hreports.symm, hsub, hcount 7 (by decide)⟩

/-- The events of single commands, one after the other, under one iteration order. -/
def events (ω : HashOrder) (p : Processor) : List Command → Option (Processor × List Event)
  | [] => some (p, [])
  | cmd :: cmds =>
    match p.dedupe cmd with
    | (p₁, some report) => do
        let (p', es) ← p₁.events ω cmds
        pure (p', .rejected cmd report :: es)
    | (p₁, none) => do
        let (p₂, reports) ← p₁.apply ω cmd
        let (p', es) ← p₂.events ω cmds
        pure (p', .applied p₁ cmd reports :: es)

/-- The events of single commands are an execution. -/
theorem trace_of_events {cmds : List Command} {es : List Event}
    (h : p.events ω cmds = some (p', es)) (hs : ∀ c ∈ cmds, c.Single)
    (hok : ∀ c ∈ cmds, ∀ q reports, .applied q c reports ∈ es → ok q c) :
    Trace outside ok p es p' := by
  induction cmds generalizing p es with
  | nil =>
    cases h
    exact .nil _
  | cons cmd cmds ih =>
    rw [events] at h
    rcases hadm : p.dedupe cmd with ⟨p₁, report | report⟩
    · simp only [hadm, bind_eq_bind, bind_eq_some_iff] at h
      obtain ⟨⟨p₂, reports⟩, happly, ⟨q, es'⟩, hrest, heq⟩ := h
      cases heq
      exact .applied ω (hs cmd mem_cons_self) hadm
        (hok cmd mem_cons_self p₁ reports mem_cons_self) happly
        (ih hrest (fun c hc => hs c (mem_cons_of_mem _ hc))
          fun c hc q r hmem => hok c (mem_cons_of_mem _ hc) q r (mem_cons_of_mem _ hmem))
    · simp only [hadm, bind_eq_bind, bind_eq_some_iff] at h
      obtain ⟨⟨q, es'⟩, hrest, heq⟩ := h
      cases heq
      exact .rejected hadm (ih hrest (fun c hc => hs c (mem_cons_of_mem _ hc))
        fun c hc q r hmem => hok c (mem_cons_of_mem _ hc) q r (mem_cons_of_mem _ hmem))

/-- The events of commands are about these commands. -/
theorem mem_of_events {cmds : List Command} {es : List Event} (h : p.events ω cmds = some (p', es))
    (hmem : .applied q cmd reports ∈ es) : cmd ∈ cmds := by
  induction cmds generalizing p es with
  | nil =>
    cases h
    cases hmem
  | cons c cmds ih =>
    rw [events] at h
    rcases hadm : p.dedupe c with ⟨p₁, report | report⟩
    · simp only [hadm, bind_eq_bind, bind_eq_some_iff] at h
      obtain ⟨⟨p₂, reports⟩, -, ⟨q, es'⟩, hrest, heq⟩ := h
      cases heq
      rcases mem_cons.mp hmem with heq | hmem
      · injection heq with _ hcmd _
        exact hcmd ▸ mem_cons_self
      · exact mem_cons_of_mem _ (ih hrest hmem)
    · simp only [hadm, bind_eq_bind, bind_eq_some_iff] at h
      obtain ⟨⟨q, es'⟩, hrest, heq⟩ := h
      cases heq
      rcases mem_cons.mp hmem with heq | hmem
      · cases heq
      · exact mem_cons_of_mem _ (ih hrest hmem)

end Execution

end Processor

end TradeCore
