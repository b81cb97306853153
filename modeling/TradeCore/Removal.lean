import TradeCore.Ledger

/-!
# Orders that Leave a Book

An order leaves its book when it is filled, cancelled or amended, or when self-trade prevention
pulls it. The owner learns of that from the reports of the command: executions of the whole
rest of the order, a cancellation, or the fill of an amended order. `Processor::process_new`
reports the makers that self-trade prevention has pulled; the branch of `Command::Modify`, which
submits an order as well, does not.

## Main results

* `Processor.removal_announced` — in an execution whose amendments do not meet orders of the
  same user and do not ask for zero lots, every removal is reported.
* `Processor.amendment_pulls_silently` — an amendment that pulls a resting order without a
  report, one that drops its own order behind a `Modified` report, and one that reports a fill
  without an execution.
-/

namespace TradeCore

open Std List Option

/-! ### What a submission removes -/

theorem NaiveBook.mem_ids {b : NaiveBook} {id : ℕ} :
    id ∈ b.ids ↔ ∃ s p, ∃ o ∈ b.queue s p, o.id = id := by
  rw [ids, List.mem_map]
  constructor
  · rintro ⟨o, ho, rfl⟩
    obtain ⟨s, p, hmem⟩ := mem_orders.mp ho
    exact ⟨s, p, o, hmem, rfl⟩
  · rintro ⟨s, p, o, ho, rfl⟩
    exact ⟨o, mem_orders.mpr ⟨s, p, ho⟩, rfl⟩

/-- A turn stops the taker or pulls makers only if the taker meets an order of its user. -/
theorem NaiveCross.Turn.meets {strategy : Strategy} {stp : SelfTradePolicy} {seq : ℕ}
    {n n' : NaiveCross} {flow : Flow} (h : n.Turn strategy stp seq flow n') :
    (flow ≠ .takerStopped ∧ n'.stpCancelled = n.stpCancelled) ∨
    ∃ px lots q, (n.book n.order.side.opposite).rungs.head? = some (px, q) ∧
      crossable n.order px = true ∧ ownInView stp n.order (reached strategy lots q) := by
  cases h with
  | exhausted | barred | traded => exact .inl ⟨Flow.noConfusion, rfl⟩
  | stopped hhead hcross _ hown => exact .inr ⟨_, _, _, hhead, hcross, hown⟩
  | pulled hhead hcross _ hown => exact .inr ⟨_, _, _, hhead, hcross, hown⟩

namespace NaiveEngine

variable {order : Order}

/-- No order of its user stands where this order would trade. -/
def Clear (n : NaiveEngine) (order : Order) : Prop :=
  n.stp = .allow ∨ order.user = 0 ∨ ∀ px, crossable order px = true →
    ∀ o ∈ n.book.queue order.side.opposite px, o.user ≠ order.user

/-- An order that meets no order of its user is not stopped and pulls nothing. -/
theorem cross_clear (n : NaiveEngine) (hr : n.book.Realized) (hs : n.stpCancelled = [])
    (order : Order) (hclear : n.Clear order) (budget : ℕ) :
    (n.cross order budget).1.stpCancelled = [] ∧ (n.cross order budget).2 = false := by
  let n₀ : NaiveCross :=
    { book := n.book, order := order, trades := [], budgetLeft := budget
      stpCancelled := n.stpCancelled }
  -- no turn meets an own order: what stands in the book has been there from the start
  have hnone : ∀ (c c' : NaiveCross) flow, c.book.Realized → Conserving n₀ c →
      c.Turn n.strategy n.stp n.seq flow c' →
        flow ≠ .takerStopped ∧ c'.stpCancelled = c.stpCancelled := by
    intro c c' flow hrc hc hturn
    refine hturn.meets.resolve_right ?_
    rintro ⟨px, lots, q, hhead, hcross, hstp, huser, hany⟩
    have hsame : c.order.user = order.user ∧ c.order.side = order.side ∧
        crossable order px = true := by
      rw [hc.order] at hcross ⊢
      exact ⟨rfl, rfl, hcross⟩
    obtain ⟨r, hr, hown⟩ := List.any_eq_true.mp hany
    obtain ⟨o', ho', rfl⟩ := List.mem_map.mp ((reached_isPrefix _ _ _).subset hr)
    have hq : c.book.queue c.order.side.opposite px = q := (Ladder.head?_eq_some hhead).1
    rw [← hq] at ho'
    obtain ⟨o, ho, hafter⟩ := hc.of_mem_queue ho'
    rw [hsame.2.1] at ho
    rw [decide_eq_true_eq, hsame.1] at hown
    rcases hclear with hallow | hzero | hclear
    · exact hstp hallow
    · exact huser (hsame.1.trans hzero)
    · exact hclear px hsame.2.2 o ho ((owner_of_aftermath hafter).2.symm.trans hown)
  obtain ⟨⟨-, hnil⟩, -, hstop⟩ := NaiveCross.loop_induction
    (P := fun c => Conserving n₀ c ∧ c.stpCancelled = []) (fun c flow c' hrc hc hturn =>
      ⟨hc.1.turn hr hrc hturn, (hnone c c' flow hrc hc.1 hturn).2.trans hc.2⟩) hr
    ⟨.refl hr rfl hs, hs⟩ (n₀.measure + 1)
  refine ⟨hnil, Bool.eq_false_iff.mpr fun hs => ?_⟩
  obtain ⟨c, hrc, hc, hturn⟩ := hstop hs
  exact (hnone c _ _ hrc hc.1 hturn).1 rfl

theorem Clear.of_subset {n n' : NaiveEngine} (h : n.Clear order) (hstp : n'.stp = n.stp)
    (hsub : ∀ s p, ∀ o ∈ n'.book.queue s p, o ∈ n.book.queue s p) : n'.Clear order :=
  h.imp hstp.trans (Or.imp_right fun h px hpx o ho => h px hpx o (hsub _ _ o ho))

variable (n : NaiveEngine) (hr : n.book.Realized)
include hr

/-- Without own orders in reach, a submission pulls nothing. -/
theorem submit_clear (hclear : n.stp = .allow ∨ order.tif = .gtc ∧ n.Clear order) :
    (n.submit order).1.stpCancelled = [] := by
  rcases hclear with hallow | ⟨htif, hclear⟩
  · rw [submit]
    split
    · rfl
    · split
      · rfl
      · exact (n.stamped.cross_clear hr rfl _ (.inl hallow) _).1
  · rw [n.submit_gtc htif]
    exact (n.stamped.cross_clear hr rfl (n.stampOrder order) hclear _).1

/-- **The fate of a resting order** in a submission: it stays, it is pulled, or it trades all
that it had. -/
theorem submit_fate (order : Order) {s : Side} {p : ℕ} {o : Order} (ho : o ∈ n.book.queue s p) :
    o.id ∈ (n.submit order).1.book.ids ∨ o.id ∈ (n.submit order).1.stpCancelled ∨
      traded (n.submit order).2.trades o.id = o.remaining := by
  have hc := n.submit_conserves hr order
  by_cases hstp : o.id ∈ (n.submit order).1.stpCancelled
  · exact .inr (.inl hstp)
  · by_cases hrest : o.remaining - traded (n.submit order).2.trades o.id = 0
    · have := hc.traded_le s p o ho
      exact .inr (.inr (by omega))
    · refine .inl (NaiveBook.mem_ids.mpr ⟨s, p,
        { o with remaining := o.remaining - traded (n.submit order).2.trades o.id }, ?_, rfl⟩)
      rw [hc.queues]
      refine mem_append_left _ (mem_filterMap.mpr ⟨o, ho, ?_⟩)
      rw [aftermath, if_neg hstp, if_neg hrest]

/-- **The fate of a good-till-cancel order** that meets no own order: it rests, or executions
fill it. -/
theorem submit_gtc_fate (order : Order) (htif : order.tif = .gtc) (htype : order.orderType = .limit)
    (hqty : order.quantity ≠ 0) (hclear : n.Clear order) :
    order.id ∈ (n.submit order).1.book.ids ∨
      (n.submit order).2.status = .filled ∧ (n.submit order).2.trades ≠ [] := by
  have hc := n.submit_conserves hr order
  obtain ⟨hsame, -, -⟩ := n.stamped.cross_order (n.stampOrder order) (2 ^ 128 - 1)
  have hstop := (n.stamped.cross_clear hr rfl (n.stampOrder order) hclear (2 ^ 128 - 1)).2
  rw [n.submit_gtc htif, crossAndFinalize] at hc ⊢
  generalize n.stamped.cross (n.stampOrder order) (2 ^ 128 - 1) = r at hsame hstop hc ⊢
  obtain ⟨c, stopped⟩ := r
  dsimp only at hsame hstop hc ⊢
  obtain ⟨hquantity, htype', htif'⟩ :
      c.order.quantity = order.quantity ∧ c.order.orderType = .limit ∧ c.order.tif = .gtc := by
    rw [hsame]
    exact ⟨rfl, htype, htif⟩
  by_cases hrem : c.order.remaining = 0
  · refine .inr ⟨if_pos hrem, fun hnil => hqty ?_⟩
    have hfilled : c.order.quantity - c.order.remaining = (c.trades.map Trade.quantity).sum :=
      hc.filled_eq
    rw [hnil, hrem, hquantity] at hfilled
    exact hfilled
  · have hrests : c.Rests stopped := ⟨hstop, pos_of_ne_zero hrem, htype', htif'⟩
    refine .inl (NaiveBook.mem_ids.mpr ⟨c.order.side, c.order.price, c.order, ?_, ?_⟩)
    · rw [if_pos hrests, NaiveBook.queue_push, if_pos ⟨rfl, rfl⟩]
      exact mem_append_right _ mem_cons_self
    · rw [hsame]
      rfl

/-- **The fate of a resting order in an amendment** that asks for some lots and meets no own
order: it stays, it is cancelled as asked for, it trades all that it had, or it is the amended
order and executions fill it. -/
theorem modify_fate {id newPrice newQty : ℕ} {o : Order} {s : Side} {p : ℕ}
    (ho : o ∈ n.book.queue s p) (hgone : o.id ∉ (n.modify id newPrice newQty).1.book.ids)
    (hok : ∀ target, n.book.find? id = some target →
      ¬ (newPrice = target.price ∧ newQty ≤ target.remaining) →
        target.orderType = .limit ∧ newQty ≠ 0 ∧ n.Clear (requote target newPrice newQty)) :
    (n.modify id newPrice newQty).2 = .cancelled id ∧ o.id = id ∨
    ∃ report, (n.modify id newPrice newQty).2 = .requoted report ∧
      (traded report.trades o.id = o.remaining ∨
        o.id = id ∧ report.status = .filled ∧ report.trades ≠ []) := by
  have hkeep : o.id ≠ id → o ∈ (n.cancel id).1.book.queue s p := by
    intro hne
    rw [cancel, NaiveBook.queue_rewrite]
    exact mem_filterMap.mpr ⟨o, ho, if_neg (by simpa using hne)⟩
  cases htarget : n.book.find? id with
  | none =>
    rw [modify, htarget] at hgone
    exact absurd (NaiveBook.mem_ids.mpr ⟨s, p, o, ho, rfl⟩) hgone
  | some target =>
    rw [modify, htarget] at hgone ⊢
    dsimp only at hgone ⊢
    by_cases hsame : newPrice = target.price ∧ newQty ≤ target.remaining
    · rw [if_pos hsame] at hgone ⊢
      by_cases hqty : newQty = 0
      · rw [if_pos hqty] at hgone ⊢
        refine .inl ⟨rfl, ?_⟩
        by_contra hne
        exact hgone (NaiveBook.mem_ids.mpr ⟨s, p, o, hkeep hne, rfl⟩)
      · rw [if_neg hqty] at hgone
        -- a smaller order keeps its place, and so do the others
        obtain ⟨o', ho', hid⟩ : ∃ o', OrderBook.shrunk id newQty o = some o' ∧ o'.id = o.id := by
          rw [OrderBook.shrunk, if_neg hqty]
          split
          · exact ⟨_, rfl, rfl⟩
          · exact ⟨o, rfl, rfl⟩
        refine absurd (NaiveBook.mem_ids.mpr ⟨s, p, o', ?_, hid⟩) hgone
        rw [NaiveBook.queue_rewrite]
        exact mem_filterMap.mpr ⟨o, ho, ho'⟩
    · rw [if_neg hsame] at hgone ⊢
      obtain ⟨htype, hqty, hclear⟩ := hok target htarget hsame
      have hr' : (n.cancel id).1.book.Realized := by
        obtain ⟨b, hb⟩ := hr
        obtain ⟨b', -, hb', -⟩ := hb.cancel id
        exact ⟨b', hb'⟩
      have hclear' : (n.cancel id).1.Clear (requote target newPrice newQty) := by
        refine hclear.of_subset rfl fun s p o ho => ?_
        rw [cancel, NaiveBook.queue_rewrite] at ho
        obtain ⟨a, ha, hkept⟩ := mem_filterMap.mp ho
        rw [without] at hkept
        split at hkept
        · cases hkept
        · rwa [← some.inj hkept]
      refine .inr ⟨_, rfl, ?_⟩
      by_cases hid : o.id = id
      · have htid : target.id = id := by simpa using find?_some htarget
        rcases submit_gtc_fate (n.cancel id).1 hr' (requote target newPrice newQty) rfl htype
          hqty hclear' with hrests | hfilled
        · have hrid : (requote target newPrice newQty).id = o.id := htid.trans hid.symm
          rw [hrid] at hrests
          exact absurd hrests hgone
        · exact .inr ⟨hid, hfilled⟩
      · rcases submit_fate _ hr' (requote target newPrice newQty) (hkeep hid) with
          hstays | hpulled | htraded
        · exact absurd hstays hgone
        · rw [submit_clear _ hr' (.inr ⟨rfl, hclear'⟩)] at hpulled
          cases hpulled
        · exact .inl htraded

end NaiveEngine

namespace MatchingEngine

variable {o : Order} {id : ℕ}

/-- No order of its user stands where this order would trade. -/
def Clear (e : MatchingEngine) (order : Order) : Prop :=
  e.stp = .allow ∨ order.user = 0 ∨ ∀ id o, e.book.get id = some o →
    o.side = order.side.opposite → o.user = order.user → crossable order o.price = false

variable {e e' : MatchingEngine} {n : NaiveEngine}

theorem Refines.clear (h : e.Refines n) {order : Order} (hclear : e.Clear order) :
    n.Clear order := by
  refine hclear.imp h.stp.symm.trans (Or.imp_right fun hout px hpx o ho huser => ?_)
  rw [← h.book.queue] at ho
  obtain ⟨-, hside, rfl⟩ := h.book.inv.of_mem_queue ho
  have hget : e.book.get o.id = some o := h.book.inv.get_eq_some.mpr ⟨rfl, by rwa [hside]⟩
  rw [hout o.id o hget hside huser] at hpx
  cases hpx

theorem Refines.get_eq_none (h : e.Refines n) :
    e.book.get id = none ↔ id ∉ n.book.ids := by
  rw [h.book.get_eq, NaiveBook.find?_eq_none]

theorem Refines.mem_queue_of_get (h : e.Refines n) (hget : e.book.get id = some o) :
    o.id = id ∧ o ∈ n.book.queue o.side o.price := by
  obtain ⟨hid, hmem⟩ := h.book.inv.get_eq_some.mp hget
  exact ⟨hid, by rwa [← h.book.queue]⟩

/-- What stays in a book when the orders with some ids leave it. -/
theorem Refines.get_without (h : e.Refines n) {ids : List ℕ} {b : OrderBook}
    (hb : b.Refines (n.book.rewrite (without ids))) (hget : e.book.get id = some o) :
    id ∈ ids ∨ b.get id = some o := by
  obtain ⟨rfl, hmem⟩ := h.mem_queue_of_get hget
  refine or_iff_not_imp_left.mpr fun hid => hb.inv.get_eq_some.mpr ⟨rfl, ?_⟩
  rw [hb.queue, NaiveBook.queue_rewrite]
  exact mem_filterMap.mpr ⟨o, hmem, if_neg hid⟩

/-- A cancellation removes the order that it names. -/
theorem Sound.cancel_fate (h : e.Sound) {orderId : ℕ} {removed : Bool}
    (hcancel : e.cancel orderId = some (e', removed)) (hget : e.book.get id = some o)
    (hgone : e'.book.get id = none) :
    id = orderId ∧ removed = true := by
  obtain ⟨n, hn⟩ := h
  obtain ⟨e₁, hcancel₁, hn'⟩ := hn.cancel orderId
  cases hcancel.symm.trans hcancel₁
  rcases hn.get_without hn'.book hget with hid | hstays
  · obtain rfl : id = orderId := mem_singleton.mp hid
    refine ⟨rfl, ?_⟩
    rw [NaiveEngine.cancel, ← hn.book.get_eq, hget]
    rfl
  · rw [hgone] at hstays
    cases hstays

/-- Pulling the orders of a user removes the orders that it names. -/
theorem Sound.get_cancelAllForUser (h : e.Sound) {ω : HashOrder} {user : ℕ} {ids : List ℕ}
    (hpull : e.cancelAllForUser ω user = some (e', ids)) (hget : e.book.get id = some o) :
    id ∈ ids ∨ e'.book.get id = some o := by
  obtain ⟨n, hn⟩ := h
  obtain ⟨e₁, ids₁, hpull₁, hperm, hn'⟩ := hn.cancelAllForUser ω user
  cases hpull.symm.trans hpull₁
  exact (hn.get_without hn'.book hget).imp_left hperm.mem_iff.mpr

/-- An order that a submission removes was pulled, or traded all that it had. -/
theorem Sound.submit_fate (h : e.Sound) (hroom : e.book.HasRoom) {order : Order}
    (horder : order.InRange) {report : SubmitReport} (hsubmit : e.submit order = some (e', report))
    (hget : e.book.get id = some o) (hgone : e'.book.get id = none) :
    (id ∈ e'.stpCancelled ∧ e.stp ≠ .allow) ∨ traded report.trades id = o.remaining := by
  obtain ⟨n, hn⟩ := h
  obtain ⟨rfl, hn', -⟩ := hn.of_submit (fun _ => hroom) horder.price horder.quantity hsubmit
  obtain ⟨rfl, hmem⟩ := hn.mem_queue_of_get hget
  have hr : n.book.Realized := ⟨e.book, hn.book⟩
  rcases n.submit_fate hr order hmem with hstays | hpulled | htraded
  · exact absurd hstays (hn'.get_eq_none.mp hgone)
  · refine .inl ⟨by rwa [hn'.stpCancelled], fun hallow => ?_⟩
    rw [n.submit_clear hr (.inl (hn.stp.symm.trans hallow))] at hpulled
    cases hpulled
  · exact .inr htraded

/-- What an amendment removes, if it asks for some lots and meets no own order. -/
theorem Sound.modify_fate (h : e.Sound) (hroom : e.book.HasRoom) {newPrice newQty : ℕ}
    (hrange : (Call.modify id newPrice newQty).InRange) {outcome : ModifyOutcome}
    (hmodify : e.modify id newPrice newQty = some (e', outcome)) (hget : e.book.get o.id = some o)
    (hgone : e'.book.get o.id = none)
    (hok : ∀ target, e.Requotes id newPrice newQty target →
      target.orderType = .limit ∧ newQty ≠ 0 ∧ e.Clear (target.requote newPrice newQty)) :
    outcome = .cancelled id ∧ o.id = id ∨
    ∃ report, outcome = .requoted report ∧ (traded report.trades o.id = o.remaining ∨
      o.id = id ∧ report.status = .filled ∧ report.trades ≠ []) := by
  obtain ⟨n, hn⟩ := h
  have hcall : e.call (fun _ => 1) (.modify id newPrice newQty) = some (e', .modified outcome) := by
    rw [call, hmodify]
    rfl
  obtain ⟨hagrees, hn', -⟩ := hn.of_call hroom hrange hcall
  obtain rfl : outcome = (n.modify id newPrice newQty).2 := Outcome.modified.inj hagrees
  obtain ⟨-, hmem⟩ := hn.mem_queue_of_get hget
  refine n.modify_fate ⟨e.book, hn.book⟩ hmem (hn'.get_eq_none.mp hgone) ?_
  intro target htarget hchange
  rw [← hn.book.get_eq] at htarget
  obtain ⟨htype, hqty, hclear⟩ := hok target ⟨htarget, hchange⟩
  exact ⟨htype, hqty, hn.clear hclear⟩

end MatchingEngine

/-! ### What the reports say -/

/-- The lots that a report takes from a maker. -/
def ExecReport.takenFrom (instrument id : ℕ) : ExecReport → ℕ
  | .trade i _ maker _ _ qty _ _ => if i = instrument ∧ maker = id then qty else 0
  | _ => 0

theorem ExecReport.sum_takenFrom {reports : List ExecReport} {p : Processor} {instrument : ℕ}
    {trades : List Trade}
    (h : reports.filter ExecReport.isTrade = trades.map (p.tradeReport instrument)) (id : ℕ) :
    (reports.map (ExecReport.takenFrom instrument id)).sum = traded trades id := by
  rw [← sum_filter_isTrade (takenFrom instrument id) (fun r hr => by
    cases r <;> first | rfl | cases hr), h, List.map_map, traded]
  refine congrArg List.sum (map_congr_left fun t _ => ?_)
  simp [takenFrom, Processor.tradeReport]

/-- The reports of a command account for an order that has left the book: executions of all
that it had, a cancellation, or, if the command amends it, its fill with executions. -/
def Announced (cmd : Command) (reports : List ExecReport) (instrument : ℕ) (o : Order) : Prop :=
  (reports.map (ExecReport.takenFrom instrument o.id)).sum = o.remaining ∨
  .cancelled instrument o.id ∈ reports ∨
  (∃ newPrice newQty cmdId, cmd = .modify instrument o.id newPrice newQty cmdId) ∧
    .filled instrument o.id ∈ reports ∧ ∃ maker aggressor price qty makerFee takerFee,
      .trade instrument o.id maker aggressor price qty makerFee takerFee ∈ reports

namespace Processor

variable {cmd : Command} {reports : List ExecReport} {o : Order} {p p' : Processor} {instrument : ℕ}

/-- A command in range, with room in the book of its instrument; an amendment that re-enters
its order asks for some lots and meets no order of the same user. -/
def AmendsOpenly (p : Processor) (cmd : Command) : Prop :=
  cmd.InRange ∧ p.HasRoom cmd ∧ ∀ instrument o newPrice newQty,
    p.Amends cmd instrument o newPrice newQty →
      newQty ≠ 0 ∧ (p.engineFor instrument).Clear (o.requote newPrice newQty)

/-- What an execution keeps: engines in good order that hold limit orders and follow the
configured policy. -/
structure Orderly (p : Processor) : Prop where
  sound : p.Sound
  charted : p.Charted
  limit : p.Records fun o => o.orderType = .limit
  stp : ∀ instrument, (p.engineFor instrument).stp = p.config.stp

theorem orderly_fresh (config : ProcessorConfig) : (fresh config).Orderly where
  sound := sound_fresh config
  charted := charted_fresh config
  limit := records_fresh _ config
  stp := fun instrument => by
    simp only [engineFor, fresh, ExtTreeMap.getElem?_empty, getD_none]
    rfl

theorem Orderly.dedupe (h : p.Orderly) (cmd : Command) :
    (p.dedupe cmd).1.Orderly where
  sound := h.sound.dedupe cmd
  charted := h.charted.dedupe cmd
  limit := h.limit.dedupe cmd
  stp := fun instrument => by
    rw [engineFor_dedupe, config_dedupe]
    exact h.stp instrument

theorem Orderly.apply (h : p.Orderly) {ω : HashOrder} (hs : cmd.Single) (hr : cmd.InRange)
    (hroom : p.HasRoom cmd) (happly : p.apply ω cmd = some (p', reports)) : p'.Orderly where
  sound := h.sound.apply hs hr hroom happly
  charted := h.charted.apply hs hr happly
  limit := h.limit.apply h.charted hs happly (fun o o' hsame ho => by rw [hsame]; exact ho)
    fun e taken seq rest _ hrest => by rw [hrest.same]; exact hrest.orderType
  stp := fun instrument => by
    obtain ⟨calls, outcomes, hmakes, hrun, hother⟩ := apply_makes hs happly
    have hconfig : p'.config = p.config := by
      obtain ⟨engines, positions, rfl⟩ := exists_apply happly
      rfl
    rw [hconfig]
    by_cases hi : instrument = cmd.instrument
    · rw [hi, (MatchingEngine.run_charted (h.charted _) (hmakes.inRange hr) hrun).2]
      exact h.stp _
    · rw [hother instrument hi]
      exact h.stp _

/-- What a new order removes is reported. -/
theorem Decides.announced {order : Order} (h : p.Decides order p' reports)
    (hsound : (p.engineFor order.instrument).Sound)
    (hstp : (p.engineFor order.instrument).stp = p.config.stp) (horder : order.InRange)
    (hroom : (p.engineFor order.instrument).book.HasRoom)
    (hget : (p.engineFor order.instrument).book.get o.id = some o)
    (hgone : (p'.engineFor order.instrument).book.get o.id = none) :
    (reports.map (ExecReport.takenFrom order.instrument o.id)).sum = o.remaining ∨
      .cancelled order.instrument o.id ∈ reports := by
  cases h with
  | refused _ hengine =>
    rw [hengine, hget] at hgone
    cases hgone
  | @accepted taken e report _ hv hsubmit hengine =>
    rw [hengine, engineFor_setEngine_self] at hgone
    rcases hsound.submit_fate hroom (hv.inRange horder) hsubmit hget hgone with
      ⟨hpulled, hne⟩ | htraded
    · refine .inr ?_
      rw [acceptReports, if_neg (hstp ▸ hne), hv.instrument]
      exact mem_append_left _ (mem_append_left _ (mem_append_right _
        (List.mem_map_of_mem hpulled)))
    · have hreports := p.filter_isTrade_acceptReports taken e report
      rw [hv.instrument] at hreports
      exact .inl ((ExecReport.sum_takenFrom hreports o.id).trans htraded)

/-- What an amendment removes is reported, if it asks for some lots and meets no own order. -/
theorem Orderly.announced_of_modify (hp : p.Orderly) {orderId newPrice newQty cmdId : ℕ}
    (hok : p.AmendsOpenly (.modify instrument orderId newPrice newQty cmdId)) {e : MatchingEngine}
    {outcome : ModifyOutcome}
    (hmodify : (p.engineFor instrument).modify orderId newPrice newQty = some (e, outcome))
    (hget : (p.engineFor instrument).book.get o.id = some o) (hgone : e.book.get o.id = none) :
    Announced (.modify instrument orderId newPrice newQty cmdId)
      (p.modifyReports instrument orderId newQty outcome) instrument o := by
  obtain ⟨⟨-, hid, hprice, hqty, -⟩, hroom, hamends⟩ := hok
  have hcond : ∀ target, (p.engineFor instrument).Requotes orderId newPrice newQty target →
      target.orderType = .limit ∧ newQty ≠ 0 ∧
        (p.engineFor instrument).Clear (target.requote newPrice newQty) := by
    intro target hreq
    obtain ⟨slot, -, hslot⟩ := bind_eq_some_iff.mp hreq.1
    exact ⟨hp.limit instrument slot target hslot,
      hamends instrument target newPrice newQty ⟨orderId, cmdId, rfl, hreq⟩⟩
  rcases (hp.sound instrument).modify_fate hroom ⟨hid, hprice, hqty⟩ hmodify hget hgone hcond with
    ⟨rfl, rfl⟩ | ⟨report, rfl, htraded | ⟨rfl, hfilled, htrades⟩⟩
  · exact .inr (.inl mem_cons_self)
  · exact .inl ((ExecReport.sum_takenFrom (p.filter_isTrade_requoted _ _ _ _) o.id).trans htraded)
  · refine .inr (.inr ⟨⟨_, _, _, rfl⟩, ?_, ?_⟩)
    · rw [modifyReports, hfilled]
      exact mem_append_right _ mem_cons_self
    · obtain ⟨t, ht⟩ := exists_mem_of_ne_nil _ htrades
      have htaker : t.taker = o.id := by
        rcases MatchingEngine.modify_slab (hp.charted instrument).tidy hmodify with
          ⟨-, -, hnot⟩ | ⟨target, b, report', hreq, -, hw, hsubmit, heq⟩
        · exact absurd rfl (hnot report)
        · obtain rfl := ModifyOutcome.requoted.inj heq
          obtain ⟨taker, hid', -, -, -, hof⟩ :=
            MatchingEngine.submit_trades ((hp.charted instrument).wears hw.wears) hsubmit
          obtain ⟨n, hn⟩ := hp.sound instrument
          exact ((hof t ht).taker.trans hid').trans (hn.mem_queue_of_get hreq.1).1
      refine ⟨t.maker, t.aggressor, t.price, t.quantity, (p.config.fees.fees t.price t.quantity).1,
        (p.config.fees.fees t.price t.quantity).2, ?_⟩
      rw [← htaker]
      exact mem_append_left _ (List.mem_map_of_mem ht)

/-- **An applied command reports what it removes.** -/
theorem Orderly.announced (hp : p.Orderly) {ω : HashOrder} (hs : cmd.Single)
    (hok : p.AmendsOpenly cmd) (happly : p.apply ω cmd = some (p', reports))
    (hget : (p.engineFor instrument).book.get o.id = some o)
    (hgone : (p'.engineFor instrument).book.get o.id = none) :
    Announced cmd reports instrument o := by
  obtain rfl : instrument = cmd.instrument := by
    by_contra hne
    obtain ⟨-, -, -, -, hother⟩ := apply_makes hs happly
    rw [hother instrument hne, hget] at hgone
    cases hgone
  obtain ⟨hr, hroom, -⟩ := id hok
  cases apply_does happly with
  | enters hcmd hnew =>
    cases hcmd with
    | new order => exact (hnew.announced (hp.sound _) (hp.stp _) hr hroom hget hgone).imp_right .inl
    | @close instrument _ _ _ _ e ids hpull _ =>
      obtain ⟨hsound, hroom', -⟩ := (hp.sound instrument).cancelAllForUser hpull
      rcases (hp.sound instrument).get_cancelAllForUser hpull hget with hid | hstays
      · exact .inr (.inl (mem_append_left _ (List.mem_map_of_mem hid)))
      · have hself := p.engineFor_setEngine_self instrument e
        have hstp : e.stp = p.config.stp := by
          rw [(MatchingEngine.cancelAllForUser_slab (hp.charted instrument).tidy hpull).2]
          exact hp.stp instrument
        rw [← hself] at hsound hstp hroom' hstays
        rcases hnew.announced hsound hstp (inRange_closeOrder hr) (hroom' hroom) hstays hgone with
          hsum | hcancelled
        · have hnone : ((ids.map (.cancelled instrument)).map
              (ExecReport.takenFrom instrument o.id)).sum = 0 :=
            @ExecReport.sum_takenFrom _ p instrument [] (filter_isTrade_cancelled instrument ids)
              o.id
          refine .inl ?_
          rw [map_append, sum_append]
          exact (congrArg (· + _) hnone).trans ((zero_add _).trans hsum)
        · exact .inr (.inl (mem_append_right _ hcancelled))
  | @cancel instrument _ _ _ _ hcancel =>
    rw [Command.instrument, engineFor_setEngine_self] at hgone
    obtain ⟨hid, rfl⟩ := (hp.sound instrument).cancel_fate hcancel hget hgone
    exact .inr (.inl (by rw [hid]; exact mem_cons_self))
  | modify hmodify =>
    rw [Command.instrument, engineFor_setEngine_self] at hgone
    exact hp.announced_of_modify hok hmodify hget hgone
  | @pull instrument _ _ _ _ _ hpull =>
    rcases (hp.sound instrument).get_cancelAllForUser hpull hget with hid | hstays
    · exact .inr (.inl (List.mem_map_of_mem hid))
    · rw [Command.instrument, engineFor_setEngine_self, hstays] at hgone
      cases hgone
  | halt | resume | haltUser | resumeUser => cases hgone.symm.trans hget
  | batch => exact hs.elim

/-- **No silent removal.** In every state that a processor reaches, also between the commands of a
batch, a command reports every order that it removes from a book, if its amendments ask for some
lots and meet no orders of the same user. A batch is followed into its commands: as a whole it may
amend an order in place and then fill the smaller rest. -/
theorem removal_announced (config : ProcessorConfig) (es : List Event) (p : Processor)
    (h : Trace undisturbed AmendsOpenly (fresh config) es p) (ω : Oracle) (cmd : Command)
    (hs : cmd.Single) (hok : (p.dedupe cmd).1.AmendsOpenly cmd) (p' : Processor)
    (reports : List ExecReport) (hprocess : p.process ω cmd = some (p', reports))
    (instrument : ℕ) (o : Order) (hrests : (p.engineFor instrument).book.get o.id = some o)
    (hgone : (p'.engineFor instrument).book.get o.id = none) :
    Announced cmd reports instrument o := by
  have hp : p.Orderly := h.invariant (fun p cmd hp => hp.dedupe cmd)
    (fun p ω cmd p' reports hs hok hp happly => hp.apply hs hok.1 hok.2.1 happly)
    (fun _ _ _ hout => hout.elim) (orderly_fresh config)
  rw [process_of_single p ω hs] at hprocess
  have hengine := p.engineFor_dedupe cmd instrument
  have hp₁ := hp.dedupe cmd
  rw [← hengine] at hrests
  obtain ⟨hadm, -⟩ | ⟨p₁, hadm, happly⟩ := gated_eq_some hprocess
  · rw [hadm, hgone] at hrests
    cases hrests
  · rw [hadm] at hp₁ hok hrests
    exact hp₁.announced hs hok happly hrests hgone

theorem removal_announced_raisedBid : ∃ es p p' reports o,
    Trace undisturbed AmendsOpenly (fresh defaultConfig) es p ∧
    p.process (fun _ => 1) (.modify 0 2 105 5 3) = some (p', reports) ∧
    (p.engineFor 0).book.get 2 = some o ∧ (p'.engineFor 0).book.get 2 = none ∧
    Announced (.modify 0 2 105 5 3) reports 0 o := by
  have hrun : ((fresh defaultConfig).events 1 quotes).map (fun r =>
      ((r.2.all fun e => decide e.HasRoom, decide ((r.1.engineFor 0).stp = .allow),
        decide (Event.applied
          (r.1.dedupe (.modify 0 2 105 5 3)).1 (.modify 0 2 105 5 3) []).HasRoom),
        (r.1.engineFor 0).book.get 2,
        (r.1.process (fun _ => 1) (.modify 0 2 105 5 3)).map fun r' =>
          (r'.1.engineFor 0).book.get 2)) =
      some ((true, true, true), some { (Order.limit 2 .buy 100 5).by_ 2 with timestamp := 2 },
        some none) := by decide +kernel
  obtain ⟨⟨p, es⟩, hrun, hres⟩ := map_eq_some_iff.mp hrun
  simp only [Prod.mk.injEq] at hres
  obtain ⟨⟨hroom, hstp, hroom'⟩, hget, hprocess⟩ := hres
  have hroom' := of_decide_eq_true hroom'
  obtain ⟨⟨p', reports⟩, hprocess, hgone⟩ := map_eq_some_iff.mp hprocess
  have htrace : Trace undisturbed AmendsOpenly (fresh defaultConfig) es p := by
    refine trace_of_events hrun (by decide) fun c hc q reports hmem => ?_
    have hroom := of_decide_eq_true (List.all_eq_true.mp hroom _ hmem)
    simp only [quotes, mem_cons, not_mem_nil, or_false] at hc
    rcases hc with rfl | rfl <;>
      exact ⟨by unfold Command.InRange; decide, hroom,
        fun _ _ _ _ h => absurd h (not_amends (by simp) _ _ _ _ _)⟩
  refine ⟨es, p, p', reports, _, htrace, hprocess, hget, hgone,
    removal_announced defaultConfig es p htrace (fun _ => 1) (.modify 0 2 105 5 3) trivial
      ⟨by unfold Command.InRange; decide, hroom', ?_⟩ p' reports hprocess 0 _ hget
      hgone⟩
  rintro instrument o newPrice newQty ⟨_, _, h, -⟩
  obtain ⟨rfl, -, -, rfl, -⟩ := Command.modify.inj h
  refine ⟨by decide, .inl ?_⟩
  rw [engineFor_dedupe]
  exact of_decide_eq_true hstp

/-- After some commands, a command removes the order `o` and its reports do not say so. -/
def RemovesSilently (config : ProcessorConfig) (cmds : List Command) (cmd : Command)
    (instrument : ℕ) (o : Order) : Prop :=
  ∃ p before p' reports, (fresh config).processAll (fun _ => 1) 0 cmds = some (p, before) ∧
    p.process (fun _ => 1) cmd = some (p', reports) ∧
    (p.engineFor instrument).book.get o.id = some o ∧
    (p'.engineFor instrument).book.get o.id = none ∧ ¬ Announced cmd reports instrument o

theorem removesSilently_of_run {config : ProcessorConfig} {cmds : List Command}
    (reports : List ExecReport)
    (hruns : ((fresh config).processAll (fun _ => 1) 0 cmds).map (fun r =>
      ((r.1.engineFor instrument).book.get o.id, (r.1.process (fun _ => 1) cmd).map fun r' =>
        ((r'.1.engineFor instrument).book.get o.id, r'.2))) = some (some o, some (none, reports)))
    (hsilent : ¬ Announced cmd reports instrument o) :
    RemovesSilently config cmds cmd instrument o := by
  obtain ⟨⟨p, before⟩, hrun, hres⟩ := map_eq_some_iff.mp hruns
  obtain ⟨hget, hnext⟩ := Prod.mk.inj hres
  obtain ⟨⟨p', reports'⟩, hprocess, hres'⟩ := map_eq_some_iff.mp hnext
  obtain ⟨hgone, rfl⟩ := Prod.mk.inj hres'
  exact ⟨p, before, p', reports', hrun, hprocess, hget, hgone, hsilent⟩

/-- **Amendments remove silently.** A bid that is raised to an ask of the same user: the ask is
pulled, and the only report is `Modified` for the bid. A raised bid that trades and then meets
an ask of the same user: the bid is dropped behind a `Modified` report. A bid that is amended
to zero lots at another price: it is reported as filled without an execution. -/
theorem amendment_pulls_silently :
    RemovesSilently { defaultConfig with stp := .cancelMaker }
      [.new ((Order.limit 1 .sell 105 5).by_ 1), .new ((Order.limit 2 .buy 100 5).by_ 1)]
      (.modify 0 2 105 5 3) 0 { (Order.limit 1 .sell 105 5).by_ 1 with timestamp := 1 } ∧
    RemovesSilently { defaultConfig with stp := .cancelTaker }
      [.new ((Order.limit 1 .sell 105 3).by_ 2), .new ((Order.limit 2 .sell 106 5).by_ 1),
        .new ((Order.limit 3 .buy 100 5).by_ 1)]
      (.modify 0 3 106 5 4) 0 { (Order.limit 3 .buy 100 5).by_ 1 with timestamp := 3 } ∧
    RemovesSilently defaultConfig [.new ((Order.limit 1 .buy 100 5).by_ 1)]
      (.modify 0 1 99 0 2) 0 { (Order.limit 1 .buy 100 5).by_ 1 with timestamp := 1 } := by
  refine ⟨removesSilently_of_run [.modified 0 2 5] (by decide +kernel) ?_,
    removesSilently_of_run [.trade 0 3 1 .buy 105 3 0 0, .modified 0 3 2]
      (by decide +kernel) ?_,
    removesSilently_of_run [.filled 0 1] (by decide +kernel) ?_⟩ <;>
  simp [Announced, ExecReport.takenFrom, Order.by_, Order.limit]

end Processor

end TradeCore
