import TradeCore.Turns

/-!
# A Submission Conserves Quantity

What a submission does to the resting orders is written down by its report: the trades say
how much each maker loses, the self-trade list says which makers disappear, and the resting
flag says whether the remainder joins the back of its level. `Conserved` states that nothing
else happens. It is a loop invariant of the reference crossing loop (`Conserving`), and the
engine inherits it.

## Main results

* `NaiveEngine.submit_conserves` — the reference conserves quantity.
* `MatchingEngine.submit_conserved` — so does every reachable engine.
-/

namespace TradeCore

open Std List Option

/-! ### What a report says about the makers -/

/-- The lots that a maker traded. -/
def traded (trades : List Trade) (id : ℕ) : ℕ :=
  (trades.map fun t => if t.maker = id then t.quantity else 0).sum

/-- What trades and self-trade prevention leave of a resting order. -/
def aftermath (trades : List Trade) (stpCancelled : List ℕ) (o : Order) : Option Order :=
  if o.id ∈ stpCancelled then none
  else if o.remaining - traded trades o.id = 0 then none
  else some { o with remaining := o.remaining - traded trades o.id }

/-- **Conservation of quantity** in a submission that turned the queues `before` into
`after`. -/
structure Conserved (before after : Side → ℕ → List Order) (seq : ℕ) (stpCancelled : List ℕ)
    (order : Order) (report : SubmitReport) : Prop where
  /-- The reported fill is the sum of the trades. -/
  filled_eq : report.filled = (report.trades.map Trade.quantity).sum
  filled_le : report.filled ≤ order.quantity
  /-- Every trade has a maker that rested at the price of the trade. -/
  makers : ∀ t ∈ report.trades, ∃ o ∈ before order.side.opposite t.price, o.id = t.maker
  /-- No maker trades more than it has. -/
  traded_le : ∀ s p, ∀ o ∈ before s p, traded report.trades o.id ≤ o.remaining
  /-- The queues afterwards: every maker loses what it traded, the cancelled makers are gone,
  the remainder joins the back of its level, and all else is as it was. -/
  queues : ∀ s p, after s p =
    (before s p).filterMap (aftermath report.trades stpCancelled) ++
      if report.resting = true ∧ s = order.side ∧ p = order.price then
        [{ order with timestamp := seq, remaining := order.quantity - report.filled }]
      else []
  /-- Only the remainder of a good-till-cancel limit order rests. -/
  rests : report.resting = true →
    0 < order.quantity - report.filled ∧ order.orderType = .limit ∧ order.tif = .gtc
  filled_iff : report.status ≠ .rejected →
    (report.status = .filled ↔ report.filled = order.quantity)
  resting_iff : report.status = .resting ↔ report.filled = 0 ∧ report.resting = true
  rejected : report.status = .rejected → ∀ s p, after s p = before s p

@[simp] theorem traded_nil (id : ℕ) : traded [] id = 0 := rfl

theorem traded_append (trades trades' : List Trade) (id : ℕ) :
    traded (trades ++ trades') id = traded trades id + traded trades' id := by
  simp [traded]

/-- The trades of allocations take what their fills take. -/
theorem traded_map_tradeOf (seq px : ℕ) (order : Order) (view : List RestingOrder)
    (allocs : List Allocation) (id : ℕ) :
    traded (allocs.map (tradeOf seq order px view)) id = taken (allocs.map fillOf) id := by
  rw [traded, taken, List.map_map, List.map_map]
  rfl

/-- The trades of allocations add up to them. -/
theorem sum_quantity_map_tradeOf (seq px : ℕ) (order : Order) (view : List RestingOrder)
    (allocs : List Allocation) :
    ((allocs.map (tradeOf seq order px view)).map Trade.quantity).sum = allocated allocs := by
  rw [List.map_map]
  rfl

/-- Among fills of distinct makers, one takes what it says. -/
theorem taken_of_mem {allocs : List Allocation} (hnd : (allocs.map Allocation.id).Nodup)
    {a : Allocation} (ha : a ∈ allocs) : taken (allocs.map fillOf) a.id = a.qty := by
  induction allocs with
  | nil => cases ha
  | cons b allocs ih =>
    rw [map_cons, nodup_cons] at hnd
    rw [map_cons, taken_cons]
    rcases mem_cons.mp ha with rfl | ha
    · have hnone : a.id ∉ (allocs.map fillOf).map Prod.fst := by
        rw [List.map_map]
        exact hnd.1
      rw [taken_of_notMem hnone]
      simp [fillOf]
    · have hne : b.id ≠ a.id := fun hid => hnd.1 (hid ▸ List.mem_map_of_mem ha)
      rw [ih hnd.2 ha]
      simp [fillOf, hne]

/-- Nothing happens to a live order without trades and cancellations. -/
theorem aftermath_nil {o : Order} (h : 0 < o.remaining) : aftermath [] [] o = some o := by
  simp [aftermath, h.ne']

/-- A maker keeps its id. -/
theorem id_of_aftermath {trades : List Trade} {stp : List ℕ} {o o' : Order}
    (h : aftermath trades stp o = some o') :
    o'.id = o.id ∧ o'.remaining = o.remaining - traded trades o.id ∧ 0 < o'.remaining := by
  rw [aftermath] at h
  split at h
  · cases h
  · split at h
    · cases h
    · rename_i hne
      rw [← some.inj h]
      exact ⟨rfl, rfl, pos_of_ne_zero hne⟩

/-- Cancelling more makers afterwards. -/
theorem aftermath_bind_without (trades : List Trade) (stp ids : List ℕ) (o : Order) :
    (aftermath trades stp o).bind (without ids) = aftermath trades (stp ++ ids) o := by
  rw [aftermath, aftermath]
  by_cases hs : o.id ∈ stp
  · simp [hs]
  · by_cases hi : o.id ∈ ids
    · by_cases hz : o.remaining - traded trades o.id = 0 <;> simp [hs, hi, hz, without]
    · by_cases hz : o.remaining - traded trades o.id = 0 <;> simp [hs, hi, hz, without]

/-- Settling more fills afterwards. -/
theorem aftermath_bind_settle {trades trades' : List Trade} {fills : List (ℕ × ℕ)}
    (hfills : ∀ id, traded trades' id = taken fills id) (stp : List ℕ) (o : Order) :
    (aftermath trades stp o).bind (settle fills) = aftermath (trades ++ trades') stp o := by
  rw [aftermath, aftermath, traded_append, hfills, ← Nat.sub_sub]
  by_cases hs : o.id ∈ stp
  · simp [hs]
  · by_cases hz : o.remaining - traded trades o.id = 0
    · simp [hs, hz]
    · simp [hs, hz, settle]

/-- What the status of a crossed order says. -/
theorem NaiveCross.status_facts (c : NaiveCross) (stopped : Bool)
    (hle : c.order.remaining ≤ c.order.quantity) :
    c.status stopped ≠ .rejected ∧
      (c.status stopped = .filled ↔ c.order.quantity - c.order.remaining = c.order.quantity) ∧
      (c.status stopped = .resting ↔
        c.order.quantity - c.order.remaining = 0 ∧ c.Rests stopped) := by
  have hpos : c.Rests stopped → 0 < c.order.remaining := fun hr => hr.2.1
  rw [NaiveCross.status]
  split
  · simp only [ne_eq, reduceCtorEq, not_false_eq_true, true_iff, false_iff, true_and, not_and]
    refine ⟨by omega, fun _ hr => ?_⟩
    have := hpos hr
    omega
  · split
    · simp only [ne_eq, reduceCtorEq, not_false_eq_true, false_iff, true_and, not_and]
      exact ⟨by omega, fun _ _ => by omega⟩
    · split
      · rename_i hr
        simp only [ne_eq, reduceCtorEq, not_false_eq_true, false_iff, true_iff, true_and]
        exact ⟨by omega, by omega, hr⟩
      · rename_i hr
        simp only [ne_eq, reduceCtorEq, not_false_eq_true, false_iff, true_and, not_and]
        exact ⟨by omega, fun _ => hr⟩

/-! ### The loop invariant -/

/-- What the crossing loop has done since it started in `n₀`. -/
structure Conserving (n₀ n : NaiveCross) : Prop where
  queues : ∀ s p, n.book.queue s p =
    (n₀.book.queue s p).filterMap (aftermath n.trades n.stpCancelled)
  filled : n.order.remaining + (n.trades.map Trade.quantity).sum = n₀.order.remaining
  order : SameOrder n₀.order n.order
  traded_le : ∀ s p, ∀ o ∈ n₀.book.queue s p, traded n.trades o.id ≤ o.remaining
  makers : ∀ t ∈ n.trades, ∃ o ∈ n₀.book.queue n₀.order.side.opposite t.price, o.id = t.maker

namespace Conserving

variable {n₀ n : NaiveCross}

/-- The loop starts with nothing done. -/
theorem refl (hr : n₀.book.Realized) (ht : n₀.trades = []) (hs : n₀.stpCancelled = []) :
    Conserving n₀ n₀ where
  queues := by
    intro s p
    rw [ht, hs]
    exact (filterMap_eq_self fun o ho => aftermath_nil (hr.of_mem_queue ho).1).symm
  filled := by rw [ht]; rfl
  order := rfl
  traded_le := fun s p o _ => by rw [ht]; exact Nat.zero_le _
  makers := fun t hmem => by rw [ht] at hmem; cases hmem

/-- An order still in a queue was there at the start. -/
theorem of_mem_queue (h : Conserving n₀ n) {s : Side} {p : ℕ} {o' : Order}
    (ho' : o' ∈ n.book.queue s p) :
    ∃ o ∈ n₀.book.queue s p, aftermath n.trades n.stpCancelled o = some o' := by
  rw [h.queues] at ho'
  exact mem_filterMap.mp ho'

/-- Pulling makers. -/
theorem pull (h : Conserving n₀ n) (ids : List ℕ) : Conserving n₀ (n.pull ids) where
  queues := by
    intro s p
    simp only [NaiveCross.pull]
    rw [NaiveBook.queue_rewrite, h.queues, filterMap_filterMap]
    congr 1
    funext o
    exact aftermath_bind_without _ _ _ _
  filled := h.filled
  order := h.order
  traded_le := h.traded_le
  makers := h.makers

/-- Trading with the best level. -/
theorem fill (h : Conserving n₀ n) (hr₀ : n₀.book.Realized) (hr : n.book.Realized)
    {strategy : Strategy} {seq px lots : ℕ} {q : List Order} {view : List RestingOrder}
    {allocs : List Allocation} (ht : n.Trades strategy px lots q view allocs) :
    Conserving n₀ (n.fill seq px view allocs) := by
  have hside : n.order.side = n₀.order.side := by rw [h.order]
  -- an allocation fills an order that stood at `px` from the start
  have hmaker : ∀ a ∈ allocs, ∃ o ∈ n₀.book.queue n₀.order.side.opposite px, o.id = a.id ∧
      traded n.trades o.id + a.qty ≤ o.remaining := by
    intro a ha
    obtain ⟨-, o', ho', -, hid', hle⟩ := ht.of_mem hr ha
    rw [← ht.queue_eq, hside] at ho'
    obtain ⟨o, ho, hafter⟩ := h.of_mem_queue ho'
    obtain ⟨hid, hrem, hpos⟩ := id_of_aftermath hafter
    exact ⟨o, ho, hid.symm.trans hid', by omega⟩
  refine
    { queues := ?_
      filled := ?_
      order := ?_
      traded_le := ?_
      makers := ?_ }
  · intro s p
    simp only [NaiveCross.fill]
    rw [NaiveBook.queue_rewrite, h.queues, filterMap_filterMap]
    congr 1
    funext o
    exact aftermath_bind_settle (fun id => traded_map_tradeOf _ _ _ _ _ _) _ _
  · have hle := ht.allocated_le hr
    have hfilled := h.filled
    simp only [NaiveCross.fill, map_append, sum_append, sum_quantity_map_tradeOf]
    omega
  · have horder := h.order
    simp only [NaiveCross.fill, SameOrder] at horder ⊢
    rw [horder]
  · intro s p o ho
    simp only [NaiveCross.fill]
    rw [traded_append, traded_map_tradeOf]
    by_cases hmem : ∃ a ∈ allocs, a.id = o.id
    · obtain ⟨a, ha, hid⟩ := hmem
      obtain ⟨o₀, ho₀, hid₀, hle⟩ := hmaker a ha
      obtain ⟨rfl, -, -⟩ := hr₀.eq_of_id ho₀ ho (hid₀.trans hid)
      rw [← hid, taken_of_mem (ht.nodup_ids hr) ha, hid]
      exact hle
    · have hnone : o.id ∉ (allocs.map fillOf).map Prod.fst := by
        rw [List.map_map]
        rintro hin
        obtain ⟨a, ha, hid⟩ := List.mem_map.mp hin
        exact hmem ⟨a, ha, hid⟩
      rw [taken_of_notMem hnone]
      exact h.traded_le s p o ho
  · intro t hmem
    rcases mem_append.mp hmem with hmem | hmem
    · exact h.makers t hmem
    · obtain ⟨a, ha, rfl⟩ := List.mem_map.mp hmem
      obtain ⟨o, ho, hid, -⟩ := hmaker a ha
      exact ⟨o, ho, hid⟩

/-- **Every turn conserves.** -/
theorem turn (h : Conserving n₀ n) (hr₀ : n₀.book.Realized) (hr : n.book.Realized)
    {strategy : Strategy} {stp : SelfTradePolicy} {seq : ℕ} {flow : Flow} {n' : NaiveCross}
    (hturn : n.Turn strategy stp seq flow n') : Conserving n₀ n' := by
  obtain rfl | ⟨-, ids, rfl⟩ | ⟨px, lots, q, view, allocs, ht, rfl⟩ := hturn.effect
  · exact h
  · exact h.pull _
  · exact h.fill hr₀ hr ht

/-- **The end of a submission conserves.** -/
theorem conserved {c : NaiveCross} (h : Conserving n₀ c) {order : Order} {seq : ℕ}
    (hside : n₀.order.side = order.side) (hqty : n₀.order.quantity = order.quantity)
    (hrem : n₀.order.remaining = order.quantity)
    (hgtc : n₀.order.tif = .gtc →
      n₀.order = { order with timestamp := seq, remaining := order.quantity })
    (stopped : Bool) (orderId : ℕ) :
    Conserved n₀.book.queue
      (NaiveBook.queue (if c.Rests stopped then c.book.push c.order else c.book)) seq
      c.stpCancelled order
      { orderId := orderId, status := c.status stopped
        filled := c.order.quantity - c.order.remaining, trades := c.trades
        resting := c.Rests stopped } := by
  have hquantity : c.order.quantity = order.quantity := by
    rw [h.order]
    exact hqty
  have hfilled := h.filled
  rw [hrem] at hfilled
  -- the remainder that rests is the submitted order with less to fill
  have hrest : c.Rests stopped → c.order = { order with
      timestamp := seq
      remaining := order.quantity - (c.order.quantity - c.order.remaining) } := by
    intro hrests
    have htif : n₀.order.tif = .gtc := by
      have hc := hrests.2.2.2
      rw [h.order] at hc
      exact hc
    rw [hquantity, show order.quantity - (order.quantity - c.order.remaining) =
      c.order.remaining by omega]
    have horder := h.order
    rw [hgtc htif] at horder
    exact horder
  obtain ⟨hnotrej, hfilled_iff, hresting_iff⟩ := c.status_facts stopped (by omega)
  refine
    { filled_eq := ?_
      filled_le := ?_
      makers := ?_
      traded_le := h.traded_le
      queues := ?_
      rests := ?_
      filled_iff := fun _ => ?_
      resting_iff := ?_
      rejected := fun hrej => absurd hrej hnotrej }
  · simp only
    omega
  · simp only
    omega
  · rw [← hside]
    exact h.makers
  · intro s p
    simp only [decide_eq_true_eq]
    by_cases hrests : c.Rests stopped
    · have hcorder := hrest hrests
      have hcs : c.order.side = order.side := by rw [hcorder]
      have hcp : c.order.price = order.price := by rw [hcorder]
      rw [if_pos hrests, NaiveBook.queue_push, hcs, hcp, h.queues, ← hcorder]
      by_cases hsp : s = order.side ∧ p = order.price
      · rw [if_pos hsp, if_pos ⟨hrests, hsp⟩]
      · rw [if_neg hsp, if_neg fun hcon => hsp hcon.2, append_nil]
    · rw [if_neg hrests, if_neg fun hcon => hrests hcon.1, append_nil]
      exact h.queues s p
  · intro hrests
    have hrests' : c.Rests stopped := of_decide_eq_true hrests
    have hcorder := hrest hrests'
    obtain ⟨-, hpos, htype, htif⟩ := hrests'
    refine ⟨?_, ?_, ?_⟩
    · simp only
      omega
    · rw [hcorder] at htype
      exact htype
    · rw [hcorder] at htif
      exact htif
  · rw [← hquantity]
    exact hfilled_iff
  · simp only [decide_eq_true_eq]
    exact hresting_iff

end Conserving

/-! ### Submissions -/

namespace NaiveEngine

/-- Crossing conserves. -/
theorem cross_conserving (n : NaiveEngine) (hr : n.book.Realized) (hs : n.stpCancelled = [])
    (order : Order) (budget : ℕ) :
    Conserving { book := n.book, order := order, trades := [], budgetLeft := budget
                 stpCancelled := n.stpCancelled } (n.cross order budget).1 :=
  (NaiveCross.loop_induction (fun _ _ _ hr' h => h.turn hr hr') hr
    (Conserving.refl hr rfl hs) _).1

/-- A rejection conserves. -/
theorem reject_conserved (n : NaiveEngine) (hr : n.book.Realized) (order : Order) (seq : ℕ) :
    Conserved n.book.queue (n.stamped.reject order).1.book.queue seq
      (n.stamped.reject order).1.stpCancelled order (n.stamped.reject order).2 where
  filled_eq := rfl
  filled_le := Nat.zero_le _
  makers := fun _ hmem => absurd hmem not_mem_nil
  traded_le := fun _ _ _ _ => Nat.zero_le _
  queues := by
    intro s p
    rw [if_neg fun hc => nomatch hc.1]
    refine Eq.trans ?_ (append_nil _).symm
    exact (filterMap_eq_self fun o ho => aftermath_nil (hr.of_mem_queue ho).1).symm
  rests := nofun
  filled_iff := fun hc => absurd rfl hc
  resting_iff := ⟨nofun, fun hc => nomatch hc.2⟩
  rejected := fun _ _ _ => rfl

/-- **The reference conserves quantity.** -/
theorem submit_conserves (n : NaiveEngine) (hr : n.book.Realized) (order : Order) :
    Conserved n.book.queue (n.submit order).1.book.queue (n.submit order).1.seq
      (n.submit order).1.stpCancelled order (n.submit order).2 := by
  rw [submit]
  split
  · exact n.reject_conserved hr order _
  · rename_i order' budget hb
    split
    · exact n.reject_conserved hr order _
    · obtain ⟨-, hside, -, hqty, hrem, -⟩ := applyBudget_keeps hb
      have hc := n.stamped.cross_conserving hr rfl order' budget
      exact @Conserving.conserved _ _ hc order _ hside hqty hrem
        (fun htif => applyBudget_gtc hb htif) (n.stamped.cross order' budget).2 order'.id

end NaiveEngine

/-- The engine after a run that had room, and a submission that still has. -/
theorem MatchingEngine.exists_refines (strategy : Strategy) (stp : SelfTradePolicy)
    (maxOrders : ℕ) (prefault : Bool) {calls : List (HashOrder × Call)}
    (hin : ∀ c ∈ calls, c.2.InRange)
    (hroomy : (fresh strategy stp maxOrders prefault).Roomy calls) {e : MatchingEngine}
    {outcomes : List Outcome}
    (hrun : (fresh strategy stp maxOrders prefault).run calls = some (e, outcomes)) :
    ∃ n, e.Refines n ∧ n.strategy = strategy ∧ n.stp = stp :=
  ⟨_, ((Refines.fresh strategy stp maxOrders prefault).of_run hin hroomy hrun).2,
    NaiveEngine.run_config _ _⟩

/-- **Conservation of quantity.** In every engine that a run reaches, a submission that
returns changes the queues exactly as its report says, as long as the slab had room before
each call. -/
theorem MatchingEngine.submit_conserved (strategy : Strategy) (stp : SelfTradePolicy)
    (maxOrders : ℕ) (prefault : Bool) (calls : List (HashOrder × Call))
    (hin : ∀ c ∈ calls, c.2.InRange)
    (hroomy : (fresh strategy stp maxOrders prefault).Roomy calls) (e : MatchingEngine)
    (outcomes : List Outcome)
    (hrun : (fresh strategy stp maxOrders prefault).run calls = some (e, outcomes))
    (hroom : e.book.HasRoom) (order : Order) (horder : order.InRange) (e' : MatchingEngine)
    (report : SubmitReport) (hsubmit : e.submit order = some (e', report)) :
    Conserved e.book.queue e'.book.queue e'.seq e'.stpCancelled order report := by
  obtain ⟨n, hn, -⟩ := exists_refines strategy stp maxOrders prefault hin hroomy hrun
  obtain ⟨rfl, hn', -⟩ := hn.of_submit (fun _ => hroom) horder.price horder.quantity hsubmit
  have hc := n.submit_conserves ⟨e.book, hn.book⟩ order
  rw [hn.queue_eq, hn'.queue_eq, hn'.seq, hn'.stpCancelled]
  exact hc

/-- A bid that takes two asks, one of them in part, and rests nothing. -/
theorem MatchingEngine.submit_conserved_sweep : ∃ e outcomes e' report,
    (fresh .proRata .cancelMaker 4 true).run
      [(1, .submit (Order.limit 1 .sell 101 5)), (1, .submit (Order.limit 2 .sell 102 3))] =
        some (e, outcomes) ∧
      e.submit (Order.limit 3 .buy 102 6) = some (e', report) ∧ report.filled = 6 ∧
      Conserved e.book.queue e'.book.queue e'.seq e'.stpCancelled (Order.limit 3 .buy 102 6)
        report := by
  have hrun : ((fresh .proRata .cancelMaker 4 true).run
      [(1, .submit (Order.limit 1 .sell 101 5)), (1, .submit (Order.limit 2 .sell 102 3))]).map
        (fun r => (r.1.book.pool.slots.length,
          (r.1.submit (Order.limit 3 .buy 102 6)).map fun r' => r'.2.filled)) =
      some (2, some 6) := by decide +kernel
  obtain ⟨⟨e, outcomes⟩, hrun, hres⟩ := map_eq_some_iff.mp hrun
  simp only [Prod.mk.injEq] at hres
  obtain ⟨hslots, hsubmit⟩ := hres
  obtain ⟨⟨e', report⟩, hsubmit, hfilled⟩ := map_eq_some_iff.mp hsubmit
  exact ⟨e, outcomes, e', report, hrun, hsubmit, hfilled,
    MatchingEngine.submit_conserved .proRata .cancelMaker 4 true _ (by decide)
      (roomy_of_length (by decide) (by decide)) e outcomes hrun (.inr (by omega)) _ (by decide)
      e' report hsubmit⟩

/-- Prices that put each of the first `2 ^ 32` orders on its own level, and the next one at
102. -/
def wrapPrice (i : ℕ) : ℕ := if i = 2 ^ 32 then 102 else 1000 + i

/-- Every one of these orders finds its level empty. -/
theorem sellsAt_wrapPrice {i : ℕ} (h : i ≤ 2 ^ 32) : sellsAt wrapPrice i (wrapPrice i) = [] := by
  refine sellsAt_eq_nil fun j hj => ?_
  simp only [wrapPrice]
  split <;> split <;> omega

/-- Without room a submission does not conserve quantity: the order after `2 ^ 32` resting
ones is reported as resting at 102, and its level shows the first order instead. -/
theorem MatchingEngine.submit_not_conserved : ∃ e outcomes e' report,
    (fresh .priceTimePriority .allow 0 false).run (sells wrapPrice 0 (2 ^ 32)) =
        some (e, outcomes) ∧
      (∀ c ∈ sells wrapPrice 0 (2 ^ 32), c.2.InRange) ∧
      (restingSell wrapPrice (2 ^ 32)).InRange ∧
      e.submit (restingSell wrapPrice (2 ^ 32)) = some (e', report) ∧
      ¬ Conserved e.book.queue e'.book.queue e'.seq e'.stpCancelled
        (restingSell wrapPrice (2 ^ 32)) report := by
  have hprice : ∀ i, i < 2 ^ 32 + 1 → wrapPrice i < 2 ^ 64 := by
    intro i hi
    simp only [wrapPrice]
    split <;> omega
  have hrange : ∀ i, i < 2 ^ 32 + 1 → (restingSell wrapPrice i).InRange := by
    intro i hi
    exact ⟨show i + 1 < 2 ^ 64 by omega, show 0 < 2 ^ 32 by decide, show 0 < 2 ^ 64 by decide,
      hprice i hi, show 1 < 2 ^ 64 by decide, show 1 < 2 ^ 64 by decide,
      show 0 < 2 ^ 64 by decide⟩
  have hlive : ∀ i, i ≤ 2 ^ 32 → (sellsAt wrapPrice i (wrapPrice i)).length + 1 < 2 ^ 32 := by
    intro i hi
    rw [sellsAt_wrapPrice hi]
    norm_num
  obtain ⟨e, hrun, hafter, -⟩ := (AfterSells.fresh wrapPrice .priceTimePriority .allow 0 false).run
    (m := 2 ^ 32) (by norm_num) (fun i _ hi => hprice i (by omega))
    (fun i _ hi => hlive i (by omega))
  rw [zero_add] at hafter
  obtain ⟨e', hsubmit, hafter', -⟩ := hafter.submit (by norm_num) (hprice _ (by omega))
    (hlive _ le_rfl)
  refine ⟨e, _, e', _, hrun, ?_, hrange _ (by omega), hsubmit, fun hc => ?_⟩
  · intro c hc
    obtain ⟨i, hi, rfl⟩ := List.mem_map.mp hc
    have hlt := (mem_range'_1.mp hi).2
    exact hrange i (by omega)
  · have hq := hc.queues .sell 102
    have h102 : wrapPrice (2 ^ 32) = 102 := if_pos rfl
    have hnone : sellsAt wrapPrice (2 ^ 32) 102 = [] := by
      rw [← h102]
      exact sellsAt_wrapPrice le_rfl
    rw [hafter'.queue_sell, hafter.queue_sell, sellsAt_succ, hnone, if_pos h102,
      if_pos ⟨rfl, rfl, h102.symm⟩] at hq
    -- slot 0 holds order 1, not order 2 ^ 32 + 1
    have hids := congrArg (List.map Order.id) hq
    simp only [nil_append, map_cons, map_nil, restedSell, restingSell, Order.limit,
      filterMap_nil] at hids
    norm_num at hids

end TradeCore
