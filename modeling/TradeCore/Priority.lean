import TradeCore.Conservation

/-!
# Price-Time Priority

Every trade of an engine with the price-time strategy goes to the best price, and at that
price to the order that has waited longest. *Longest* refers to the history of the run:
`arrivals` records for each id the call that last put it into a queue, by a submission or a
requote.

A trade executes inside a turn of the crossing loop. `MatchingEngine.Crossing` are the states
of the loop during a submission, `MatchingEngine.Executes` names the moment of one trade by
the state its turn started in and the trades of the same turn before it, and `HasPriority`
says what holds at that moment. Queues follow arrivals in every reachable book
(`InArrivalOrder`), and the price-time sweep goes through the front of a queue
(`priceTimeFrom_split`).

## Main results

* `InArrivalOrder.call` — a call keeps the queues in the order of arrival.
* `MatchingEngine.Executes.hasPriority` — a trade has priority when it executes.
* `MatchingEngine.run_priority` — every trade of every run has priority.
-/

namespace TradeCore

open Std List Option

variable {e : MatchingEngine} {n : NaiveEngine} {order : Order} {arrival : ℕ → ℕ}

/-! ### Arrivals -/

/-- The order that a call puts into a queue. -/
def rested : Call → Outcome → Option ℕ
  | .submit order, .submitted report => if report.resting then some order.id else none
  | .modify id _ _, .modified (.requoted report) => if report.resting then some id else none
  | _, _ => none

/-- Record the arrival of an order. -/
def arrive (clock : ℕ) (arrival : ℕ → ℕ) : Option ℕ → ℕ → ℕ
  | none => arrival
  | some id => Function.update arrival id clock

/-- The arrivals after a sequence of calls: for each id the number of the call that last put
it into a queue. -/
def arrivals : ℕ → (ℕ → ℕ) → List (HashOrder × Call) → List Outcome → ℕ → ℕ
  | clock, arrival, c :: calls, outcome :: outcomes =>
    arrivals (clock + 1) (arrive clock arrival (rested c.2 outcome)) calls outcomes
  | _, arrival, _, _ => arrival

/-- The queues hold earlier arrivals in front of later ones. -/
structure InArrivalOrder (arrival : ℕ → ℕ) (clock : ℕ) (queue : Side → ℕ → List Order) :
    Prop where
  ordered : ∀ s p, (queue s p).Pairwise fun o o' => arrival o.id < arrival o'.id
  past : ∀ s p, ∀ o ∈ queue s p, arrival o.id < clock

namespace InArrivalOrder

variable {clock : ℕ} {queue queue' : Side → ℕ → List Order}

/-- Queues without orders. -/
theorem nil (arrival : ℕ → ℕ) (clock : ℕ) (h : ∀ s p, queue s p = []) :
    InArrivalOrder arrival clock queue where
  ordered := fun s p => by
    rw [h]
    exact .nil
  past := fun s p o ho => by
    rw [h] at ho
    cases ho

variable (h : InArrivalOrder arrival clock queue)
include h

/-- Orders that leave or change in place keep the order. -/
theorem filterMap {f : Order → Option Order} (hf : ∀ o o', f o = some o' → o'.id = o.id)
    (hq : ∀ s p, queue' s p = (queue s p).filterMap f) : InArrivalOrder arrival clock queue' where
  ordered := by
    intro s p
    rw [hq, pairwise_filterMap]
    refine (h.ordered s p).imp fun hlt o ho o' ho' => ?_
    rw [hf _ _ ho, hf _ _ ho']
    exact hlt
  past := by
    intro s p o' ho'
    rw [hq, mem_filterMap] at ho'
    obtain ⟨o, ho, hfo⟩ := ho'
    rw [hf _ _ hfo]
    exact h.past s p o ho

/-- Time passes. -/
theorem tick : InArrivalOrder arrival (clock + 1) queue where
  ordered := h.ordered
  past := fun s p o ho => Nat.lt_succ_of_lt (h.past s p o ho)

/-- A new order joins the back of its queue. -/
theorem append (o : Order) (side : Side) (price : ℕ) (hnew : ∀ s p, ∀ o' ∈ queue s p, o'.id ≠ o.id)
    (hq : ∀ s p, queue' s p = queue s p ++ if s = side ∧ p = price then [o] else []) :
    InArrivalOrder (Function.update arrival o.id clock) (clock + 1) queue' := by
  have hold : ∀ s p, ∀ o' ∈ queue s p, Function.update arrival o.id clock o'.id = arrival o'.id :=
    fun s p o' ho' => Function.update_of_ne (hnew s p o' ho') _ _
  have hself : Function.update arrival o.id clock o.id = clock := Function.update_self _ _ _
  have hlast : ∀ s p, ∀ o' ∈ (if s = side ∧ p = price then [o] else []), o' = o := by
    intro s p o' ho'
    split at ho'
    · exact mem_singleton.mp ho'
    · cases ho'
  constructor
  · intro s p
    rw [hq, pairwise_append]
    refine ⟨?_, ?_, ?_⟩
    · refine (h.ordered s p).imp_of_mem fun {a b} ha hb hlt => ?_
      rw [hold s p a ha, hold s p b hb]
      exact hlt
    · split
      · exact pairwise_singleton _ _
      · exact .nil
    · intro a ha b hb
      rw [hlast s p b hb, hself, hold s p a ha]
      exact h.past s p a ha
  · intro s p a ha
    rw [hq, mem_append] at ha
    rcases ha with ha | ha
    · rw [hold s p a ha]
      exact Nat.lt_succ_of_lt (h.past s p a ha)
    · rw [hlast s p a ha, hself]
      exact lt_add_one _

end InArrivalOrder

/-- A maker keeps its id. -/
theorem id_eq_of_aftermath {trades : List Trade} {stp : List ℕ} {o o' : Order}
    (h : aftermath trades stp o = some o') : o'.id = o.id :=
  (id_of_aftermath h).1

namespace InArrivalOrder

variable {clock : ℕ}

/-- **A submission** keeps the queues in the order of arrival. -/
theorem submit (h : InArrivalOrder arrival clock n.book.queue) (hr : n.book.Realized)
    (hr' : (n.submit order).1.book.Realized) :
    InArrivalOrder
      (arrive clock arrival (if (n.submit order).2.resting then some order.id else none))
      (clock + 1) (n.submit order).1.book.queue := by
  have hc := n.submit_conserves hr order
  generalize n.submit order = r at hc hr'
  obtain ⟨n', report⟩ := r
  have hqueues := hc.queues
  simp only at hqueues
  have hkeep := h.filterMap (fun o o' => @id_eq_of_aftermath report.trades n'.stpCancelled o o')
    fun _ _ => rfl
  cases hrest : report.resting with
  | false =>
    simp only [hrest, Bool.false_eq_true, false_and, if_false, append_nil] at hqueues
    refine hkeep.tick.filterMap (fun o o' ho => congrArg Order.id (some.inj ho).symm) ?_
    intro s p
    rw [hqueues, filterMap_some]
  | true =>
    simp only [hrest, true_and] at hqueues
    refine hkeep.append { order with
      timestamp := n'.seq, remaining := order.quantity - report.filled }
      order.side order.price ?_ hqueues
    -- an id rests once
    intro s p o' ho' hid
    have hmem : o' ∈ n'.book.queue s p := by
      rw [hqueues]
      exact mem_append_left _ ho'
    have hlast : { order with
        timestamp := n'.seq, remaining := order.quantity - report.filled } ∈
        n'.book.queue order.side order.price := by
      rw [hqueues, if_pos ⟨rfl, rfl⟩]
      exact mem_append_right _ mem_cons_self
    obtain ⟨-, rfl, rfl⟩ := hr'.eq_of_id hmem hlast hid
    have hnd := hr'.nodup_ids order.side order.price
    simp only at hnd
    rw [hqueues, if_pos ⟨rfl, rfl⟩, map_append, nodup_append] at hnd
    exact hnd.2.2 _ (List.mem_map_of_mem ho') _ mem_cons_self hid

/-- **A call** keeps the queues in the order of arrival. -/
theorem call (h : InArrivalOrder arrival clock n.book.queue) (hr : n.book.Realized) {c : Call}
    (hr' : (n.call c).1.book.Realized) :
    InArrivalOrder (arrive clock arrival (rested c (n.call c).2)) (clock + 1)
      (n.call c).1.book.queue := by
  have hwithout : ∀ ids, InArrivalOrder arrival (clock + 1) (n.book.rewrite (without ids)).queue :=
    fun ids => h.tick.filterMap (fun _ _ => id_of_without) fun s p => NaiveBook.queue_rewrite ..
  cases c with
  | submit order => exact h.submit hr hr'
  | cancel id => exact hwithout [id]
  | cancelAllForUser user => exact hwithout _
  | modify id newPrice newQty =>
    simp only [NaiveEngine.call, NaiveEngine.modify] at hr' ⊢
    cases ho : n.book.find? id with
    | none => exact h.tick
    | some o =>
      simp only [ho] at hr' ⊢
      split
      · split
        · exact hwithout [id]
        · exact h.tick.filterMap (fun _ _ => id_of_shrunk) fun s p => NaiveBook.queue_rewrite ..
      · rename_i hkeep
        rw [if_neg hkeep] at hr'
        have hid : o.id = id := by
          have := find?_some ho
          simpa using this
        have hcancel : (n.cancel id).1.book.Realized := by
          obtain ⟨b, hb⟩ := hr
          obtain ⟨b', -, hb', -⟩ := hb.cancel id
          exact ⟨b', hb'⟩
        have hq := h.filterMap (fun _ _ => id_of_without) fun s p =>
          NaiveBook.queue_rewrite n.book (without [id]) s p
        have hs := hq.submit (n := (n.cancel id).1) hcancel hr'
        rw [show (NaiveEngine.requote o newPrice newQty).id = id from hid] at hs
        exact hs

end InArrivalOrder

/-- **A run** keeps the queues in the order of arrival. -/
theorem MatchingEngine.Refines.inArrivalOrder {e' : MatchingEngine}
    {calls : List (HashOrder × Call)} (h : e.Refines n) (hin : ∀ c ∈ calls, c.2.InRange)
    (hroom : e.Roomy calls) {outcomes : List Outcome} (hrun : e.run calls = some (e', outcomes))
    {clock : ℕ} (ha : InArrivalOrder arrival clock n.book.queue) :
    ∃ n' clock', e'.Refines n' ∧ n'.strategy = n.strategy ∧
      InArrivalOrder (arrivals clock arrival calls outcomes) clock' n'.book.queue := by
  induction calls generalizing e n outcomes arrival clock with
  | nil =>
    simp only [MatchingEngine.run, some.injEq, Prod.mk.injEq] at hrun
    obtain ⟨rfl, rfl⟩ := hrun
    exact ⟨n, clock, h, rfl, ha⟩
  | cons c calls ih =>
    obtain ⟨ω, c⟩ := c
    simp only [MatchingEngine.run, bind, bind_eq_some_iff, Prod.exists, Option.pure_def,
      some.injEq, Prod.mk.injEq] at hrun
    obtain ⟨e₁, outcome, hcall, e₂, outcomes', hrun, rfl, rfl⟩ := hrun
    obtain ⟨hagree, h₁, -⟩ := h.of_call hroom.1 (hin _ mem_cons_self) hcall
    have hrested : rested c outcome = rested c (n.call c).2 := by
      obtain heq | ⟨ids, ids', h₁, h₂⟩ := hagree.eq_or
      · rw [heq]
      · rw [h₁, h₂]
        cases c <;> rfl
    obtain ⟨n', clock', h', hstrategy, ha'⟩ := ih h₁ (fun c hc => hin c (mem_cons_of_mem _ hc))
      (hroom.2 e₁ outcome hcall) hrun (ha.call ⟨e.book, h.book⟩ ⟨e₁.book, h₁.book⟩)
    refine ⟨n', clock', h', hstrategy.trans (n.call_config c).1, ?_⟩
    rw [arrivals, hrested]
    exact ha'

/-! ### The moments of a submission -/

/-- A state of the crossing loop, before a turn, while `order` is submitted to `e`. -/
inductive MatchingEngine.Crossing (e : MatchingEngine) (order : Order) : Cross → Prop
  | start {order' : Order} {budget : ℕ}
      (hbudget : MatchingEngine.applyBudget
        { e with seq := wrappingAdd 64 e.seq 1, stpCancelled := [] }
        { order with timestamp := wrappingAdd 64 e.seq 1, remaining := order.quantity } =
          some (some (order', budget)))
      (hfok : MatchingEngine.fokShort
        { e with seq := wrappingAdd 64 e.seq 1, stpCancelled := [] } order' = some false) :
      e.Crossing order
        { book := e.book, order := order', trades := [], budgetLeft := budget, stpCancelled := [] }
  | turn {c c' : Cross} (hc : e.Crossing order c) (hrem : c.order.remaining ≠ 0)
      (hpass : crossPass e.strategy e.stp (wrappingAdd 64 e.seq 1) c = some (.continue, c')) :
      e.Crossing order c'

/-- **The moment of a trade**: while `order` is submitted to `e`, the turn that starts in
state `c` executes the trades `earlier` and then `t`. -/
structure MatchingEngine.Executes (e : MatchingEngine) (order : Order) (c : Cross)
    (earlier : List Trade) (t : Trade) : Prop where
  crossing : e.Crossing order c
  turn : c.order.remaining ≠ 0 ∧ ∃ flow c' later,
    crossPass e.strategy e.stp (wrappingAdd 64 e.seq 1) c = some (flow, c') ∧
      c'.trades = c.trades ++ (earlier ++ t :: later)

/-- The prices within the limit of a limit order. The price field of a budget order is a
total: the most a buyer spends, and the least a seller takes, which the engine turns into a
floor for each lot. -/
def Order.WithinLimit (order : Order) (px : ℕ) : Prop :=
  match order.side, order.tif with
  | .buy, _ => px ≤ order.price
  | .sell, .iocBudget | .sell, .fokBudget =>
    MatchingEngine.budgetFloor order.price order.quantity ≤ px
  | .sell, _ => order.price ≤ px

/-- **Price-time priority** of the trade `t` of `order`, when the turn that executes it found
the book `book` and has executed the trades `earlier`. -/
structure HasPriority (arrival : ℕ → ℕ) (order : Order) (book : OrderBook)
    (earlier : List Trade) (t : Trade) : Prop where
  /-- The trade prints at the resting price of its maker. -/
  maker : ∃ o ∈ book.queue order.side.opposite t.price, o.id = t.maker ∧ o.price = t.price
  /-- No live order has a better price. -/
  best : ∀ p, ∀ o ∈ book.queue order.side.opposite p, ¬ order.side.opposite.better p t.price
  /-- The orders at this price that arrived before the maker have traded all they had. -/
  time : ∀ o ∈ book.queue order.side.opposite t.price, arrival o.id < arrival t.maker →
    traded earlier o.id = o.remaining
  limit : order.orderType = .limit → order.WithinLimit t.price

/-- What the budget step makes of a limit. -/
theorem NaiveEngine.applyBudget_within {order' : Order} {budget px : ℕ}
    (h : n.applyBudget order = some (order', budget)) (htype : order.orderType = .limit)
    (hcross : crossable order' px = true) (hpx : px ≤ budget) : order.WithinLimit px := by
  cases ht : order.tif <;> cases hs : order.side <;> simp only [applyBudget, ht, hs] at h
  case fokBudget.buy =>
    split at h
    · cases h
    · cases h
      simpa [Order.WithinLimit, hs] using hpx
  all_goals
    cases h
  case iocBudget.buy => simpa [Order.WithinLimit, hs] using hpx
  all_goals simpa [Order.WithinLimit, crossable, htype, ht, hs] using hcross

/-- **Time priority of the sweep**: in a queue that follows arrivals, every order that arrived
before the maker of an allocation has been filled completely by the allocations before it. -/
theorem NaiveCross.Trades.taken_eq {n : NaiveCross} {px lots : ℕ} {q : List Order}
    {view : List RestingOrder} {done later : List Allocation} {a : Allocation}
    (h : n.Trades .priceTimePriority px lots q view (done ++ a :: later)) (hr : n.book.Realized)
    (hq : q.Pairwise fun o o' => arrival o.id < arrival o'.id) {o : Order} (ho : o ∈ q)
    (hlt : arrival o.id < arrival a.id) :
    taken (done.map fillOf) o.id = o.remaining := by
  obtain ⟨front, r, back, hview, hid, hdone⟩ :=
    priceTimeFrom_split (h.view_facts hr).1 h.allocs_eq.symm
  -- the maker `m` of `a` splits the queue
  obtain ⟨rest, hrest⟩ := h.view_isPrefix
  rw [hview, append_assoc, cons_append] at hrest
  obtain ⟨q₁, q₂, rfl, hfront, hback⟩ := map_eq_append_iff.mp hrest.symm
  obtain ⟨m, q₃, rfl, hm, -⟩ := map_eq_cons_iff.mp hback
  have hma : m.id = a.id := by
    rw [← hid, ← hm]
    rfl
  rw [pairwise_append, pairwise_cons] at hq
  rcases mem_append.mp ho with ho | ho
  · have hmem : (o.id, o.remaining) ∈ done.map fun a => (a.id, a.qty) := by
      rw [hdone, ← hfront, List.map_map]
      exact List.mem_map.mpr ⟨o, ho, rfl⟩
    obtain ⟨b, hb, hpair⟩ := List.mem_map.mp hmem
    rw [Prod.mk.injEq] at hpair
    have hnd := h.nodup_ids hr
    rw [map_append] at hnd
    rw [← hpair.1, ← hpair.2, taken_of_mem hnd.of_append_left hb]
  · rcases mem_cons.mp ho with rfl | ho
    · rw [hma] at hlt
      exact absurd hlt (lt_irrefl _)
    · have := hq.2.1.1 o ho
      rw [hma] at this
      omega

/-- The reference loop at the start of a submission. -/
def NaiveEngine.crossStart (n : NaiveEngine) (order : Order) (budget : ℕ) : NaiveCross :=
  { book := n.book, order := order, trades := [], budgetLeft := budget, stpCancelled := [] }

/-- The budget only shrinks. -/
theorem NaiveCross.Turn.budgetLeft {n n' : NaiveCross} {strategy : Strategy}
    {stp : SelfTradePolicy} {seq : ℕ} {flow : Flow} (h : n.Turn strategy stp seq flow n') :
    n'.budgetLeft ≤ n.budgetLeft := by
  obtain rfl | ⟨-, ids, rfl⟩ | ⟨px, lots, q, view, allocs, -, rfl⟩ := h.effect
  · exact le_rfl
  · exact le_rfl
  · exact Nat.sub_le _ _

namespace MatchingEngine

variable {c : Cross}

/-- **The reference behind a crossing state.** -/
theorem Crossing.refines (hc : e.Crossing order c) (h : e.Refines n)
    (hqty : order.quantity < 2 ^ 64) : ∃ order' budget nc,
      n.stamped.applyBudget (n.stampOrder order) = some (order', budget) ∧ c.Refines nc ∧
      Conserving (n.crossStart order' budget) nc ∧ nc.budgetLeft ≤ budget := by
  induction hc with
  | @start order' budget hbudget hfok =>
    rw [h.stampOrder, h.stamped.applyBudget
      (show (n.stampOrder order).quantity < 2 ^ 64 from hqty), some.injEq] at hbudget
    exact ⟨order', budget, n.crossStart order' budget, hbudget, ⟨h.book, rfl, rfl, rfl, rfl⟩,
      Conserving.refl ⟨e.book, h.book⟩ rfl rfl, le_rfl⟩
  | @turn c c' hc hrem hpass ih =>
    obtain ⟨order', budget, nc, hbudget, href, hcons, hle⟩ := ih
    obtain ⟨c'', hpass', href', -⟩ := href.pass e.strategy e.stp (wrappingAdd 64 e.seq 1)
    obtain rfl := (Prod.mk.inj (some.inj (hpass.symm.trans hpass'))).2
    have hturn := NaiveCross.turn_of_pass
      (Prod.eta (nc.pass e.strategy e.stp (wrappingAdd 64 e.seq 1))).symm
    exact ⟨order', budget, _, hbudget, href',
      hcons.turn ⟨e.book, h.book⟩ ⟨c.book, href.book⟩ hturn, hturn.budgetLeft.trans hle⟩

/-- Every trade executes in some turn. -/
theorem Crossing.exists_executes (h : e.Refines n) (hqty : order.quantity < 2 ^ 64) {fuel : ℕ}
    {c' : Cross} {stopped : Bool} (hc : e.Crossing order c)
    (hloop : crossLoop e.strategy e.stp (wrappingAdd 64 e.seq 1) fuel c = some (c', stopped)) :
    ∃ new, c'.trades = c.trades ++ new ∧ ∀ done t later, new = done ++ t :: later →
      ∃ c₁ earlier, e.Executes order c₁ earlier t ∧ c₁.trades ++ earlier = c.trades ++ done := by
  induction fuel generalizing c with
  | zero => cases hloop
  | succ fuel ih =>
    rw [crossLoop] at hloop
    split at hloop
    · simp only [some.injEq, Prod.mk.injEq] at hloop
      refine ⟨[], by rw [← hloop.1, append_nil], fun done t later hnil => ?_⟩
      cases done <;> cases hnil
    · rename_i hrem
      simp only [bind, bind_eq_some_iff, Prod.exists] at hloop
      obtain ⟨flow, c₁, hpass, hloop⟩ := hloop
      obtain ⟨-, -, nc, -, href, -⟩ := hc.refines h hqty
      obtain ⟨own, new, hcrosses⟩ := crossPass_crosses
        (href.book.inv.charted href.book.occupied) hpass
      have hnew := hcrosses.trades
      have hexec : ∀ done t later, new = done ++ t :: later → ∃ c₂ earlier,
          e.Executes order c₂ earlier t ∧ c₂.trades ++ earlier = c.trades ++ done :=
        fun done t later heq =>
          ⟨c, done, ⟨hc, hrem, flow, c₁, later, hpass, by rw [hnew, heq]⟩, rfl⟩
      cases flow with
      | «break» | takerStopped =>
        cases hloop
        exact ⟨new, hnew, hexec⟩
      | «continue» =>
        obtain ⟨new', hnew', hexec'⟩ := ih (hc.turn hrem hpass) hloop
        refine ⟨new ++ new', by rw [hnew', hnew, append_assoc], ?_⟩
        intro done t later heq
        rcases append_eq_append_iff.mp heq with ⟨mid, rfl, hmid⟩ | ⟨mid, rfl, hmid⟩
        · obtain ⟨c₂, earlier, hx, htake⟩ := hexec' mid t later hmid
          exact ⟨c₂, earlier, hx, by rw [htake, hnew, append_assoc]⟩
        · cases mid with
          | nil =>
            obtain ⟨c₂, earlier, hx, htake⟩ := hexec' [] t later hmid.symm
            exact ⟨c₂, earlier, hx, by rw [htake, hnew, append_nil, append_nil]⟩
          | cons t' mid =>
            rw [cons_append, cons.injEq] at hmid
            obtain ⟨rfl, -⟩ := hmid
            exact hexec done t mid rfl

/-- **A trade has priority when it executes.** -/
theorem Executes.hasPriority {earlier : List Trade} {t : Trade} (hx : e.Executes order c earlier t)
    (h : e.Refines n) (hqty : order.quantity < 2 ^ 64) (hstrategy : e.strategy = .priceTimePriority)
    {clock : ℕ} (ha : InArrivalOrder arrival clock n.book.queue) :
    HasPriority arrival order c.book earlier t := by
  obtain ⟨order', budget, nc, hbudget, href, hcons, hle⟩ := hx.crossing.refines h hqty
  obtain ⟨-, hside, htype, -⟩ := NaiveEngine.applyBudget_keeps hbudget
  have hncside : nc.order.side = order.side := by
    rw [hcons.order]
    exact hside
  have hr : nc.book.Realized := ⟨c.book, href.book⟩
  obtain ⟨-, flow, c', later, hpass, htrades⟩ := hx.turn
  obtain ⟨c'', hpass', href', -⟩ := href.pass e.strategy e.stp (wrappingAdd 64 e.seq 1)
  cases hpass.symm.trans hpass'
  rw [href'.trades, href.trades] at htrades
  have hnone : nc.trades ≠ nc.trades ++ (earlier ++ t :: later) := by
    intro hc
    have := congrArg List.length hc
    simp at this
  rcases (NaiveCross.turn_of_pass (Prod.eta (nc.pass e.strategy e.stp
    (wrappingAdd 64 e.seq 1))).symm).effect with hp | ⟨-, ids, hp⟩ |
    ⟨px, lots, q, view, allocs, ht, hp⟩
  · rw [hp] at htrades
    exact absurd htrades hnone
  · rw [hp] at htrades
    exact absurd htrades hnone
  · rw [hp] at htrades
    obtain ⟨done, rest, rfl, rfl, hrest⟩ :=
      map_eq_append_iff.mp (append_cancel_left htrades)
    obtain ⟨a, later', rfl, rfl, -⟩ := map_eq_cons_iff.mp hrest
    rw [hstrategy] at ht
    have hq := (ha.filterMap (fun _ _ => id_eq_of_aftermath) hcons.queues).ordered
      nc.order.side.opposite px
    rw [ht.queue_eq] at hq
    obtain ⟨-, o, ho, -, hid, -⟩ := ht.of_mem hr (mem_append_right _ mem_cons_self)
    refine
      { maker := ?_
        best := ?_
        time := ?_
        limit := ?_ }
    · rw [href.book.queue, ← hncside]
      exact ⟨o, ht.queue_eq.symm ▸ ho, hid, (hr.of_mem_queue (ht.queue_eq.symm ▸ ho)).2.2⟩
    · intro p o ho hbetter
      rw [href.book.queue, ← hncside] at ho
      rw [← hncside] at hbetter
      rcases ht.best_price ho with rfl | hworse
      · exact irrefl _ hbetter
      · exact irrefl _ (IsTrans.trans _ _ _ hbetter hworse)
    · intro o ho hlt
      rw [href.book.queue, ← hncside] at ho
      rw [traded_map_tradeOf]
      exact ht.taken_eq hr hq (ht.queue_eq ▸ ho) hlt
    · intro hlimit
      refine @NaiveEngine.applyBudget_within _ (n.stampOrder order) _ _ _ hbudget hlimit ?_
        (Nat.le_trans ht.px_le hle)
      have := ht.crosses
      rw [hcons.order] at this
      exact this

end MatchingEngine

/-! ### The prices of a submission -/

/-- The trades go from the best price to the worst. -/
def Sweeps (trades : List Trade) : Prop :=
  trades.Pairwise fun t t' => ¬ t.aggressor.opposite.better t'.price t.price

/-- What the crossing loop leaves behind: no price better than that of a trade. -/
structure NaiveCross.Sweeping (n : NaiveCross) : Prop where
  aggressor : ∀ t ∈ n.trades, t.aggressor = n.order.side
  sweeps : Sweeps n.trades
  behind : ∀ t ∈ n.trades, ∀ p, ∀ o ∈ n.book.queue n.order.side.opposite p,
    ¬ n.order.side.opposite.better p t.price

/-- **Every turn** sweeps on. -/
theorem NaiveCross.Sweeping.turn {n n' : NaiveCross} {strategy : Strategy} {stp : SelfTradePolicy}
    {seq : ℕ} {flow : Flow} (h : n.Sweeping) (hturn : n.Turn strategy stp seq flow n') :
    n'.Sweeping := by
  -- orders only leave their queues
  have hkept : ∀ (f : Order → Option Order) (p : ℕ),
      ∀ o ∈ (n.book.rewrite f).queue n.order.side.opposite p,
      ∃ o', o' ∈ n.book.queue n.order.side.opposite p := by
    intro f p o ho
    rw [NaiveBook.queue_rewrite, mem_filterMap] at ho
    exact ho.imp fun o' ho' => ho'.1
  obtain rfl | ⟨-, ids, rfl⟩ | ⟨px, lots, q, view, allocs, ht, rfl⟩ := hturn.effect
  · exact h
  · refine ⟨h.aggressor, h.sweeps, fun t hmem p o ho => ?_⟩
    obtain ⟨o', ho'⟩ := hkept _ p o ho
    exact h.behind t hmem p o' ho'
  · have hnew : ∀ t ∈ allocs.map (tradeOf seq n.order px view),
        t.aggressor = n.order.side ∧ t.price = px := by
      intro t hmem
      obtain ⟨a, -, rfl⟩ := List.mem_map.mp hmem
      exact ⟨rfl, rfl⟩
    obtain ⟨o₀, ho₀⟩ := exists_mem_of_ne_nil _ (Ladder.head?_eq_some ht.best).2.1
    rw [← ht.queue_eq] at ho₀
    refine ⟨?_, ?_, ?_⟩
    · intro t hmem
      rcases mem_append.mp hmem with hmem | hmem
      · exact h.aggressor t hmem
      · exact (hnew t hmem).1
    · refine pairwise_append.mpr ⟨h.sweeps, ?_, ?_⟩
      · refine pairwise_of_forall_mem_list fun t hmem t' hmem' => ?_
        rw [(hnew t hmem).2, (hnew t' hmem').2]
        exact irrefl _
      · intro t hmem t' hmem'
        rw [h.aggressor t hmem, (hnew t' hmem').2]
        exact h.behind t hmem px o₀ ho₀
    · intro t hmem p o ho
      obtain ⟨o', ho'⟩ := hkept _ p o ho
      rcases mem_append.mp hmem with hmem | hmem
      · exact h.behind t hmem p o' ho'
      · rw [(hnew t hmem).2]
        intro hbetter
        rcases ht.best_price ho' with rfl | hworse
        · exact irrefl _ hbetter
        · exact irrefl _ (IsTrans.trans _ _ _ hbetter hworse)

/-- **Within a submission** the prices go from the best to the worst. -/
theorem NaiveEngine.submit_sweeps (n : NaiveEngine) (hr : n.book.Realized) (order : Order) :
    Sweeps (n.submit order).2.trades := by
  rw [submit]
  split
  · exact Pairwise.nil
  · rename_i order' budget hb
    split
    · exact Pairwise.nil
    · have hstart : (n.crossStart order' budget).Sweeping :=
        ⟨fun t hmem => absurd hmem not_mem_nil, Pairwise.nil,
          fun t hmem => absurd hmem not_mem_nil⟩
      have hcross : (n.stamped.cross order' budget).1.Sweeping :=
        (NaiveCross.loop_induction (fun _ _ _ _ h => h.turn) hr hstart _).1
      exact hcross.sweeps

/-! ### Whole runs -/

/-- The trades of a call. -/
def Outcome.trades : Outcome → List Trade
  | .submitted report => report.trades
  | .modified (.requoted report) => report.trades
  | _ => []

/-- What a call submits, and to which engine: a submission its order, and an amendment that
loses its place the amended order, after the cancellation. -/
inductive MatchingEngine.Submits (e : MatchingEngine) : Call → MatchingEngine → Order → Prop
  | submit (order : Order) : e.Submits (.submit order) e order
  | requote {id newPrice newQty slot : ℕ} {existing order : Order} {book : OrderBook}
      (hslot : e.book.locate[id]? = some slot) (hget : e.book.pool.get slot = some existing)
      (hmoved : ¬ (newPrice = existing.price ∧ newQty ≤ existing.remaining))
      (hcancel : e.book.cancel id = some (some order, book)) :
      e.Submits (.modify id newPrice newQty) { e with book := book }
        { order with price := newPrice, quantity := newQty, remaining := newQty, tif := .gtc }

namespace MatchingEngine

variable {calls : List (HashOrder × Call)} {outcomes : List Outcome}

variable {e' : MatchingEngine} {report : SubmitReport} {clock : ℕ}

/-- **The trades of a submission** have priority. -/
theorem Refines.submit_hasPriority (h : e.Refines n) (hroom : e.book.HasRoom)
    (hprice : order.price < 2 ^ 64) (hqty : order.quantity < 2 ^ 64)
    (hstrategy : e.strategy = .priceTimePriority)
    (ha : InArrivalOrder arrival clock n.book.queue)
    (hsubmit : e.submit order = some (e', report)) :
    (∀ done t later, report.trades = done ++ t :: later → ∃ c earlier,
      e.Executes order c earlier t ∧ c.trades ++ earlier = done ∧
      HasPriority arrival order c.book earlier t) ∧ Sweeps report.trades := by
  constructor
  · intro done t later heq
    rcases submit_eq_some hsubmit with
      ⟨-, rfl⟩ | ⟨order', budget, c, stopped, hbudget, hfok, hcross, -, htrades, -⟩
    · cases done <;> cases heq
    · obtain ⟨new, hnew, hexec⟩ := (Crossing.start hbudget hfok).exists_executes h hqty hcross
      rw [htrades, hnew] at heq
      obtain ⟨c₁, earlier, hx, hdone⟩ := hexec done t later heq
      exact ⟨c₁, earlier, hx, hdone, hx.hasPriority h hqty hstrategy ha⟩
  · rw [(h.of_submit (fun _ => hroom) hprice hqty hsubmit).1]
    exact n.submit_sweeps ⟨e.book, h.book⟩ order

/-- **Price-time priority over whole runs.** When a run of the price-time engine, with room in
the slab before each call, reaches `e` and the next call returns, then each of its trades
executed with priority over the arrivals of the run, and the trades of the call go from the
best price to the worst. -/
theorem run_priority (stp : SelfTradePolicy) (maxOrders : ℕ) (prefault : Bool)
    (calls : List (HashOrder × Call)) (hin : ∀ c ∈ calls, c.2.InRange)
    (hroomy : (fresh .priceTimePriority stp maxOrders prefault).Roomy calls) (e : MatchingEngine)
    (outcomes : List Outcome)
    (hrun : (fresh .priceTimePriority stp maxOrders prefault).run calls = some (e, outcomes))
    (hroom : e.book.HasRoom) (ω : HashOrder) (c : Call) (hc : c.InRange) (e' : MatchingEngine)
    (outcome : Outcome) (hcall : e.call ω c = some (e', outcome)) :
    (∀ done t later, outcome.trades = done ++ t :: later → ∃ e₁ order cross earlier,
      e.Submits c e₁ order ∧ e₁.Executes order cross earlier t ∧ cross.trades ++ earlier = done ∧
      HasPriority (arrivals 0 (fun _ => 0) calls outcomes) order cross.book earlier t) ∧
    Sweeps outcome.trades := by
  obtain ⟨n, clock, h, hstrategy, ha⟩ :=
    (Refines.fresh .priceTimePriority stp maxOrders prefault).inArrivalOrder hin hroomy hrun
      (InArrivalOrder.nil (fun _ => 0) 0 fun s p => rfl)
  have hstrategy' : e.strategy = .priceTimePriority := h.strategy.trans hstrategy
  have hnone : ∀ done (t : Trade) later, [] ≠ done ++ t :: later := by
    intro done t later hc
    cases done <;> cases hc
  cases c with
  | cancel id | cancelAllForUser user =>
    simp only [call, map_eq_some_iff, Prod.mk.injEq] at hcall
    obtain ⟨r, -, -, rfl⟩ := hcall
    exact ⟨fun done t later heq => absurd heq (hnone done t later), .nil⟩
  | submit order =>
    simp only [call, map_eq_some_iff, Prod.mk.injEq, Prod.exists] at hcall
    obtain ⟨_, report, hsubmit, rfl, rfl⟩ := hcall
    obtain ⟨hprio, hsweeps⟩ := h.submit_hasPriority hroom hc.price hc.quantity hstrategy' ha hsubmit
    refine ⟨fun done t later heq => ?_, hsweeps⟩
    obtain ⟨cross, earlier, hx, hdone, hp⟩ := hprio done t later heq
    exact ⟨e, order, cross, earlier, .submit order, hx, hdone, hp⟩
  | modify id newPrice newQty =>
    simp only [call, map_eq_some_iff, Prod.mk.injEq, Prod.exists] at hcall
    obtain ⟨_, mo, hmodify, rfl, rfl⟩ := hcall
    rcases modify_eq_some hmodify with ⟨rfl, -⟩ | ⟨rfl, -⟩ | ⟨rfl, -⟩ | ⟨order, book, report,
      ⟨hget, hmoved⟩, hcancel, hsubmit, rfl⟩
    iterate 3 exact ⟨fun done t later heq => absurd heq (hnone done t later), .nil⟩
    · obtain ⟨b', hcancel', hb', hroom'⟩ := h.book.cancel id
      obtain rfl := (Prod.mk.inj (some.inj (hcancel.symm.trans hcancel'))).2
      have hq := ha.filterMap (fun _ _ => id_of_without) fun s p =>
        NaiveBook.queue_rewrite n.book (without [id]) s p
      obtain ⟨hprio, hsweeps⟩ := (h.withBook hb').submit_hasPriority (hroom' hroom) hc.2.1 hc.2.2
        hstrategy' hq hsubmit
      refine ⟨fun done t later heq => ?_, hsweeps⟩
      obtain ⟨cross, earlier, hx, hdone, hp⟩ := hprio done t later heq
      obtain ⟨slot, hslot, hget⟩ := bind_eq_some_iff.mp hget
      exact ⟨_, _, cross, earlier, .requote hslot hget hmoved hcancel, hx, hdone, hp⟩

/-- Two asks at one price: a bid takes the first one and then a part of the second. -/
theorem run_priority_twoAsks : ∃ e outcomes e' outcome,
    (fresh .priceTimePriority .cancelMaker 4 true).run
      [(1, .submit (Order.limit 1 .sell 101 5)), (1, .submit (Order.limit 2 .sell 101 3))] =
        some (e, outcomes) ∧
      e.call 1 (.submit (Order.limit 3 .buy 102 6)) = some (e', outcome) ∧
      outcome.trades.map (fun t => (t.maker, t.quantity)) = [(1, 5), (2, 1)] ∧
      (∀ done t later, outcome.trades = done ++ t :: later → ∃ e₁ order cross earlier,
        e.Submits (.submit (Order.limit 3 .buy 102 6)) e₁ order ∧
        e₁.Executes order cross earlier t ∧ cross.trades ++ earlier = done ∧
        HasPriority (arrivals 0 (fun _ => 0)
          [(1, .submit (Order.limit 1 .sell 101 5)), (1, .submit (Order.limit 2 .sell 101 3))]
          outcomes) order cross.book earlier t) ∧
      Sweeps outcome.trades := by
  have hrun : ((fresh .priceTimePriority .cancelMaker 4 true).run
      [(1, .submit (Order.limit 1 .sell 101 5)), (1, .submit (Order.limit 2 .sell 101 3))]).map
        (fun r => (r.1.book.pool.slots.length,
          (r.1.call 1 (.submit (Order.limit 3 .buy 102 6))).map fun r' =>
            r'.2.trades.map fun t => (t.maker, t.quantity))) =
      some (2, some [(1, 5), (2, 1)]) := by decide +kernel
  obtain ⟨⟨e, outcomes⟩, hrun, hres⟩ := map_eq_some_iff.mp hrun
  simp only [Prod.mk.injEq] at hres
  obtain ⟨hslots, hcall⟩ := hres
  obtain ⟨⟨e', outcome⟩, hcall, htrades⟩ := map_eq_some_iff.mp hcall
  exact ⟨e, outcomes, e', outcome, hrun, hcall, htrades,
    run_priority .cancelMaker 4 true _ (by decide) (roomy_of_length (by decide) (by decide)) e
      outcomes hrun (.inr (by omega)) 1 _ (by decide) e' outcome hcall⟩

/-- Prices for the case without room: order 1 and order 2 have a level of their own, and the
order that gets the slot number of order 1 stands at 102. -/
def requotePrice (i : ℕ) : ℕ :=
  if i = 0 then 1000 else if i = 1 then 1001 else if i = 2 ^ 32 then 102 else 2000

/-- These orders all rest. -/
theorem requotePrice_rests {i : ℕ} (h : i ≤ 2 ^ 32) :
    requotePrice i < 2 ^ 64 ∧
      (sellsAt requotePrice i (requotePrice i)).length + 1 < 2 ^ 32 := by
  constructor
  · simp only [requotePrice]
    split_ifs <;> norm_num
  · by_cases hi : i = 0 ∨ i = 1 ∨ i = 2 ^ 32
    · rw [sellsAt_eq_nil]
      · norm_num
      · intro j hj
        simp only [requotePrice]
        split_ifs <;> omega
    · -- order 1 is not among them
      have hlt : (sellsAt requotePrice i (requotePrice i)).length < i := by
        have := (length_filter_lt_length_iff_exists
          (p := fun j => decide (requotePrice j = requotePrice i)) (l := List.range i)).mpr
            ⟨0, mem_range.mpr (by omega), by
              rw [decide_eq_true_iff]
              simp only [requotePrice]
              split_ifs <;> omega⟩
        rwa [length_range] at this
      omega

/-- The run of the case without room: past `2 ^ 32` orders, order 2 and then order 1 move to
102. -/
def requoteCalls : List (HashOrder × Call) :=
  sells requotePrice 0 (2 ^ 32 + 1) ++ [(1, .modify 2 102 1), (1, .modify 1 102 1)]

/-- The arrivals of a run in two parts. -/
theorem arrivals_append {calls' : List (HashOrder × Call)} {outcomes' : List Outcome}
    (h : calls.length = outcomes.length) (clock : ℕ) (arrival : ℕ → ℕ) :
    arrivals clock arrival (calls ++ calls') (outcomes ++ outcomes') =
      arrivals (clock + calls.length) (arrivals clock arrival calls outcomes) calls' outcomes' := by
  induction calls generalizing outcomes clock arrival with
  | nil =>
    obtain rfl : outcomes = [] := length_eq_zero_iff.mp h.symm
    rfl
  | cons c calls ih =>
    cases outcomes with
    | nil => cases h
    | cons outcome outcomes =>
      rw [cons_append, cons_append, arrivals, arrivals,
        ih (Nat.succ.inj h), length_cons, add_assoc, add_comm 1]

/-- Of two orders that move one after the other, the first has arrived first. -/
theorem arrivals_requotes (h : calls.length = outcomes.length) {id id' p q p' q' : ℕ}
    {report report' : SubmitReport} (hrest : report.resting = true)
    (hrest' : report'.resting = true) (hne : id ≠ id') (arrival : ℕ → ℕ) :
    arrivals 0 arrival (calls ++ [(1, .modify id p q), (1, .modify id' p' q')])
        (outcomes ++ [.modified (.requoted report), .modified (.requoted report')]) id <
      arrivals 0 arrival (calls ++ [(1, .modify id p q), (1, .modify id' p' q')])
        (outcomes ++ [.modified (.requoted report), .modified (.requoted report')]) id' := by
  rw [arrivals_append h]
  simp [arrivals, rested, arrive, hrest, hrest', hne]

/-- A run with one more call. -/
theorem run_concat {e₁ e₂ : MatchingEngine} {ω : HashOrder} {c : Call} {outcome : Outcome}
    (hrun : e.run calls = some (e₁, outcomes)) (hcall : e₁.call ω c = some (e₂, outcome)) :
    e.run (calls ++ [(ω, c)]) = some (e₂, outcomes ++ [outcome]) := by
  simp only [run_append, hrun, run, hcall, bind, bind_some, map_some, Option.pure_def]

/-- The engine after these orders. -/
theorem exists_afterSells_requotePrice : ∃ e,
    (fresh .priceTimePriority .allow 0 false).run (sells requotePrice 0 (2 ^ 32 + 1)) = some (e,
        (List.range' 0 (2 ^ 32 + 1)).map fun i => .submitted (sellReport i)) ∧
      AfterSells requotePrice (2 ^ 32 + 1) e ∧ e.strategy = .priceTimePriority ∧
      e.stp = .allow := by
  obtain ⟨e, hrun, hafter, hstrategy, hstp⟩ :=
    (AfterSells.fresh requotePrice .priceTimePriority .allow 0 false).run (m := 2 ^ 32 + 1)
      (by norm_num) (fun i _ hi => (requotePrice_rests (by omega)).1)
      (fun i _ hi => (requotePrice_rests (by omega)).2)
  rw [zero_add] at hafter
  exact ⟨e, hrun, hafter, hstrategy, hstp⟩

/-- The level of a price that one of these orders has. -/
theorem sellLevel_requotePrice (p j : ℕ) (hj : j < 2 ^ 32 + 1)
    (huniq : ∀ i < 2 ^ 32 + 1, requotePrice i = p ↔ i = j) :
    sellLevel requotePrice (2 ^ 32 + 1) p = some ⟨[j % 2 ^ 32], 1, 1⟩ := by
  rw [sellLevel, sellsAt_eq_singleton hj huniq, if_neg (cons_ne_nil _ _)]
  rfl

theorem sellLevel_requotePrice_1000 :
    sellLevel requotePrice (2 ^ 32 + 1) 1000 = some ⟨[0], 1, 1⟩ :=
  sellLevel_requotePrice 1000 0 (by norm_num) fun i hi => by
    simp only [requotePrice]
    split_ifs <;> omega

theorem sellLevel_requotePrice_102 :
    sellLevel requotePrice (2 ^ 32 + 1) 102 = some ⟨[0], 1, 1⟩ := by
  rw [sellLevel_requotePrice 102 (2 ^ 32) (by norm_num) fun i hi => by
    simp only [requotePrice]
    split_ifs <;> omega, Nat.mod_self]

/-- The best of these prices. -/
theorem le_of_sellLevel_requotePrice {p : ℕ} {lv : Level}
    (h : sellLevel requotePrice (2 ^ 32 + 1) p = some lv) : 102 ≤ p := by
  rw [sellLevel] at h
  split at h
  · cases h
  · rename_i hne
    obtain ⟨i, hi⟩ := exists_mem_of_ne_nil _ hne
    have hp := (mem_filter.mp hi).2
    rw [decide_eq_true_iff] at hp
    rw [← hp, requotePrice]
    split_ifs <;> omega

/-- The record of one of these orders. -/
theorem getElem?_restedSell {price : ℕ → ℕ} {j k : ℕ} (hj : j < k) :
    ((List.range k).map (restedSell price))[j]? = some (restedSell price j) := by
  rw [getElem?_map, getElem?_range hj]
  rfl

/-- After that run, level 102 reads order 1, order 2, order 1, and order 2 came first. -/
theorem requoteCalls_run : ∃ e outcomes slots levels loc o o',
    (fresh .priceTimePriority .allow 0 false).run requoteCalls = some (e, outcomes) ∧
      SellBook slots levels loc e ∧ e.strategy = .priceTimePriority ∧ e.stp = .allow ∧
      levels 102 = some ⟨[0, 1, 0], 3, 3⟩ ∧ (∀ p lv, levels p = some lv → 102 ≤ p) ∧
      loc 1 = some 0 ∧ slots[0]? = some o ∧ slots[1]? = some o' ∧
      (o.id = 1 ∧ o.side = .sell ∧ o.price = 102 ∧ o.remaining = 1 ∧ o.user = 0) ∧
      (o'.id = 2 ∧ o'.remaining = 1) ∧
      arrivals 0 (fun _ => 0) requoteCalls outcomes 2 <
        arrivals 0 (fun _ => 0) requoteCalls outcomes 1 := by
  obtain ⟨e₀, hrun₀, hafter, hstrategy₀, hstp₀⟩ := exists_afterSells_requotePrice
  have h1001 : sellLevel requotePrice (2 ^ 32 + 1) 1001 = some ⟨[1], 1, 1⟩ :=
    sellLevel_requotePrice 1001 1 (by norm_num) fun i hi => by
      simp only [requotePrice]
      split_ifs <;> omega
  obtain ⟨e₁, o', report₁, hmodify₁, hrest₁, hstrategy₁, hstp₁, ho', h₁⟩ :=
    @SellBook.requote _ _ _ _ hafter.sellBook 2 1 102 1 _ _ (by norm_num)
      (getElem?_restedSell (by norm_num)) rfl rfl rfl rfl one_pos h1001 (by decide)
      (by norm_num) sellLevel_requotePrice_102 one_pos one_pos
      (by norm_num) (by norm_num)
  have hslot₁ : (((List.range (2 ^ 32 + 1)).map (restedSell requotePrice)).set 1 o')[0]? =
      some (restedSell requotePrice 0) := by
    rw [getElem?_set_ne (by decide), getElem?_restedSell (by norm_num)]
  obtain ⟨e₂, o, report₂, hmodify₂, hrest₂, hstrategy₂, hstp₂, ho, h₂⟩ :=
    @SellBook.requote _ _ _ _ h₁ 1 0 102 1 _ _ (by norm_num) hslot₁ rfl rfl rfl rfl one_pos
      ((if_neg (by decide)).trans ((if_neg (by decide)).trans sellLevel_requotePrice_1000))
      (by decide) (by norm_num)
      (if_pos rfl) (by norm_num) one_pos (by norm_num) (by norm_num)
  have hlen : (sells requotePrice 0 (2 ^ 32 + 1)).length =
      ((List.range' 0 (2 ^ 32 + 1)).map fun i => Outcome.submitted (sellReport i)).length := by
    rw [sells, length_map, length_map]
  have hcall₁ : e₀.call 1 (.modify 2 102 1) = some (e₁, .modified (.requoted report₁)) := by
    rw [call, hmodify₁]
    rfl
  have hcall₂ : e₁.call 1 (.modify 1 102 1) = some (e₂, .modified (.requoted report₂)) := by
    rw [call, hmodify₂]
    rfl
  have hrun := run_concat (run_concat hrun₀ hcall₁) hcall₂
  rw [append_assoc, append_assoc] at hrun
  refine ⟨e₂, _, _, _, _, o, o', hrun, h₂, ?_, ?_, if_pos rfl, ?_, by norm_num, ?_, ?_, ho,
    ⟨ho'.1, ho'.2.2.2.1⟩, ?_⟩
  · exact hstrategy₂.trans (hstrategy₁.trans hstrategy₀)
  · exact hstp₂.trans (hstp₁.trans hstp₀)
  · intro p lv hlv
    simp only at hlv
    split_ifs at hlv with hp
    · exact Nat.le_of_eq hp.symm
    · exact le_of_sellLevel_requotePrice hlv
  · rw [getElem?_set_self]
    rw [length_set, length_map, length_range]
    norm_num
  · rw [getElem?_set_ne (by decide), getElem?_set_self]
    rw [length_map, length_range]
    norm_num
  · exact arrivals_requotes hlen hrest₁ hrest₂ (by decide) _

section

variable {order' : Order} {budget : ℕ} (hbudget : MatchingEngine.applyBudget
    { e with seq := wrappingAdd 64 e.seq 1, stpCancelled := [] }
    { order with timestamp := wrappingAdd 64 e.seq 1, remaining := order.quantity } =
      some (some (order', budget)))
include hbudget

/-- A submission whose first turn fills the order. -/
theorem submit_filled {c : Cross} (htif : order'.tif ≠ .fok) (hrem : order'.remaining ≠ 0)
    (hpass : crossPass e.strategy e.stp (wrappingAdd 64 e.seq 1)
      ⟨e.book, order', [], budget, []⟩ = some (.continue, c)) (hfilled : c.order.remaining = 0) :
    ∃ e' report, e.submit order = some (e', report) ∧ report.trades = c.trades := by
  refine ⟨{ e with book := c.book, seq := wrappingAdd 64 e.seq 1, stpCancelled := c.stpCancelled },
    { orderId := order'.id, status := .filled, filled := c.order.quantity - c.order.remaining
      trades := c.trades, resting := false }, ?_, rfl⟩
  simp only [submit, hbudget, bind, bind_some, fokShort, if_neg htif, Bool.false_eq_true,
    if_false, crossAndFinalize, cross, crossLoop, if_neg hrem, hpass, if_pos hfilled, finalize,
    Option.pure_def]

/-- A submission whose first turn fills the order crosses in one turn. -/
theorem Crossing.book_eq {c₁ : Cross}
    (hpass : crossPass e.strategy e.stp (wrappingAdd 64 e.seq 1)
      ⟨e.book, order', [], budget, []⟩ = some (.continue, c₁)) (htrades : c₁.trades ≠ [])
    (hrem : c₁.order.remaining = 0) {c : Cross} (hc : e.Crossing order c) :
    c.trades = [] → c.book = e.book := by
  have hstates : c = ⟨e.book, order', [], budget, []⟩ ∨ c = c₁ := by
    induction hc with
    | start hbudget' hfok =>
      cases hbudget.symm.trans hbudget'
      exact .inl rfl
    | turn hc hrem' hpass' ih =>
      rcases ih with rfl | rfl
      · rw [hpass, some.injEq, Prod.mk.injEq] at hpass'
        exact Or.inr hpass'.2.symm
      · exact absurd hrem hrem'
  rcases hstates with rfl | rfl
  · exact fun _ => rfl
  · exact fun hnil => absurd hnil htrades

end

/-- Without room a trade can go to the later of two orders: order 1 reuses the slot number
that stands in front of order 2. -/
theorem run_not_priority : ∃ e outcomes e' outcome,
    (fresh .priceTimePriority .allow 0 false).run requoteCalls = some (e, outcomes) ∧
      (∀ c ∈ requoteCalls, c.2.InRange) ∧
      (Call.submit (Order.limit (2 ^ 32 + 2) .buy 102 1)).InRange ∧
      e.call 1 (.submit (Order.limit (2 ^ 32 + 2) .buy 102 1)) = some (e', outcome) ∧
      ¬ ((∀ done t later, outcome.trades = done ++ t :: later → ∃ e₁ order cross earlier,
          e.Submits (.submit (Order.limit (2 ^ 32 + 2) .buy 102 1)) e₁ order ∧
          e₁.Executes order cross earlier t ∧ cross.trades ++ earlier = done ∧
          HasPriority (arrivals 0 (fun _ => 0) requoteCalls outcomes) order cross.book earlier t) ∧
        Sweeps outcome.trades) := by
  obtain ⟨e, outcomes, slots, levels, loc, o, o', hrun, hbook, hstrategy, hstp, hlevel, hbest,
    hloc, hslot, hslot', ⟨hid, hside, hprice, hrem, huser⟩, ⟨hid', hrem'⟩, harrival⟩ :=
      requoteCalls_run
  rw [← hid] at hloc
  have hbound : ∀ i ∈ [0, 1, 0], i < slots.length := by
    simp [(List.getElem?_eq_some_iff.mp hslot').1, (List.getElem?_eq_some_iff.mp hslot).1]
  obtain ⟨c₁, t, hpass, horder, htrades, hmaker, hpx⟩ := hbook.crossPass_front
    (wrappingAdd 64 e.seq 1)
    { Order.limit (2 ^ 32 + 2) .buy 102 1 with
      timestamp := wrappingAdd 64 e.seq 1, remaining := 1 }
    hlevel hbest (by norm_num) hbound hslot hside hprice (by omega) (by omega) huser hloc
    (by norm_num) rfl rfl rfl rfl
  rw [← hstrategy, ← hstp] at hpass
  have hc₁ : c₁.order.remaining = 0 := by rw [horder]
  obtain ⟨e', report, hsubmit, hreport⟩ := @submit_filled e
    (Order.limit (2 ^ 32 + 2) .buy 102 1) _ _ rfl c₁ nofun one_ne_zero hpass hc₁
  rw [htrades] at hreport
  refine ⟨e, outcomes, e', .submitted report, hrun, ?_, by decide, by rw [call, hsubmit]; rfl, ?_⟩
  · intro c hc
    rcases mem_append.mp hc with hc | hc
    · obtain ⟨i, hi, rfl⟩ := List.mem_map.mp hc
      have hlt := (mem_range'_1.mp hi).2
      exact ⟨show i + 1 < 2 ^ 64 by omega, show 0 < 2 ^ 32 by decide, show 0 < 2 ^ 64 by decide,
        (requotePrice_rests (by omega)).1, show 1 < 2 ^ 64 by decide, show 1 < 2 ^ 64 by decide,
        show 0 < 2 ^ 64 by decide⟩
    · simp only [mem_cons, not_mem_nil, or_false] at hc
      rcases hc with rfl | rfl <;> decide
  · rintro ⟨hprio, -⟩
    obtain ⟨e₁, order, c, earlier, hsub, hx, hdone, hp⟩ := hprio [] t [] hreport
    obtain ⟨hnil, rfl⟩ := append_eq_nil_iff.mp hdone
    cases hsub
    have hsame := Crossing.book_eq rfl hpass (by rw [htrades]; exact cons_ne_nil _ _) hc₁
      hx.crossing hnil
    -- order 2 is in the queue, and it arrived before order 1
    have hmem : o' ∈ c.book.queue .sell t.price := by
      rw [hsame, hpx, OrderBook.mem_queue]
      refine ⟨1, ?_, ?_, by omega⟩
      · rw [OrderBook.queueSlots, show (e.book.side .sell).level? 102 = _ from hbook.level?_eq 102,
          hlevel]
        exact mem_cons_of_mem _ mem_cons_self
      · rw [OrderPool.get, hbook.slots_eq, hslot']
    have htraded := hp.time o' hmem (by
      rw [hid', hmaker, hid]
      exact harrival)
    rw [hrem', traded_nil] at htraded
    cases htraded

end MatchingEngine

end TradeCore
