import TradeCore.Slab

/-!
# The Book Is Never Crossed

Which prices are occupied is decided by the two price-level indexes alone, whatever the
slots in their queues refer to. Every operation but an insertion only narrows the set of
occupied prices, and the crossing loop hands a remainder to the book only after the last
crossable price is gone.

## Main result

* `MatchingEngine.run_uncrossed` — after every sequence of calls, one side is empty or the
  best bid is below the best ask.
-/

namespace TradeCore

open Std

variable {order : Order} {s : Side} {p px : ℕ}

namespace OrderBook

/-- The price `p` of side `s` is occupied. -/
abbrev HasLevel (b : OrderBook) (s : Side) (p : ℕ) : Prop := (b.side s).Occupies p

variable {b b' : OrderBook}

/-- Thinning occupies no new price. -/
theorem Requeues.hasLevel (h : b.Requeues b') (hp : b'.HasLevel s p) :
    b.HasLevel s p := by
  obtain ⟨lv', hlv'⟩ := hp
  obtain ⟨lv, hlv, -⟩ := h.level s p lv' hlv'
  exact ⟨lv, hlv⟩

/-- The best price of a side is occupied. -/
theorem Tidy.hasLevel_best (h : b.Tidy) (hbest : b.best s = some px) :
    b.HasLevel s px := by
  have hb := bestOf_best h.index s
  rw [hbest] at hb
  exact hb.1

/-- An occupied price is a 64-bit value. -/
theorem Tidy.price_lt (h : b.Tidy) (hp : b.HasLevel s p) :
    p < 2 ^ 64 := by
  obtain ⟨lv, hlv⟩ := hp
  exact (h.index s).price_lt p lv hlv

/-- A side without a best price has no occupied price. -/
theorem Tidy.not_hasLevel_of_best_none (h : b.Tidy) (hbest : b.best s = none) (p : ℕ) :
    ¬ b.HasLevel s p := by
  have hb := bestOf_best h.index s
  rw [hbest] at hb
  exact hb p

/-- When an order cannot trade at the best price it cannot trade at all. -/
theorem Tidy.not_crossable_of_best (h : b.Tidy) (hbest : b.best order.side.opposite = some px)
    (hcross : crossable order px = false) (hp : b.HasLevel order.side.opposite p) :
    crossable order p = false := by
  have hb := bestOf_best h.index order.side.opposite
  rw [hbest] at hb
  have hle := hb.2 p hp
  unfold crossable at hcross ⊢
  cases hside : order.side <;> cases htype : order.orderType <;>
    simp [hside, htype, Side.opposite, Side.noWorse] at hle hcross ⊢ <;> omega

/-- No bid is at or above an ask. -/
def Uncrossed (b : OrderBook) : Prop :=
  ∀ p q, b.HasLevel .buy p → b.HasLevel .sell q → p < q

/-- Thinning keeps a book uncrossed. -/
theorem Uncrossed.requeues (h : b.Uncrossed) (hr : b.Requeues b') : b'.Uncrossed :=
  fun p q hp hq => h p q (hr.hasLevel hp) (hr.hasLevel hq)

/-- An order that cannot trade against what is left of the other side rests without
crossing the book. -/
theorem Uncrossed.insert (h : b.Uncrossed) (ht : b.Tidy) (hprice : order.price < 2 ^ 64)
    (htype : order.orderType = .limit)
    (hclear : ∀ p, b.HasLevel order.side.opposite p → crossable order p = false)
    (hi : b.insert order = some b') : b'.Uncrossed := by
  obtain ⟨-, hlevel, -⟩ := ht.insert hprice hi
  rintro p q ⟨lp, hp⟩ ⟨lq, hq⟩
  rcases hlevel .buy p lp hp with ⟨hside, rfl⟩ | hp'
  · rcases hlevel .sell q lq hq with ⟨hside', -⟩ | hq'
    · exact absurd (hside.trans hside'.symm) (by simp)
    · have hc := hclear q (hside ▸ ⟨lq, hq'⟩)
      simp only [crossable, htype, ← hside, decide_eq_false_iff_not] at hc
      omega
  · rcases hlevel .sell q lq hq with ⟨hside, rfl⟩ | hq'
    · have hc := hclear p (hside ▸ ⟨lp, hp'⟩)
      simp only [crossable, htype, ← hside, decide_eq_false_iff_not] at hc
      omega
    · exact h p q ⟨lp, hp'⟩ ⟨lq, hq'⟩

end OrderBook

/-! ### The crossing loop -/

section Crossing

variable {strategy : Strategy} {stp : SelfTradePolicy} {seq : ℕ} {c c' : Cross}

/-- The budget cannot bind: it covers the remaining quantity at the highest price. -/
def Cross.Unbudgeted (c : Cross) : Prop :=
  (2 ^ 64 - 1) * c.order.remaining ≤ c.budgetLeft

/-- An order that no budget binds can afford all its lots. -/
theorem Cross.Unbudgeted.affordable (h : c.Unbudgeted) (hpx : px < 2 ^ 64) :
    affordable c.budgetLeft c.order.remaining px = c.order.remaining :=
  affordable_of_le h hpx

/-- A turn keeps an unbudgeted order unbudgeted. -/
theorem Cross.Unbudgeted.pass {flow : Flow} (hu : c.Unbudgeted) (h : c.book.Tidy)
    (hpass : crossPass strategy stp seq c = some (flow, c')) : c'.Unbudgeted := by
  rcases crossPass_cases hpass with ⟨-, rfl, -⟩ | ⟨px, view, book, hbest, -, hlots, hview, hrest⟩
  · exact hu
  · have hv := h.levelViewFor hview
    rcases hrest with ⟨-, book', ids, -, -, rfl⟩ | ⟨-, -, -, rfl⟩ | ⟨-, -, -, rfl⟩ | ⟨-, hne, hfill⟩
    · exact hu
    · exact hu
    · exact hu
    · obtain ⟨book', -, -, rfl⟩ := crossFill_cases hv.pos hv.total hne hlots hfill
      have htotal := @allocate_total strategy view
        (TradeCore.affordable c.budgetLeft c.order.remaining px) (fun _ => hv.total) hv.pos
      have hpx := h.price_lt (h.hasLevel_best hbest)
      rw [hu.affordable hpx] at htotal
      simp only [Cross.Unbudgeted, Cross.filled, hu.affordable hpx] at hu ⊢
      have hcost : px * allocated (strategy.allocate view c.order.remaining) ≤
          (2 ^ 64 - 1) * allocated (strategy.allocate view c.order.remaining) :=
        Nat.mul_le_mul_right _ (by omega)
      rw [Nat.mul_sub]
      omega

/-- The loop ends on an unbudgeted order with something left only when no price is crossable. -/
theorem crossLoop_clear {n : ℕ} (h : c.book.Charted) (hu : c.Unbudgeted)
    (hloop : crossLoop strategy stp seq n c = some (c', false)) (hrem : 0 < c'.order.remaining)
    (hp : c'.book.HasLevel c'.order.side.opposite p) : crossable c'.order p = false := by
  obtain ⟨-, ⟨-, hz⟩ | ⟨c₁, hrem₁, ⟨hc₁, hu₁⟩, ⟨-, hpass⟩ | ⟨hc, -⟩⟩⟩ := crossLoop_induction
    (P := fun c₁ => c₁.book.Charted ∧ c₁.Unbudgeted)
    (fun c₁ flow c₂ _ hc₁ hpass => ⟨hc₁.1.wears
      ((crossPass_crosses hc₁.1 hpass).elim fun _ hc => hc.elim fun _ hc => hc.thins.wears),
      hc₁.2.pass hc₁.1.tidy hpass⟩) ⟨h, hu⟩ hloop
  · omega
  · have ht := hc₁.tidy
    rcases crossPass_cases hpass with ⟨-, rfl, hexit⟩ | ⟨px, view, book, -, -, hlots, hview, hrest⟩
    · rcases hexit with hnone | ⟨px, hbest, hcross | hlots⟩
      · exact absurd hp (ht.not_hasLevel_of_best_none hnone p)
      · exact ht.not_crossable_of_best hbest hcross hp
      · rw [hu₁.affordable (ht.price_lt (ht.hasLevel_best hbest))] at hlots
        omega
    · -- the other turns do not end the loop
      have hv := ht.levelViewFor hview
      rcases hrest with ⟨-, book', ids, -, hflow, -⟩ | ⟨-, -, hflow, -⟩ | ⟨-, -, hflow, -⟩ |
        ⟨-, hne, hfill⟩
      · rcases hflow with ⟨-, hflow⟩ | ⟨-, hflow⟩ <;> cases hflow
      · cases hflow
      · cases hflow
      · obtain ⟨book', -, hflow, -⟩ := crossFill_cases hv.pos hv.total hne hlots hfill
        cases hflow
  · cases hc

end Crossing

/-! ### The engine's calls -/

namespace MatchingEngine

variable {e e' : MatchingEngine}

/-- **Submitting** keeps the book uncrossed. -/
theorem submit_uncrossed (ht : e.book.Charted) (hu : e.book.Uncrossed)
    (hprice : order.price < 2 ^ 64) (hqty : order.quantity < 2 ^ 64) {report : SubmitReport}
    (h : e.submit order = some (e', report)) : e'.book.Uncrossed := by
  rcases submit_eq_some h with ⟨rfl, -⟩ | ⟨order', budget, c, stopped, hbudget, -, hcross, -, -, -,
    hend⟩
  · exact hu
  · obtain ⟨own, later, hc⟩ := crossLoop_crosses (c := ⟨e.book, order', [], budget, []⟩) ht hcross
    have hc' := hu.requeues hc.thins.toRequeues
    rcases hend with ⟨rfl, -⟩ | ⟨rfl, hrem, htype, htif, ⟨book, hins, rfl⟩, -⟩
    · exact hc'
    · -- the remainder rests: it was good-till-cancel all along, so no budget bound it
      have hsame : SameOrder order' c.order := hc.same
      have htif' : order'.tif = .gtc := by
        rw [hsame] at htif
        exact htif
      obtain ⟨price, tif, -, -, hgtc⟩ := applyBudget_eq_some hbudget
      obtain ⟨rfl, rfl⟩ := hgtc htif'
      have hunb : Cross.Unbudgeted
          ⟨e.book, { order with timestamp := e.stamp.seq, remaining := order.quantity }, [],
            2 ^ 128 - 1, []⟩ :=
        calc (2 ^ 64 - 1) * order.quantity ≤ (2 ^ 64 - 1) * (2 ^ 64 - 1) :=
              Nat.mul_le_mul_left _ (by omega)
          _ ≤ 2 ^ 128 - 1 := by norm_num
      refine hc'.insert hc.thins.tidy ?_ htype
        (fun p hp => crossLoop_clear ht hunb hcross hrem hp) hins
      rw [hsame]
      exact hprice

/-- **One call** keeps the book uncrossed. -/
theorem call_uncrossed (ht : e.book.Charted) (hu : e.book.Uncrossed) {ω : HashOrder} {c : Call}
    (hc : c.InRange) {outcome : Outcome} (h : e.call ω c = some (e', outcome)) :
    e'.book.Uncrossed := by
  rcases call_cases ht.tidy hc h with ⟨ids, hthins, -⟩ |
    ⟨b, ids, order, report, hthins, hprice, hqty, hs⟩
  · exact hu.requeues hthins.toRequeues
  · exact submit_uncrossed (ht.wears hthins.wears) (hu.requeues hthins.toRequeues) hprice hqty hs

/-- **The book is never crossed or locked.** Whatever the strategy, the self-trade policy
and the calls, when both sides have a best price the bid is below the ask. -/
theorem run_uncrossed (strategy : Strategy) (stp : SelfTradePolicy) (maxOrders : ℕ)
    (prefault : Bool) (calls : List (HashOrder × Call)) (hin : ∀ c ∈ calls, c.2.InRange)
    (e : MatchingEngine) (outcomes : List Outcome)
    (h : (fresh strategy stp maxOrders prefault).run calls = some (e, outcomes)) (bid ask : ℕ)
    (hbid : e.book.best .buy = some bid) (hask : e.book.best .sell = some ask) : bid < ask := by
  have hu : (fresh strategy stp maxOrders prefault).book.Uncrossed := by
    rintro p q ⟨lv, hlv⟩ -
    have hnone := OrderBook.withCapacity_level? maxOrders prefault .buy p
    exact absurd (hnone.symm.trans hlv) (by simp)
  obtain ⟨hc', hu'⟩ := run_induction (P := fun e => e.book.Charted ∧ e.book.Uncrossed)
    (fun _ _ _ _ _ hc h hcall => ⟨(call_charted h.1 hc hcall).1, call_uncrossed h.1 h.2 hc hcall⟩)
    ⟨OrderBook.charted_withCapacity maxOrders prefault, hu⟩ hin h
  exact hu' bid ask (hc'.tidy.hasLevel_best hbid) (hc'.tidy.hasLevel_best hask)

/-- A run that trades through an ask, rests the remainder as the best bid and meets a new
ask. -/
theorem run_uncrossed_smallRun : ∃ e outcomes,
    (fresh .proRata .cancelMaker 2 true).run
      [(1, .submit (Order.limit 1 .sell 101 5)), (1, .submit (Order.limit 2 .buy 99 3)),
        (1, .submit (Order.limit 3 .buy 102 7)), (1, .submit (Order.limit 4 .sell 110 1)),
        (1, .modify 4 105 2)] = some (e, outcomes) ∧
      e.book.best .buy = some 102 ∧ e.book.best .sell = some 105 ∧ 102 < 105 := by
  have hbest : ((fresh .proRata .cancelMaker 2 true).run
      [(1, .submit (Order.limit 1 .sell 101 5)), (1, .submit (Order.limit 2 .buy 99 3)),
        (1, .submit (Order.limit 3 .buy 102 7)), (1, .submit (Order.limit 4 .sell 110 1)),
        (1, .modify 4 105 2)]).map (fun r => (r.1.book.best .buy, r.1.book.best .sell)) =
      some (some 102, some 105) := by decide +kernel
  obtain ⟨⟨e, outcomes⟩, hrun, hbests⟩ := Option.map_eq_some_iff.mp hbest
  simp only [Prod.mk.injEq] at hbests
  exact ⟨e, outcomes, hrun, hbests.1, hbests.2,
    run_uncrossed _ _ _ _ _ (by decide) e outcomes hrun 102 105 hbests.1 hbests.2⟩

end MatchingEngine

end TradeCore
