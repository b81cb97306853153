import TradeCore.FillOrKill

/-!
# Budget Orders

The price field of a budget order carries a total. A sell asks for at least that much: the code
turns it into an immediate order at the implied floor, the total divided by the quantity and
rounded up. A buy pays at most that much: it crosses at any price while its spending fits.

The implied floor is computed in wrapping arithmetic, and a market order does not look at it. A buy
without a budget does not take a lot that costs nothing.

## Main results

* `MatchingEngine.budgetSell_iff` — when a budget sell keeps to its floor.
* `MatchingEngine.budgetBuy_iff` — when a budget buy takes what its budget covers.
-/

open List Option

namespace TradeCore

variable {left lots : ℕ} {φ : ℕ → Bool}

variable {trades : List Trade} {order : Order}

/-! ### Money and lots -/

/-- What trades are worth. -/
def notional (trades : List Trade) : ℕ := (trades.map fun t => t.price * t.quantity).sum

/-- The lots of the trades at the prices that satisfy `φ`. -/
def tally (φ : ℕ → Bool) (trades : List Trade) : ℕ :=
  (trades.map fun t => if φ t.price then t.quantity else 0).sum

theorem notional_append (trades trades' : List Trade) :
    notional (trades ++ trades') = notional trades + notional trades' := by
  rw [notional, map_append, sum_append]
  rfl

theorem tally_append (φ : ℕ → Bool) (trades trades' : List Trade) :
    tally φ (trades ++ trades') = tally φ trades + tally φ trades' := by
  rw [tally, map_append, sum_append]
  rfl

/-- The trades of a level are at its price. -/
theorem notional_map_tradeOf (seq px : ℕ) (order : Order) (view : List RestingOrder)
    (allocs : List Allocation) :
    notional (allocs.map (tradeOf seq order px view)) = px * allocated allocs := by
  rw [notional, allocated, List.map_map, ← sum_map_mul_left]
  rfl

theorem tally_map_tradeOf (φ : ℕ → Bool) (seq px : ℕ) (order : Order) (view : List RestingOrder)
    (allocs : List Allocation) :
    tally φ (allocs.map (tradeOf seq order px view)) = if φ px then allocated allocs else 0 := by
  rw [tally, List.map_map]
  cases hpx : φ px with
  | true =>
    rw [if_pos rfl, allocated]
    exact congrArg List.sum (map_congr_left fun a _ => if_pos hpx)
  | false =>
    rw [if_neg Bool.false_ne_true]
    refine sum_eq_zero fun x hx => ?_
    obtain ⟨a, -, rfl⟩ := List.mem_map.mp hx
    exact if_neg (by simp [tradeOf, hpx])

/-- Trades at such prices only. -/
theorem tally_eq (h : ∀ t ∈ trades, φ t.price = true) :
    tally φ trades = (trades.map Trade.quantity).sum :=
  congrArg List.sum (map_congr_left fun t ht => if_pos (h t ht))

/-- A trade at another price counts for nothing. -/
theorem tally_lt {t : Trade} (ht : t ∈ trades) (hφ : φ t.price = false) (hpos : 0 < t.quantity) :
    tally φ trades < (trades.map Trade.quantity).sum := by
  refine sum_lt_sum _ _ (fun t _ => ?_) ⟨t, ht, ?_⟩
  · split
    · exact le_rfl
    · exact Nat.zero_le _
  · rw [if_neg (by simp [hφ])]
    exact hpos

/-- Trades at a price or above are worth at least that price. -/
theorem mul_le_notional {floor : ℕ} (h : ∀ t ∈ trades, floor ≤ t.price) :
    (trades.map Trade.quantity).sum * floor ≤ notional trades := by
  rw [notional, mul_comm, ← sum_map_mul_left]
  exact sum_le_sum fun t ht => Nat.mul_le_mul_right _ (h t ht)

namespace NaiveCross

variable {strategy : Strategy} {seq : ℕ}

/-- The lots that trades took of a class of prices are those that its levels lost. -/
structure Tallied (φ : ℕ → Bool) (had : ℕ) (n : NaiveCross) : Prop where
  counted : tally φ n.trades + lotsOf (atPrice φ) (n.book n.order.side.opposite).rungs = had
  positive : ∀ t ∈ n.trades, 0 < t.quantity

/-- **Every turn** without self-trade prevention keeps the tally. -/
theorem Tallied.turn {had : ℕ} {n n' : NaiveCross} {flow : Flow} (h : n.Tallied φ had)
    (hr : n.book.Realized) (hturn : n.Turn strategy .allow seq flow n') :
    n'.Tallied φ had := by
  obtain rfl | ⟨hstp, -⟩ | ⟨px, lots, q, view, allocs, ht, rfl⟩ := hturn.effect
  · exact h
  · exact absurd rfl hstp
  · have hprice : ∀ o ∈ q, atPrice φ o = φ px := fun o ho =>
      congrArg φ (hr.of_mem_rungs (mem_of_head? ht.best) ho).2
    refine ⟨?_, fun t hmem => ?_⟩
    · have hcounted := h.counted
      change tally φ (n.trades ++ allocs.map (tradeOf seq n.order px view)) +
        lotsOf (atPrice φ) ((n.fill seq px view allocs).book n.order.side.opposite).rungs = had
      rw [tally_append, tally_map_tradeOf]
      cases hpx : φ px with
      | true =>
        have hfill := ht.lotsOf_fill hr seq (stable_atPrice φ) fun o ho _ =>
          (hprice o ho).trans hpx
        rw [if_pos rfl]
        omega
      | false =>
        have hfill := ht.lotsOf_fill_other hr seq (stable_atPrice φ) fun o ho =>
          (hprice o ho).trans hpx
        rw [if_neg Bool.false_ne_true]
        omega
    · rcases mem_append.mp hmem with hmem | hmem
      · exact h.positive t hmem
      · obtain ⟨a, ha, rfl⟩ := List.mem_map.mp hmem
        exact (ht.of_mem hr ha).1

/-- **Without self-trade prevention** an order that no budget binds takes what it may trade with,
or what it wants. -/
theorem loop_allow {order : Order} {wanted had : ℕ} {n : NaiveCross}
    (h : n.Trading order (atPrice (crossable order)) wanted had) (hr : n.book.Realized) {k : ℕ}
    (hk : n.measure < k) :
    (n.loop strategy .allow seq k).1.order.remaining = wanted - had := by
  have hstep : ∀ n n' : NaiveCross, n.book.Realized → n.order.remaining ≠ 0 →
      n.Trading order (atPrice (crossable order)) wanted had →
      n.Turn strategy .allow seq .continue n' →
      n'.Trading order (atPrice (crossable order)) wanted had := by
    intro n n' hn hrem hc hturn
    cases hturn with
    | pulled _ _ _ hown => exact absurd rfl hown.1
    | traded ht hown =>
      refine hc.fill hn (stable_atPrice _) ht fun o ho _ => ?_
      rw [atPrice, (hn.of_mem_rungs (mem_of_head? ht.best) ho).2, ← hc.same.crossable_eq]
      exact ht.crosses
  obtain ⟨m, m', stopped, hloop, hm, hc, hend⟩ := loop_rule hstep hr h hk
  rw [hloop]
  rcases hend with ⟨hrem, rfl, -⟩ | ⟨hrem, ⟨hturn, -⟩ | ⟨hturn, -⟩⟩
  · have hbal := hc.balance
    simp only
    omega
  · obtain ⟨rfl, hbal⟩ := hc.of_break hm hrem (fun o ho => ho) hturn
    simp only
    omega
  · cases hturn with
    | stopped _ _ _ hown => exact absurd rfl hown.1

end NaiveCross

namespace NaiveEngine

variable {n : NaiveEngine} {order : Order}

/-- What is left of an immediate order. -/
theorem cross_allow (hr : n.book.Realized) (hstp : n.stp = .allow)
    (hqty : order.remaining < 2 ^ 64) :
    (n.cross order (2 ^ 128 - 1)).1.order.remaining =
      order.remaining - lotsOf (atPrice (crossable order)) (n.book order.side.opposite).rungs := by
  have hbudget : (2 ^ 64 - 1) * order.remaining ≤ 2 ^ 128 - 1 := by omega
  rw [NaiveEngine.cross, hstp]
  generalize hc : NaiveCross.mk n.book order [] (2 ^ 128 - 1) n.stpCancelled = c
  have htrading : c.Trading order (atPrice (crossable order)) order.remaining
      (lotsOf (atPrice (crossable order)) (n.book order.side.opposite).rungs) := by
    rw [← hc]
    exact ⟨rfl, hbudget, add_comm _ _⟩
  have hreal : c.book.Realized := by
    rw [← hc]
    exact hr
  exact NaiveCross.loop_allow htrading hreal (lt_add_one _)

/-- The trades of a crossing are in the order of their prices, and leave no better price behind. -/
theorem cross_sweeping (hr : n.book.Realized) (order : Order) (budget : ℕ) :
    (n.cross order budget).1.Sweeping ∧ (n.cross order budget).1.book.Realized := by
  refine (NaiveCross.loop_induction (fun _ _ _ _ h => h.turn) hr ?_ _).imp_right And.left
  exact ⟨nofun, Pairwise.nil, nofun⟩

/-- The trades of a crossing take what the levels lose. -/
theorem cross_tallied (hr : n.book.Realized) (hstp : n.stp = .allow) (φ : ℕ → Bool) (order : Order)
    (budget : ℕ) : (n.cross order budget).1.Tallied φ
      (lotsOf (atPrice φ) (n.book order.side.opposite).rungs) := by
  rw [NaiveEngine.cross, hstp]
  refine (NaiveCross.loop_induction (fun _ _ _ hr' h => h.turn hr') hr ?_ _).1
  exact ⟨zero_add _, fun t hmem => absurd hmem not_mem_nil⟩

/-- **The trades of a sell keep to a price** exactly if they take no more than the bids at that
price or above. -/
theorem cross_floor_iff (hr : n.book.Realized) (hstp : n.stp = .allow) (hside : order.side = .sell)
    (budget floor : ℕ) :
    (∀ t ∈ (n.cross order budget).1.trades, floor ≤ t.price) ↔
      ((n.cross order budget).1.trades.map Trade.quantity).sum ≤
        lotsOf (atPrice (reaches .sell floor)) (n.book .buy).rungs := by
  have htally := cross_tallied hr hstp (reaches .sell floor) order budget
  obtain ⟨hsweep, hreal⟩ := cross_sweeping hr order budget
  have hside' : (n.cross order budget).1.order.side = .sell := by
    rw [(n.cross_order order budget).1]
    exact hside
  have hcounted := htally.counted
  rw [hside', hside] at hcounted
  constructor
  · intro h
    have hall : ∀ t ∈ (n.cross order budget).1.trades, reaches .sell floor t.price = true :=
      fun t ht => decide_eq_true (h t ht)
    rw [← tally_eq hall]
    exact Nat.le_of_add_right_le (le_of_eq hcounted)
  · intro h t ht
    by_contra hlt
    -- no bid at the floor or above is left behind a trade below it
    have hnone : lotsOf (atPrice (reaches .sell floor))
        ((n.cross order budget).1.book .buy).rungs = 0 := by
      refine lotsOf_eq_zero fun e he o ho => ?_
      have hqueue := (Ladder.mem_rungs.mp (show (e.1, e.2) ∈ _ from he)).1
      have hmem : o ∈ (n.cross order budget).1.book.queue .buy e.1 := by
        rw [NaiveBook.queue, hqueue]
        exact ho
      have hbehind := hsweep.behind t ht e.1 o (by rw [hside']; exact hmem)
      rw [hside'] at hbehind
      rw [atPrice, (hreal.of_mem_rungs he ho).2]
      refine decide_eq_false fun hle => hbehind ?_
      change t.price < e.1
      omega
    have htally_lt := tally_lt (φ := reaches .sell floor) ht (decide_eq_false hlt)
      (htally.positive t ht)
    rw [Side.opposite] at hcounted
    omega

end NaiveEngine

/-! ### Budget sells -/

/-- The price that a total asks of every lot. -/
def impliedFloor (order : Order) : ℕ := (order.price + order.quantity - 1) / order.quantity

/-- The floor with the sum cut to 64 bits. -/
def wrappedFloor (order : Order) : ℕ :=
  (order.price + order.quantity - 1) % 2 ^ 64 / order.quantity

/-- The bids that a budget sell may trade with: a market order that need not fill takes any, all
others take those at the wrapped floor or above. -/
def sellReach (order : Order) (bids : List (ℕ × List Order)) : ℕ :=
  if order.orderType = .market ∧ order.tif = .iocBudget then lotsOf (fun _ => true) bids
  else lotsOf (atPrice (reaches .sell (wrappedFloor order))) bids

/-- A budget sell gets what it asks for: every lot at the implied floor or above, and all lots or
none where it must fill. -/
structure BudgetSell (before after : Side → ℕ → List Order) (order : Order)
    (report : SubmitReport) : Prop where
  floor : ∀ t ∈ report.trades, impliedFloor order ≤ t.price
  proceeds : report.filled * impliedFloor order ≤ notional report.trades
  fok : order.tif = .fokBudget →
    report.status = .filled ∧ report.filled = order.quantity ∧
      order.price ≤ notional report.trades ∨
      report.status = .rejected ∧ report.trades = [] ∧ after = before

/-- When a budget sell keeps to its floor: the sum does not wrap and the floor is looked at, the
order is killed, or it takes no more than the bids at the floor or above. -/
def KeepsFloor (order : Order) (bids : List (ℕ × List Order)) : Prop :=
  order.price + order.quantity ≤ 2 ^ 64 ∧ (order.orderType = .limit ∨ order.tif = .fokBudget) ∨
    order.tif = .fokBudget ∧ sellReach order bids < order.quantity ∨
    min order.quantity (sellReach order bids) ≤
      lotsOf (atPrice (reaches .sell (impliedFloor order))) bids

theorem budgetFloor_eq (hqty : 0 < order.quantity) (hlt : order.quantity < 2 ^ 64) :
    MatchingEngine.budgetFloor order.price order.quantity = wrappedFloor order := by
  have hsum : wrappingSub 64 (wrappingAdd 64 order.price order.quantity) 1 =
      (order.price + order.quantity - 1) % 2 ^ 64 := by
    rw [wrappingSub, wrappingAdd]
    omega
  rw [MatchingEngine.budgetFloor, wrappedFloor, Nat.max_eq_left hqty, hsum]

/-- A sum that does not wrap gives the implied floor. -/
theorem wrappedFloor_eq (h : order.price + order.quantity ≤ 2 ^ 64) :
    wrappedFloor order = impliedFloor order := by
  rw [wrappedFloor, impliedFloor, Nat.mod_eq_of_lt (by omega)]

/-- The implied floor brings in the total. -/
theorem le_mul_impliedFloor (hqty : 0 < order.quantity) :
    order.price ≤ order.quantity * impliedFloor order := by
  have hdiv := Nat.div_add_mod (order.price + order.quantity - 1) order.quantity
  have hmod := Nat.mod_lt (order.price + order.quantity - 1) hqty
  rw [impliedFloor]
  omega

namespace NaiveEngine

variable {order : Order}

/-- The order that a budget sell becomes. -/
def floored (n : NaiveEngine) (order : Order) : Order :=
  { n.stampOrder order with
    price := wrappedFloor order
    tif := if order.tif = .fokBudget then .fok else .ioc }

theorem floored_ne_gtc (n : NaiveEngine) (order : Order) : (n.floored order).tif ≠ .gtc := by
  unfold floored
  split <;> simp

/-- The bids that the precheck of a sell counts. -/
theorem sellReach_fok {n : NaiveEngine} (hr : n.book.Realized) (htif : order.tif = .fokBudget) :
    sellReach order (n.book .buy).rungs =
      n.book.crossableQty .sell (wrappedFloor order) := by
  rw [hr.crossableQty_eq, sellReach, if_neg (by simp [htif])]
  rfl

/-- The bids that an immediate sell crosses. -/
theorem sellReach_eq (n : NaiveEngine) (hside : order.side = .sell) (htif : order.tif = .iocBudget)
    (bids : List (ℕ × List Order)) :
    lotsOf (atPrice (crossable (n.floored order))) bids = sellReach order bids := by
  have hcross : ∀ o, atPrice (crossable (n.floored order)) o =
      (order.orderType == .market || atPrice (reaches .sell (wrappedFloor order)) o) := by
    intro o
    rw [atPrice, crossable_eq, ← hside]
    rfl
  rw [funext hcross, sellReach]
  cases order.orderType with
  | market => rw [if_pos ⟨rfl, htif⟩]; rfl
  | limit => rw [if_neg (by simp)]; rfl

section

variable (n : NaiveEngine) (hside : order.side = .sell)
  (htif : order.tif = .iocBudget ∨ order.tif = .fokBudget) (hlt : order.quantity < 2 ^ 64)
include htif

theorem floored_fok : (n.floored order).tif = .fok ↔ order.tif = .fokBudget := by
  rcases htif with htif | htif <;> simp [floored, htif]

include hside hlt

theorem applyBudget_sell (hqty : 0 < order.quantity) :
    n.stamped.applyBudget (n.stampOrder order) = some (n.floored order, 2 ^ 128 - 1) := by
  have hfloor := budgetFloor_eq hqty hlt
  rcases htif with htif | htif <;>
    simp [applyBudget, stampOrder, floored, htif, hside, hfloor]

/-- What a budget sell that is not killed trades. -/
theorem sum_budgetSell (hr : n.book.Realized) (hstp : n.stp = .allow)
    (hshort : ¬ n.stamped.FokShort (n.floored order)) :
    ((n.stamped.cross (n.floored order) (2 ^ 128 - 1)).1.trades.map Trade.quantity).sum =
      min order.quantity (sellReach order (n.book .buy).rungs) := by
  have hopposite : (n.floored order).side.opposite = .buy := congrArg Side.opposite hside
  have hfilled := (n.stamped.cross_conserving hr rfl (n.floored order) (2 ^ 128 - 1)).filled
  change _ + _ = order.quantity at hfilled
  rcases htif with htif | htif
  · have hleft := @cross_allow n.stamped (n.floored order) hr hstp hlt
    rw [hopposite] at hleft
    change _ = order.quantity - lotsOf _ (n.book .buy).rungs at hleft
    rw [n.sellReach_eq hside htif] at hleft
    omega
  · have hreach := sellReach_fok hr htif
    have hcov : order.quantity ≤ n.book.crossableQty .sell (wrappedFloor order) := by
      by_contra hlt
      refine hshort ⟨(n.floored_fok (Or.inr htif)).mpr htif, ?_⟩
      change n.book.crossableQty (n.floored order).side (wrappedFloor order) < order.quantity
      rw [show (n.floored order).side = .sell from hside]
      exact Nat.lt_of_not_le hlt
    have hzero := (@cross_remaining n.stamped hr (n.floored order) hlt (by
      change order.quantity ≤ n.book.crossableQty order.side (wrappedFloor order)
      rw [hside]
      exact hcov)).mpr (.inl fun hown => hown.prevented.1 hstp)
    omega

/-- **A budget sell of the reference** keeps to its floor exactly if the bids let it. -/
theorem submit_budgetSell_iff (hqty : 0 < order.quantity) (hr : n.book.Realized)
    (hstp : n.stp = .allow) :
    BudgetSell n.book.queue (n.submit order).1.book.queue order (n.submit order).2 ↔
      KeepsFloor order (n.book .buy).rungs := by
  have hsubmit := n.submit_eq (n.applyBudget_sell hside htif hlt hqty)
  have hc := n.submit_conserves hr order
  have hfok := n.floored_fok htif
  by_cases hshort : n.stamped.FokShort (n.floored order)
  · rw [hsubmit, if_pos hshort]
    refine iff_of_true ⟨fun t ht => absurd ht not_mem_nil, ?_, fun _ => .inr ⟨rfl, rfl, rfl⟩⟩
      (.inr (.inl ⟨hfok.mp hshort.1, ?_⟩))
    · rw [show (n.stamped.reject order).2.filled = 0 from rfl, zero_mul]
      exact Nat.zero_le _
    · have hlt' := hshort.2
      change n.book.crossableQty order.side (wrappedFloor order) < order.quantity at hlt'
      rw [sellReach_fok hr (hfok.mp hshort.1), ← hside]
      exact hlt'
  · rw [if_neg hshort] at hsubmit
    have hsum := n.sum_budgetSell hside htif hlt hr hstp hshort
    have hfloor := @cross_floor_iff n.stamped (n.floored order) hr hstp hside (2 ^ 128 - 1)
      (impliedFloor order)
    have htrades : (n.submit order).2.trades =
        (n.stamped.cross (n.floored order) (2 ^ 128 - 1)).1.trades := by
      rw [hsubmit]
      rfl
    rw [← htrades, ← hc.filled_eq] at hsum hfloor
    change _ ↔ _ ≤ lotsOf _ (n.book .buy).rungs at hfloor
    have henough : order.tif = .fokBudget →
        order.quantity ≤ sellReach order (n.book .buy).rungs := by
      intro htif
      rw [sellReach_fok hr htif, ← hside]
      by_contra hlt
      exact hshort ⟨hfok.mpr htif, Nat.lt_of_not_le hlt⟩
    have hsell : BudgetSell n.book.queue (n.submit order).1.book.queue order (n.submit order).2 ↔
        (n.submit order).2.filled ≤
          lotsOf (atPrice (reaches .sell (impliedFloor order))) (n.book .buy).rungs := by
      refine ⟨fun h => hfloor.mp h.floor, fun h => ?_⟩
      have hproceeds : (n.submit order).2.filled * impliedFloor order ≤
          notional (n.submit order).2.trades := by
        rw [hc.filled_eq]
        exact mul_le_notional (hfloor.mpr h)
      refine ⟨hfloor.mpr h, hproceeds, fun htif => .inl ?_⟩
      have hfilled : (n.submit order).2.filled = order.quantity := by
        rw [hsum]
        exact Nat.min_eq_left (henough htif)
      refine ⟨(hc.filled_iff ?_).mpr hfilled, hfilled, ?_⟩
      · rw [hsubmit]
        exact (n.stamped.crossed_status _ le_rfl).1
      · rw [hfilled] at hproceeds
        exact (le_mul_impliedFloor hqty).trans hproceeds
    rw [hsell, hsum, KeepsFloor]
    refine ⟨fun h => .inr (Or.inr h), ?_⟩
    rintro (⟨hwrap, hlooks⟩ | ⟨htif, hlt⟩ | h)
    · have hsame : sellReach order (n.book .buy).rungs =
          lotsOf (atPrice (reaches .sell (impliedFloor order))) (n.book .buy).rungs := by
        rw [sellReach, wrappedFloor_eq hwrap, if_neg]
        rintro ⟨htype, htif⟩
        rw [htype, htif] at hlooks
        simp at hlooks
      rw [hsame]
      exact Nat.min_le_right _ _
    · exact absurd (henough htif) (Nat.not_le.mpr hlt)
    · exact h

/-- What the machine integers ask of a budget sell: the precheck of one that must fill does not
overflow. -/
theorem admits_budgetSell (hqty : 0 < order.quantity) (hr : n.book.Realized) :
    n.Admits order ↔ (order.tif = .fokBudget → sellReach order (n.book .buy).rungs < 2 ^ 64) := by
  rw [admits_iff (n.applyBudget_sell hside htif hlt hqty) (n.floored_ne_gtc order),
    n.floored_fok htif]
  refine forall_congr' fun htif => ?_
  rw [sellReach_fok hr htif, show (n.floored order).side = .sell from hside]
  rfl

end

end NaiveEngine

namespace MatchingEngine

/-- **Budget sells.** In every engine that a run reaches with room in its slab before each call and
without self-trade prevention, a budget sell gets what it asks for exactly if the bids that it must
fill from fit in 64 bits and `KeepsFloor` holds of the book before. -/
theorem budgetSell_iff (strategy : Strategy) (maxOrders : ℕ) (prefault : Bool)
    (calls : List (HashOrder × Call)) (hin : ∀ c ∈ calls, c.2.InRange)
    (hroomy : (fresh strategy .allow maxOrders prefault).Roomy calls) (e : MatchingEngine)
    (outcomes : List Outcome)
    (hrun : (fresh strategy .allow maxOrders prefault).run calls = some (e, outcomes))
    (order : Order) (horder : order.InRange) (hside : order.side = .sell)
    (htif : order.tif = .iocBudget ∨ order.tif = .fokBudget) (hqty : 1 ≤ order.quantity) :
    (∃ e' report, e.submit order = some (e', report) ∧
      BudgetSell e.book.queue e'.book.queue order report) ↔
      (order.tif = .fokBudget → sellReach order (e.book.rungs .buy) < 2 ^ 64) ∧
        KeepsFloor order (e.book.rungs .buy) := by
  obtain ⟨n, hn, -, hstp⟩ := exists_refines strategy .allow maxOrders prefault hin hroomy hrun
  have hreal : n.book.Realized := ⟨e.book, hn.book⟩
  rw [hn.book.rungs, ← n.admits_budgetSell hside htif horder.quantity hqty hreal,
    ← n.submit_budgetSell_iff hside htif horder.quantity hqty hreal hstp]
  exact hn.submit_iff horder (by rcases htif with h | h <;> simp [h])
    fun before after report => BudgetSell before after order report

/-- A sell of ten lots for 950 in total takes the bid at 100 and leaves the one at 90. -/
theorem budgetSell_iff_floor95 : ∃ e outcomes e' report,
    (fresh .priceTimePriority .allow 4 true).run
      [(1, .submit (Order.limit 1 .buy 100 5)), (1, .submit (Order.limit 2 .buy 90 5))] =
        some (e, outcomes) ∧
      e.submit ((Order.limit 9 .sell 950 10).withTif .iocBudget) = some (e', report) ∧
      BudgetSell e.book.queue e'.book.queue ((Order.limit 9 .sell 950 10).withTif .iocBudget)
        report := by
  have hrun : ((fresh .priceTimePriority .allow 4 true).run
      [(1, .submit (Order.limit 1 .buy 100 5)), (1, .submit (Order.limit 2 .buy 90 5))]).isSome =
        true := by decide +kernel
  obtain ⟨⟨e, outcomes⟩, hrun⟩ := isSome_iff_exists.mp hrun
  obtain ⟨e', report, hsubmit, hsell⟩ := (budgetSell_iff .priceTimePriority 4 true _ (by decide)
    (roomy_of_length (by decide) (by decide)) e outcomes hrun
    ((Order.limit 9 .sell 950 10).withTif .iocBudget)
    (by decide) rfl (.inl rfl) (by decide)).mpr
    ⟨fun h => absurd h (by decide), .inl ⟨by decide, .inl rfl⟩⟩
  exact ⟨e, outcomes, e', report, hrun, hsubmit, hsell⟩

/-- Two lots for `2 ^ 64 - 1` in total: the floor wraps to 0, and the order that must fill at
`2 ^ 63` or above is filled at 5. Two lots for 20 in total at the market: they are sold at 5. -/
theorem budgetSell_below_floor : ∃ e outcomes,
    (fresh .priceTimePriority .allow 4 true).run [(1, .submit (Order.limit 1 .buy 5 2))] =
      some (e, outcomes) ∧
    (∃ e' report,
      e.submit ((Order.limit 9 .sell (2 ^ 64 - 1) 2).withTif .fokBudget) = some (e', report) ∧
      impliedFloor ((Order.limit 9 .sell (2 ^ 64 - 1) 2).withTif .fokBudget) = 2 ^ 63 ∧
      report.trades.map Trade.price = [5] ∧ notional report.trades = 10) ∧
    ∃ e' report,
      e.submit { Order.market 9 .sell 2 with tif := .iocBudget, price := 20 } = some (e', report) ∧
      impliedFloor { Order.market 9 .sell 2 with tif := .iocBudget, price := 20 } = 10 ∧
      report.trades.map Trade.price = [5] := by
  have hrun : ((fresh .priceTimePriority .allow 4 true).run
      [(1, .submit (Order.limit 1 .buy 5 2))]).map (fun r =>
        ((r.1.submit ((Order.limit 9 .sell (2 ^ 64 - 1) 2).withTif .fokBudget)).map fun r' =>
          (r'.2.trades.map Trade.price, notional r'.2.trades),
        (r.1.submit { Order.market 9 .sell 2 with tif := .iocBudget, price := 20 }).map fun r' =>
          r'.2.trades.map Trade.price)) = some (some ([5], 10), some [5]) := by decide +kernel
  obtain ⟨⟨e, outcomes⟩, hrun, hres⟩ := map_eq_some_iff.mp hrun
  obtain ⟨hfok, hmarket⟩ := Prod.mk.inj hres
  obtain ⟨⟨e₁, report₁⟩, hsubmit₁, hreport₁⟩ := map_eq_some_iff.mp hfok
  obtain ⟨⟨e₂, report₂⟩, hsubmit₂, hreport₂⟩ := map_eq_some_iff.mp hmarket
  obtain ⟨hprice, hworth⟩ := Prod.mk.inj hreport₁
  exact ⟨e, outcomes, hrun, ⟨e₁, report₁, hsubmit₁, by decide, hprice, hworth⟩,
    e₂, report₂, hsubmit₂, by decide, hreport₂⟩

end MatchingEngine

/-! ### Budget buys -/

/-- The lots that cost nothing. -/
def freeLots (asks : List (ℕ × List Order)) : ℕ := lotsOf (atPrice (· == 0)) asks

/-- The cheapest lots that the order wants exist, and the budget covers them. -/
def Affords (order : Order) (asks : List (ℕ × List Order)) : Prop :=
  (sweepCost order.quantity asks).1 = 0 ∧ (sweepCost order.quantity asks).2 ≤ order.price

instance (order : Order) (asks : List (ℕ × List Order)) : Decidable (Affords order asks) := by
  unfold Affords
  infer_instance

/-- A budget buy gets what its budget covers: it spends no more; one that must fill is filled if
the budget covers the cheapest lots that it wants, and killed otherwise; any other one takes lots
from the cheapest on and stops when it has all, when nothing is left, or when the next lot costs
more than what is left of its budget. -/
structure BudgetBuy (before after : Side → ℕ → List Order) (asks : List (ℕ × List Order))
    (order : Order) (report : SubmitReport) : Prop where
  spent : notional report.trades ≤ order.price
  fok : order.tif = .fokBudget →
    if Affords order asks then
      report.status = .filled ∧ (report.trades.map Trade.quantity).sum = order.quantity
    else report.status = .rejected ∧ report.trades = [] ∧ after = before
  cheapest : order.tif = .iocBudget → Sweeps report.trades ∧
    ∀ t ∈ report.trades, ∀ p, after .sell p ≠ [] → t.price ≤ p
  stops : order.tif = .iocBudget →
    (report.trades.map Trade.quantity).sum = order.quantity ∨ (∀ p, after .sell p = []) ∨
      ∃ px, after .sell px ≠ [] ∧ (∀ p, after .sell p ≠ [] → px ≤ p) ∧
        order.price < notional report.trades + px

/-- A buy without a budget that could take lots for nothing: one, or all if it must fill. -/
def MissesFreeLots (order : Order) (asks : List (ℕ × List Order)) : Prop :=
  order.price = 0 ∧ 0 < order.quantity ∧
    (if order.tif = .fokBudget then order.quantity else 1) ≤ freeLots asks

theorem sweepCost_le (left : ℕ) (rungs : List (ℕ × List Order)) :
    (sweepCost left rungs).1 ≤ left := by
  induction rungs generalizing left with
  | nil => exact le_rfl
  | cons e rest ih =>
    rw [sweepCost]
    exact (ih _).trans (Nat.sub_le _ _)

/-- Lots that cost nothing are free lots. -/
theorem le_freeLots {b : NaiveBook} (hr : b.Realized)
    (hall : (sweepCost left (b .sell).rungs).1 = 0)
    (hcost : (sweepCost left (b .sell).rungs).2 = 0) :
    left ≤ freeLots (b .sell).rungs := by
  have hrungs : ∀ e ∈ (b .sell).rungs, ∀ o ∈ e.2, o.price = e.1 := fun e he o ho =>
    (hr.of_mem_rungs he ho).2
  rw [freeLots]
  generalize (b .sell).rungs = rungs at *
  induction rungs generalizing left with
  | nil => exact le_of_eq hall
  | cons e rest ih =>
    obtain ⟨px, q⟩ := e
    rw [sweepCost] at hall hcost
    obtain ⟨hmul, hrest⟩ := Nat.add_eq_zero_iff.mp hcost
    have hle := ih hall hrest fun e he => hrungs e (mem_cons_of_mem _ he)
    rw [lotsOf_cons]
    rcases Nat.mul_eq_zero.mp hmul with rfl | hzero
    · have hself : q.filter (atPrice (· == 0)) = q :=
        filter_eq_self.mpr fun o ho =>
          beq_iff_eq.mpr (hrungs (0, q) mem_cons_self o ho)
      simp only [hself]
      omega
    · omega

/-- What a turn takes off the cost of a sweep. -/
theorem sweepCost_take {px : ℕ} {q : List Order} {f : Order → Option Order}
    {rest : List (ℕ × List Order)} (hle : lots ≤ left)
    (hq : totalQty (q.filterMap f) + lots = totalQty q) :
    (sweepCost left ((px, q) :: rest)).1 =
        (sweepCost (left - lots) ((Ladder.mapRung f (px, q)).toList ++ rest)).1 ∧
      (sweepCost left ((px, q) :: rest)).2 =
        px * lots + (sweepCost (left - lots) ((Ladder.mapRung f (px, q)).toList ++ rest)).2 := by
  rw [sweepCost, Ladder.mapRung]
  split
  · rename_i hnil
    rw [hnil] at hq
    have hlots : lots = totalQty q := by
      rw [← hq]
      exact (zero_add _).symm
    rw [toList_none, nil_append, ← hlots, Nat.min_eq_right hle]
    exact ⟨rfl, rfl⟩
  · rw [toList_some, singleton_append, sweepCost]
    have htake : min (left - lots) (totalQty (q.filterMap f)) = min left (totalQty q) - lots := by
      omega
    have hleft : left - lots - (min left (totalQty q) - lots) = left - min left (totalQty q) := by
      omega
    have hmul : px * min left (totalQty q) = px * lots + px * (min left (totalQty q) - lots) := by
      rw [← mul_add]
      congr 1
      omega
    simp only [htake, hleft, hmul]
    exact ⟨trivial, add_assoc _ _ _⟩

namespace NaiveCross

variable {q : List Order} {b : NaiveBook} {px : ℕ}

variable {strategy : Strategy} {seq : ℕ} {order : Order} {budget : ℕ} {asks : List (ℕ × List Order)}
  {lucky : Prop} {n : NaiveCross}

/-- A buy at any price that has spent a part of its budget on the cheapest of `asks`, and has still
to pay for the rest of its lots. A lucky one takes lots that cost nothing. -/
structure Spending (order : Order) (budget : ℕ) (asks : List (ℕ × List Order)) (lucky : Prop)
    (n : NaiveCross) : Prop where
  same : SameOrder order n.order
  money : notional n.trades + n.budgetLeft = budget
  free : lucky → 0 < n.budgetLeft ∨ freeLots (n.book .sell).rungs = 0 ∨ n.order.remaining = 0
  missing :
    (sweepCost n.order.remaining (n.book .sell).rungs).1 = (sweepCost order.remaining asks).1
  cost : notional n.trades + (sweepCost n.order.remaining (n.book .sell).rungs).2 =
    (sweepCost order.remaining asks).2

/-- A buy has all, nothing is left, or the next lot costs more than what is left of its budget. -/
def Done (n : NaiveCross) : Prop :=
  n.order.remaining = 0 ∨ (n.book .sell).rungs = [] ∨
    ∃ px q, (n.book .sell).rungs.head? = some (px, q) ∧ n.budgetLeft < px

/-- What a turn spends is covered. -/
theorem Trades.mul_le {view : List RestingOrder} {allocs : List Allocation}
    (ht : n.Trades strategy px lots q view allocs) (hr : n.book.Realized) :
    px * allocated allocs ≤ n.budgetLeft := by
  have hlots : allocated allocs ≤ n.budgetLeft / max px 1 := by
    rw [ht.allocated_eq hr, ht.lots_eq, affordable]
    omega
  calc px * allocated allocs ≤ max px 1 * (n.budgetLeft / max px 1) :=
        Nat.mul_le_mul (Nat.le_max_left _ _) hlots
    _ ≤ n.budgetLeft := Nat.mul_div_le _ _

/-- Where the best ask costs something, no ask is free. -/
theorem freeLots_eq_zero (hr : b.Realized) (hhead : (b .sell).rungs.head? = some (px, q))
    (hpx : px ≠ 0) :
    freeLots (b .sell).rungs = 0 := by
  refine lotsOf_eq_zero fun e he o ho => ?_
  have hnot := @NaiveBook.reaches_false e b .buy 0 px q hhead (by simpa [reaches] using hpx) he
  rw [atPrice, (hr.of_mem_rungs he ho).2]
  simpa [reaches] using hnot

/-- Where the best ask is free, there are free lots. -/
theorem freeLots_pos (hr : b.Realized) (hhead : (b .sell).rungs.head? = some (0, q)) :
    0 < freeLots (b .sell).rungs := by
  obtain ⟨rest, hrungs⟩ := head?_eq_some_iff.mp hhead
  obtain ⟨o, ho, hpos, hprice⟩ := hr.exists_mem_rung (mem_of_head? hhead)
  have hfilter : o ∈ q.filter (atPrice (· == 0)) :=
    mem_filter.mpr ⟨ho, beq_iff_eq.mpr hprice⟩
  have hle : o.remaining ≤ totalQty (q.filter (atPrice (· == 0))) :=
    single_le_sum (by simp) _ (List.mem_map_of_mem hfilter)
  rw [freeLots, hrungs, lotsOf_cons]
  simp only
  omega

/-- Where there are free lots, the best ask is free. -/
theorem exists_head?_of_freeLots (hr : b.Realized) (h : 0 < freeLots (b .sell).rungs) :
    ∃ q, (b .sell).rungs.head? = some (0, q) := by
  cases hhead : (b .sell).rungs.head? with
  | none =>
    rw [head?_eq_none_iff.mp hhead] at h
    exact absurd h (lt_irrefl 0)
  | some e =>
    obtain ⟨px, q⟩ := e
    obtain rfl : px = 0 := by
      by_contra hne
      exact h.ne' (freeLots_eq_zero hr hhead hne)
    exact ⟨q, rfl⟩

/-- The cost of a sweep that finds its lots starts with the best price. -/
theorem le_sweepCost (hr : b.Realized) (hhead : (b .sell).rungs.head? = some (px, q))
    (hleft : left ≠ 0) :
    px ≤ (sweepCost left (b .sell).rungs).2 := by
  obtain ⟨rest, hrungs⟩ := head?_eq_some_iff.mp hhead
  obtain ⟨o, ho, hpos, -⟩ := hr.exists_mem_rung (mem_of_head? hhead)
  have hle : o.remaining ≤ totalQty q := single_le_sum (by simp) _ (List.mem_map_of_mem ho)
  have hmul : px * 1 ≤ px * min left (totalQty q) := Nat.mul_le_mul_left _ (by omega)
  rw [hrungs, sweepCost]
  simp only
  omega

section

variable (h : n.Spending order budget asks lucky)
include h

/-- An order that buys at any price. -/
theorem Spending.side (hside : order.side = .buy) : n.order.side.opposite = .sell := by
  rw [h.same]
  exact congrArg Side.opposite hside

/-- **A turn that trades** spends what the trades are worth. -/
theorem Spending.fill (hside : order.side = .buy) (hr : n.book.Realized) {view : List RestingOrder}
    {allocs : List Allocation} (ht : n.Trades strategy px lots q view allocs) :
    (n.fill seq px view allocs).Spending order budget asks lucky := by
  have hopp := h.side hside
  have hmul := ht.mul_le hr
  have hmoney := h.money
  have hcost := h.cost
  have hworth : notional (n.fill seq px view allocs).trades =
      notional n.trades + px * allocated allocs := by
    change notional (n.trades ++ allocs.map (tradeOf seq n.order px view)) = _
    rw [notional_append, notional_map_tradeOf]
  obtain ⟨rest, hrungs, hfill⟩ := ht.rungs_fill hr seq
  have hlevel := @Trades.totalQty_fill (fun _ => true) _ _ _ _ _ _ _ ht hr (fun _ _ => rfl)
    fun _ _ _ => rfl
  rw [filter_true, filter_true] at hlevel
  rw [hopp] at hrungs hfill
  obtain ⟨hleft, hless⟩ := @sweepCost_take n.order.remaining (allocated allocs) px q
    (settle (allocs.map fillOf)) rest (ht.allocated_le hr) hlevel
  rw [← hrungs, ← hfill] at hleft hless
  refine ⟨h.same.trans rfl, ?_, fun _ => ?_, hleft.symm.trans h.missing, ?_⟩
  · rw [hworth]
    change _ + (n.budgetLeft - px * allocated allocs) = budget
    omega
  · by_cases hpx : px = 0
    · left
      have hpos := ht.lots_pos
      change 0 < n.budgetLeft - px * allocated allocs
      rw [ht.lots_eq, affordable, hpx, Nat.max_eq_right (Nat.zero_le 1), Nat.div_one] at hpos
      rw [hpx, zero_mul]
      omega
    · right; left
      have hfill := ht.lotsOf_fill_other hr seq (stable_atPrice (· == 0)) fun o ho => by
        rw [atPrice, (hr.of_mem_rungs (mem_of_head? ht.best) ho).2]
        simpa using hpx
      have hbest := ht.best
      rw [hopp] at hfill hbest
      exact hfill.trans (freeLots_eq_zero hr hbest hpx)
  · rw [hworth]
    change _ + (sweepCost (n.order.remaining - allocated allocs) _).2 = _
    omega

/-- A turn that ends the loop finds nothing left, or a next lot that costs too much. -/
theorem Spending.of_break {stp : SelfTradePolicy} {n' : NaiveCross} (hside : order.side = .buy)
    (hprice : order.price = priceMax) (hr : n.book.Realized) (hrem : n.order.remaining ≠ 0)
    (hturn : n.Turn strategy stp seq .break n') : n' = n ∧ (lucky → n.Done) := by
  have hopp := h.side hside
  cases hturn with
  | exhausted hnil =>
    rw [hopp] at hnil
    exact ⟨rfl, fun _ => .inr (Or.inl hnil)⟩
  | @barred px q hhead hbar =>
    rw [hopp] at hhead
    have hlt := hr.price_lt (mem_of_head? hhead)
    refine ⟨rfl, fun hlucky => .inr (.inr ⟨px, q, hhead, ?_⟩)⟩
    rcases hbar with hbar | hbar
    · have hcross : crossable order px = true := by
        refine crossable_of_reaches ?_
        rw [hside, hprice]
        exact decide_eq_true (Nat.le_sub_one_of_lt hlt)
      rw [h.same.crossable_eq, hcross] at hbar
      cases hbar
    · have hdiv : n.budgetLeft / max px 1 = 0 := by
        rw [affordable] at hbar
        omega
      have hbudget := Nat.lt_of_div_eq_zero (lt_of_lt_of_le one_pos (Nat.le_max_right px 1)) hdiv
      by_contra hge
      obtain rfl : px = 0 := by omega
      have hpos := freeLots_pos hr hhead
      rcases h.free hlucky with hfree | hfree | hfree <;> omega

/-- **The loop of a budget buy**, if lucky, ends because it is done. -/
theorem loop_spending (hside : order.side = .buy) (hprice : order.price = priceMax)
    (hr : n.book.Realized) {k : ℕ} (hk : n.measure < k) :
    ∃ m, (n.loop strategy .allow seq k) = (m, false) ∧ m.book.Realized ∧
      m.Spending order budget asks lucky ∧ (lucky → m.Done) := by
  have hstep : ∀ n n' : NaiveCross, n.book.Realized → n.order.remaining ≠ 0 →
      n.Spending order budget asks lucky → n.Turn strategy .allow seq .continue n' →
      n'.Spending order budget asks lucky := by
    intro n n' hn hrem hc hturn
    cases hturn with
    | pulled _ _ _ hown => exact absurd rfl hown.1
    | traded ht hown => exact hc.fill hside hn ht
  obtain ⟨m, m', stopped, hloop, hm, hc, hend⟩ := loop_rule hstep hr h hk
  rcases hend with ⟨hrem, rfl, rfl⟩ | ⟨hrem, ⟨hturn, rfl⟩ | ⟨hturn, -⟩⟩
  · exact ⟨m', hloop, hm, hc, fun _ => Or.inl hrem⟩
  · obtain ⟨rfl, hstops⟩ := hc.of_break hside hprice hm hrem hturn
    exact ⟨m', hloop, hm, hc, hstops⟩
  · cases hturn with
    | stopped _ _ _ hown => exact absurd rfl hown.1

/-- A buy that has all lots could afford them. -/
theorem Spending.afforded (hzero : n.order.remaining = 0) :
    (sweepCost order.remaining asks).1 = 0 ∧ (sweepCost order.remaining asks).2 ≤ budget := by
  have hmissing := h.missing
  have hcost := h.cost
  have hmoney := h.money
  rw [hzero, sweepCost_zero] at hmissing hcost
  exact ⟨hmissing.symm, by omega⟩

/-- A lucky buy ends with all lots if it can afford them. -/
theorem Spending.complete (hr : n.book.Realized) (hends : n.Done)
    (hall : (sweepCost order.remaining asks).1 = 0)
    (hpaid : (sweepCost order.remaining asks).2 ≤ budget) : n.order.remaining = 0 := by
  have hmissing := h.missing.trans hall
  have hcost := h.cost
  have hmoney := h.money
  rcases hends with hzero | hnil | ⟨px, q, hhead, hlt⟩
  · exact hzero
  · rw [hnil] at hmissing
    exact hmissing
  · by_contra hrem
    have := le_sweepCost hr hhead hrem
    omega

end

end NaiveCross

/-- Free lots cost nothing. -/
theorem affords_of_le_freeLots {b : NaiveBook} (hr : b.Realized)
    (h : order.quantity ≤ freeLots (b .sell).rungs) : Affords order (b .sell).rungs := by
  rcases Nat.eq_zero_or_pos order.quantity with hzero | hpos
  · rw [Affords, hzero, sweepCost_zero]
    exact ⟨rfl, Nat.zero_le _⟩
  · obtain ⟨q, hhead⟩ := NaiveCross.exists_head?_of_freeLots hr (lt_of_lt_of_le hpos h)
    obtain ⟨rest, hrungs⟩ := head?_eq_some_iff.mp hhead
    -- the other prices are greater
    have hrest : lotsOf (atPrice (· == 0)) rest = 0 := by
      refine lotsOf_eq_zero fun e he o ho => ?_
      have hmem : e ∈ (b .sell).rungs := hrungs ▸ mem_cons_of_mem _ he
      have hsorted := (b .sell).sorted
      rw [hrungs, pairwise_cons] at hsorted
      have hlt : 0 < e.1 := hsorted.1 e he
      rw [atPrice, (hr.of_mem_rungs hmem ho).2]
      simpa using hlt.ne'
    have hle : order.quantity ≤ totalQty q := by
      rw [freeLots, hrungs, lotsOf_cons, hrest, add_zero] at h
      exact h.trans ((filter_sublist.map _).sum_le_sum (by simp))
    rw [Affords, hrungs, sweepCost, Nat.min_eq_left hle, Nat.sub_self, sweepCost_zero, zero_mul]
    exact ⟨rfl, Nat.zero_le _⟩

namespace NaiveEngine

variable {order : Order}

/-- The order that a budget buy becomes. -/
def paying (n : NaiveEngine) (order : Order) : Order :=
  { n.stampOrder order with price := priceMax, tif := .iocBudget }

section

variable (n : NaiveEngine) (hside : order.side = .buy)
  (htif : order.tif = .iocBudget ∨ order.tif = .fokBudget)
include hside htif

theorem applyBudget_buy :
    n.stamped.applyBudget (n.stampOrder order) =
      if order.tif = .fokBudget ∧ ¬ Affords order (n.book .sell).rungs then none
      else some (n.paying order, order.price) := by
  rcases htif with htif | htif
  · rw [if_neg (by simp [htif])]
    simp [applyBudget, stampOrder, paying, htif, hside]
  · have hle := sweepCost_le order.quantity (n.book .sell).rungs
    have hiff :
        (order.quantity - (sweepCost order.quantity (n.book .sell).rungs).1 < order.quantity ∨
        order.price < (sweepCost order.quantity (n.book .sell).rungs).2) ↔
        ¬ Affords order (n.book .sell).rungs := by
      rw [Affords]
      omega
    have hcost : n.stamped.book.costToFill .buy order.quantity =
        (order.quantity - (sweepCost order.quantity (n.book .sell).rungs).1,
          (sweepCost order.quantity (n.book .sell).rungs).2) := rfl
    simp only [applyBudget, stampOrder, htif, hside, hcost, true_and]
    by_cases haff : Affords order (n.book .sell).rungs
    · rw [if_neg fun h => hiff.mp h haff, if_neg (not_not_intro haff)]
      simp [paying, stampOrder, hside]
    · rw [if_pos (hiff.mpr haff), if_pos haff]

/-- A budget buy is killed or crosses. -/
theorem submit_buy_cases :
    (order.tif = .fokBudget ∧ ¬ Affords order (n.book .sell).rungs ∧
      n.submit order = n.stamped.reject order) ∨
    ((order.tif = .fokBudget → Affords order (n.book .sell).rungs) ∧
      n.submit order = n.stamped.crossAndFinalize (n.paying order) order.price) := by
  rw [NaiveEngine.submit, n.applyBudget_buy hside htif]
  by_cases hkill : order.tif = .fokBudget ∧ ¬ Affords order (n.book .sell).rungs
  · rw [if_pos hkill]
    exact .inl ⟨hkill.1, hkill.2, rfl⟩
  · rw [if_neg hkill]
    refine .inr ⟨fun h => Classical.not_not.mp fun hnot => hkill ⟨h, hnot⟩, ?_⟩
    exact if_neg fun hshort => by cases hshort.1

/-- A budget buy asks nothing of the machine integers. -/
theorem admits_budgetBuy : n.Admits order := by
  have hbudget := n.applyBudget_buy hside htif
  split at hbudget
  · refine ⟨fun r hr => ?_, fun r hr => ?_⟩ <;>
      · rw [hbudget] at hr
        cases hr
  · rw [admits_iff hbudget (by simp [paying])]
    exact fun h => absurd h (by simp [paying])

end

/-- An order that may not rest leaves the book as it crossed it. -/
theorem crossAndFinalize_queue (n : NaiveEngine) (htif : order.tif ≠ .gtc) (budget : ℕ) :
    (n.crossAndFinalize order budget).1.book = (n.cross order budget).1.book := by
  rw [crossAndFinalize_book, if_neg]
  intro hrests
  have hgtc := hrests.2.2.2
  rw [(n.cross_order order budget).1] at hgtc
  exact htif hgtc

/-- A buy that takes lots for nothing where it wants any. -/
def Lucky (order : Order) (asks : List (ℕ × List Order)) : Prop :=
  0 < order.price ∨ freeLots asks = 0 ∨ order.quantity = 0

section

variable (n : NaiveEngine) (hr : n.book.Realized) (hstp : n.stp = .allow)
  (hside : order.side = .buy)
include hr hstp hside

/-- **The crossing of a budget buy.** -/
theorem cross_spending
    (hsubmit : n.submit order = n.stamped.crossAndFinalize (n.paying order) order.price) :
    ∃ m, n.stamped.cross (n.paying order) order.price = (m, false) ∧
      (n.submit order).2.trades = m.trades ∧ (n.submit order).1.book = m.book ∧
      ((n.submit order).2.status = .filled ↔ m.order.remaining = 0) ∧ m.book.Realized ∧
      m.order.remaining + (m.trades.map Trade.quantity).sum = order.quantity ∧
      m.Spending (n.paying order) order.price (n.book .sell).rungs
        (Lucky order (n.book .sell).rungs) ∧
      (Lucky order (n.book .sell).rungs → m.Done) := by
  generalize hstart : NaiveCross.mk n.book (n.paying order) [] order.price [] = c
  have hspending : c.Spending (n.paying order) order.price (n.book .sell).rungs
      (Lucky order (n.book .sell).rungs) := by
    rw [← hstart]
    exact ⟨rfl, zero_add _, id, rfl, zero_add _⟩
  have hreal : c.book.Realized := by
    rw [← hstart]
    exact hr
  obtain ⟨m, hloop, hm, hspent, hstops⟩ := @NaiveCross.loop_spending n.strategy
    (wrappingAdd 64 n.seq 1) _ _ _ _ _ hspending hside rfl hreal _ (lt_add_one _)
  have hcross : n.stamped.cross (n.paying order) order.price = (m, false) := by
    rw [NaiveEngine.cross, ← hloop, ← hstart, show n.stamped.stp = .allow from hstp]
    rfl
  have hfilled := (n.stamped.cross_conserving hr rfl (n.paying order) order.price).filled
  obtain ⟨hnot, hstatus⟩ := @crossed_status n.stamped (n.paying order) order.price le_rfl
  rw [hcross, ← hsubmit] at hstatus
  rw [hcross] at hfilled
  rw [← hsubmit] at hnot
  refine ⟨m, hcross, ?_, ?_, ((n.submit_conserves hr order).filled_iff hnot).trans hstatus, hm,
    hfilled, hspent, hstops⟩
  · rw [hsubmit]
    exact congrArg (fun r => r.1.trades) hcross
  · rw [hsubmit, crossAndFinalize_queue _ (by simp [paying]), hcross]

/-- **A budget buy that misses no free lots** gets what its budget covers. -/
theorem budgetBuy_of_cross
    (hsubmit : n.submit order = n.stamped.crossAndFinalize (n.paying order) order.price)
    (haff : order.tif = .fokBudget → Affords order (n.book .sell).rungs)
    (hmiss : ¬ MissesFreeLots order (n.book .sell).rungs) :
    BudgetBuy n.book.queue (n.submit order).1.book.queue (n.book .sell).rungs order
      (n.submit order).2 := by
  have hlucky : Lucky order (n.book .sell).rungs := by
    by_contra hfree
    simp only [Lucky, not_or] at hfree
    obtain ⟨hbudget, hfree, hqty⟩ := hfree
    have hprice : order.price = 0 := Nat.eq_zero_of_not_pos hbudget
    refine hmiss ⟨hprice, pos_of_ne_zero hqty, ?_⟩
    split
    · rename_i htif
      obtain ⟨hall, hcost⟩ := haff htif
      exact le_freeLots hr hall (Nat.eq_zero_of_le_zero (hprice ▸ hcost))
    · exact pos_of_ne_zero hfree
  obtain ⟨m, hcross, htrades, hbook, hstatus, hm, hfilled, hspent, hstops⟩ :=
    n.cross_spending hr hstp hside hsubmit
  have hstops := hstops hlucky
  have hmside : m.order.side.opposite = .sell := hspent.side hside
  have hmoney := hspent.money
  rw [hbook]
  refine ⟨?_, fun htif => ?_, fun _ => ⟨n.submit_sweeps hr order, ?_⟩, fun _ => ?_⟩
  · rw [htrades]
    omega
  · have hzero := hspent.complete hm hstops (haff htif).1 (haff htif).2
    rw [if_pos (haff htif), hstatus, htrades]
    exact ⟨hzero, by omega⟩
  · intro t ht p hp
    rw [htrades] at ht
    have hsweep := (n.stamped.cross_sweeping hr (n.paying order) order.price).1
    rw [hcross] at hsweep
    obtain ⟨o, ho⟩ := exists_mem_of_ne_nil _ hp
    have hbehind := hsweep.behind t ht p o (by rw [hmside]; exact ho)
    rw [hmside] at hbehind
    exact Nat.le_of_not_lt hbehind
  · rw [htrades]
    rcases hstops with hzero | hnil | ⟨px, q, hhead, hlt⟩
    · exact .inl (by omega)
    · refine .inr (.inl fun p => ?_)
      exact Ladder.head?_eq_none (head?_eq_none_iff.mpr hnil) p
    · obtain ⟨hqueue, hne, hbest⟩ := Ladder.head?_eq_some hhead
      refine .inr (.inr ⟨px, ?_, fun p hp => ?_, by omega⟩)
      · rw [NaiveBook.queue, hqueue]
        exact hne
      · rcases hbest p hp with rfl | hlt
        · exact le_rfl
        · exact le_of_lt hlt

/-- **A budget buy is filled** only if its budget covers the cheapest lots that it wants, and if
so, unless it has no budget. -/
theorem submit_buy_filled (htif : order.tif = .iocBudget ∨ order.tif = .fokBudget) :
    ((n.submit order).2.status = .filled → Affords order (n.book .sell).rungs) ∧
      (0 < order.price → Affords order (n.book .sell).rungs →
        (n.submit order).2.status = .filled) := by
  rcases n.submit_buy_cases hside htif with ⟨-, hnot, hsubmit⟩ | ⟨-, hsubmit⟩
  · rw [hsubmit]
    exact ⟨OrderStatus.noConfusion, fun _ haff => absurd haff hnot⟩
  · obtain ⟨m, -, -, -, hstatus, hm, -, hspent, hstops⟩ :=
      n.cross_spending hr hstp hside hsubmit
    rw [hstatus]
    exact ⟨hspent.afforded, fun hprice haff =>
      hspent.complete hm (hstops (Or.inl hprice)) haff.1 haff.2⟩

/-- **A budget buy of the reference** gets what its budget covers, unless it misses free lots. -/
theorem submit_budgetBuy_iff (htif : order.tif = .iocBudget ∨ order.tif = .fokBudget) :
    BudgetBuy n.book.queue (n.submit order).1.book.queue (n.book .sell).rungs order
      (n.submit order).2 ↔ ¬ MissesFreeLots order (n.book .sell).rungs := by
  rcases n.submit_buy_cases hside htif with ⟨hfok, hnot, hsubmit⟩ | ⟨haff, hsubmit⟩
  · rw [hsubmit]
    refine iff_of_true ⟨Nat.zero_le _, fun _ => ?_, fun htif => ?_, fun htif => ?_⟩ fun hmiss => ?_
    · rw [if_neg hnot]
      exact ⟨rfl, rfl, rfl⟩
    · rw [hfok] at htif
      cases htif
    · rw [hfok] at htif
      cases htif
    · have hfree := hmiss.2.2
      rw [if_pos hfok] at hfree
      exact hnot (affords_of_le_freeLots hr hfree)
  · refine ⟨fun h hmiss => ?_, n.budgetBuy_of_cross hr hstp hside hsubmit haff⟩
    -- the loop ends in its first turn
    obtain ⟨hprice, hqty, hfree⟩ := hmiss
    have hpos : 0 < freeLots (n.book .sell).rungs := by
      split at hfree <;> omega
    obtain ⟨q, hhead⟩ := NaiveCross.exists_head?_of_freeLots hr hpos
    have hcross : n.stamped.cross (n.paying order) order.price =
        (NaiveCross.mk n.book (n.paying order) [] order.price [], false) := by
      have hhead' : (n.stamped.book (n.paying order).side.opposite).rungs.head? = some (0, q) := by
        rw [show (n.paying order).side = .buy from hside]
        exact hhead
      refine NaiveCross.loop_of_break ?_ _
      simp only [NaiveCross.pass, hhead', hprice, affordable, Nat.zero_div, Nat.zero_min, or_true,
        if_true]
    have htrades : (n.submit order).2.trades = [] := by
      rw [hsubmit]
      exact congrArg (fun r => r.1.trades) hcross
    have hbook : (n.submit order).1.book = n.book := by
      rw [hsubmit, crossAndFinalize_queue _ (by simp [paying]), hcross]
    obtain ⟨hqueue, hne, -⟩ := Ladder.head?_eq_some hhead
    rcases htif with htif | htif
    · rcases h.stops htif with hall | hnil | ⟨px, -, hbest, hlt⟩
      · rw [htrades] at hall
        exact hqty.ne hall
      · rw [hbook] at hnil
        exact hne (hqueue.symm.trans (hnil 0))
      · rw [hbook] at hbest
        have hle := hbest 0 fun hnil => hne (hqueue.symm.trans hnil)
        rw [htrades, hprice, Nat.le_zero.mp hle] at hlt
        exact absurd hlt (lt_irrefl 0)
    · rw [if_pos htif] at hfree
      have hfok := h.fok htif
      rw [if_pos (affords_of_le_freeLots hr hfree), htrades] at hfok
      exact hqty.ne hfok.2

end

end NaiveEngine

namespace MatchingEngine

/-- **Budget buys.** In every engine that a run reaches with room in its slab before each call and
without self-trade prevention, a budget buy gets what its budget covers, unless it has no budget
and misses lots that cost nothing. -/
theorem budgetBuy_iff (strategy : Strategy) (maxOrders : ℕ) (prefault : Bool)
    (calls : List (HashOrder × Call)) (hin : ∀ c ∈ calls, c.2.InRange)
    (hroomy : (fresh strategy .allow maxOrders prefault).Roomy calls) (e : MatchingEngine)
    (outcomes : List Outcome)
    (hrun : (fresh strategy .allow maxOrders prefault).run calls = some (e, outcomes))
    (order : Order) (horder : order.InRange) (hside : order.side = .buy)
    (htif : order.tif = .iocBudget ∨ order.tif = .fokBudget) :
    (∃ e' report, e.submit order = some (e', report) ∧
      BudgetBuy e.book.queue e'.book.queue (e.book.rungs .sell) order report) ↔
      ¬ MissesFreeLots order (e.book.rungs .sell) := by
  obtain ⟨n, hn, -, hstp⟩ := exists_refines strategy .allow maxOrders prefault hin hroomy hrun
  have hreal : n.book.Realized := ⟨e.book, hn.book⟩
  rw [hn.book.rungs, ← n.submit_budgetBuy_iff hreal hstp hside htif]
  refine (hn.submit_iff horder (by rcases htif with h | h <;> simp [h])
    fun before after report => BudgetBuy before after (n.book .sell).rungs order report).trans ?_
  exact and_iff_right (n.admits_budgetBuy hside htif)

/-- A buy of ten lots for 750 in total: five at 100 and two at 110. -/
theorem budgetBuy_iff_budget750 : ∃ e outcomes e' report,
    (fresh .priceTimePriority .allow 4 true).run
      [(1, .submit (Order.limit 1 .sell 100 5)), (1, .submit (Order.limit 2 .sell 110 5))] =
        some (e, outcomes) ∧
      e.submit ((Order.limit 9 .buy 750 10).withTif .iocBudget) = some (e', report) ∧
      BudgetBuy e.book.queue e'.book.queue (e.book.rungs .sell)
        ((Order.limit 9 .buy 750 10).withTif .iocBudget) report := by
  have hrun : ((fresh .priceTimePriority .allow 4 true).run
      [(1, .submit (Order.limit 1 .sell 100 5)), (1, .submit (Order.limit 2 .sell 110 5))]).isSome =
        true := by decide +kernel
  obtain ⟨⟨e, outcomes⟩, hrun⟩ := isSome_iff_exists.mp hrun
  obtain ⟨e', report, hsubmit, hbuy⟩ := (budgetBuy_iff .priceTimePriority 4 true _ (by decide)
    (roomy_of_length (by decide) (by decide)) e outcomes hrun
    ((Order.limit 9 .buy 750 10).withTif .iocBudget)
    (by decide) rfl (.inl rfl)).mpr fun h => absurd h.1 (by decide)
  exact ⟨e, outcomes, e', report, hrun, hsubmit, hbuy⟩

/-- Two lots are offered for nothing. The order that must fill passes its precheck with a budget
of 0, as the lots cost 0, and is cancelled without a trade. -/
theorem free_lots_missed : ∃ e outcomes e' report,
    (fresh .priceTimePriority .allow 4 true).run [(1, .submit (Order.limit 1 .sell 0 2))] =
      some (e, outcomes) ∧
    Affords ((Order.limit 9 .buy 0 2).withTif .fokBudget) (e.book.rungs .sell) ∧
    e.submit ((Order.limit 9 .buy 0 2).withTif .fokBudget) = some (e', report) ∧
    report.status = .cancelled ∧ report.trades = [] ∧
    ¬ BudgetBuy e.book.queue e'.book.queue (e.book.rungs .sell)
      ((Order.limit 9 .buy 0 2).withTif .fokBudget) report := by
  have hrun : ((fresh .priceTimePriority .allow 4 true).run
      [(1, .submit (Order.limit 1 .sell 0 2))]).map (fun r =>
        (decide (Affords ((Order.limit 9 .buy 0 2).withTif .fokBudget) (r.1.book.rungs .sell)),
        (r.1.submit ((Order.limit 9 .buy 0 2).withTif .fokBudget)).map fun r' =>
          (r'.2.status, r'.2.trades))) = some (true, some (.cancelled, [])) := by decide +kernel
  obtain ⟨⟨e, outcomes⟩, hrun, hres⟩ := map_eq_some_iff.mp hrun
  obtain ⟨haff, hsubmit⟩ := Prod.mk.inj hres
  obtain ⟨⟨e', report⟩, hsubmit, hreport⟩ := map_eq_some_iff.mp hsubmit
  obtain ⟨hstatus, htrades⟩ := Prod.mk.inj hreport
  have haff := of_decide_eq_true haff
  refine ⟨e, outcomes, e', report, hrun, haff, hsubmit, hstatus, htrades, fun h => ?_⟩
  have hfok := h.fok rfl
  rw [if_pos haff] at hfok
  exact absurd ((show report.status = _ from hstatus).symm.trans hfok.1) (by simp)

end MatchingEngine

end TradeCore
