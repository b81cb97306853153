import TradeCore.Levels

/-!
# Fill or Kill

A fill-or-kill order is rejected at once if it reaches fewer lots than it wants. Otherwise it
crosses, and the precheck is meant to guarantee that it fills completely. It does where the order
meets no order of its own user (`NaiveCross.loop_covered`). The precheck counts those too, but the
crossing loop does not trade with them: the order is stopped, or goes on with what the others
have (`NaiveCross.loop_foreign`).

## Main result

* `MatchingEngine.fok_iff` — in every engine that a run reaches, a fill-or-kill order is filled or
  killed exactly if `FillsOrKills` holds of the book before.
-/

open List Option

namespace TradeCore

variable {allocs : List Allocation} {view : List RestingOrder}

variable {order order' : Order} {px : ℕ}

/-- An order for `left` lots looks at an order of its own user, on its way down the rungs. -/
def MeetsOwn (strategy : Strategy) (stp : SelfTradePolicy) (order : Order) :
    ℕ → List (ℕ × List Order) → Prop
  | _, [] => False
  | left, (_, q) :: rest =>
    0 < left ∧ (ownInView stp order (reached strategy left q) ∨
      MeetsOwn strategy stp order (left - totalQty q) rest)

instance MeetsOwn.decidable (strategy : Strategy) (stp : SelfTradePolicy) (order : Order) :
    (left : ℕ) → (rungs : List (ℕ × List Order)) →
      Decidable (MeetsOwn strategy stp order left rungs)
  | _, [] => isFalse id
  | left, (_, q) :: rest =>
    have := decidable strategy stp order (left - totalQty q) rest
    inferInstanceAs (Decidable (0 < left ∧ (ownInView stp order (reached strategy left q) ∨
      MeetsOwn strategy stp order (left - totalQty q) rest)))

/-- The orders of others at the prices where the order may trade. -/
def foreign (order o : Order) : Bool := crossable order o.price && o.user != order.user

theorem stable_foreign (order : Order) : Stable (foreign order) := fun _ _ => rfl

theorem not_meetsOwn_zero (strategy : Strategy) (stp : SelfTradePolicy) (order : Order)
    (rungs : List (ℕ × List Order)) : ¬ MeetsOwn strategy stp order 0 rungs := by
  cases rungs with
  | nil => exact id
  | cons e rest => exact fun h => absurd h.1 (lt_irrefl 0)

/-- Whom an order meets depends on its user. -/
theorem meetsOwn_congr (h : order'.user = order.user) (strategy : Strategy) (stp : SelfTradePolicy)
    (left : ℕ) (rungs : List (ℕ × List Order)) :
    MeetsOwn strategy stp order' left rungs ↔ MeetsOwn strategy stp order left rungs := by
  induction rungs generalizing left with
  | nil => exact Iff.rfl
  | cons e rest ih => rw [MeetsOwn, MeetsOwn, ih, ownInView, ownInView, h]

/-- Only an order with a user meets its own, and only where self-trades are prevented. -/
theorem MeetsOwn.prevented {strategy : Strategy} {stp : SelfTradePolicy} {left : ℕ}
    {rungs : List (ℕ × List Order)} (h : MeetsOwn strategy stp order left rungs) :
    stp ≠ .allow ∧ order.user ≠ 0 := by
  induction rungs generalizing left with
  | nil => exact absurd h id
  | cons e rest ih =>
    rcases h.2 with hown | hrest
    · exact ⟨hown.1, hown.2.1⟩
    · exact ih hrest

/-! ### Orders without a budget -/

/-- The budget cannot bind: it covers the remaining quantity at the highest price. -/
def NaiveCross.Unbudgeted (n : NaiveCross) : Prop :=
  (2 ^ 64 - 1) * n.order.remaining ≤ n.budgetLeft

theorem NaiveCross.Unbudgeted.lots_eq {n : NaiveCross} (h : n.Unbudgeted) (hr : n.book.Realized)
    {q : List Order} (hhead : (n.book n.order.side.opposite).rungs.head? = some (px, q)) :
    affordable n.budgetLeft n.order.remaining px = n.order.remaining :=
  affordable_of_le h (hr.price_lt (mem_of_head? hhead))

theorem NaiveCross.Unbudgeted.fill {n : NaiveCross} (h : n.Unbudgeted) (hr : n.book.Realized)
    {strategy : Strategy} {lots seq : ℕ} {q : List Order}
    (ht : n.Trades strategy px lots q view allocs) :
    (n.fill seq px view allocs).Unbudgeted := by
  have hpx : px ≤ 2 ^ 64 - 1 := Nat.le_sub_one_of_lt (hr.price_lt (mem_of_head? ht.best))
  have hmul : px * allocated allocs ≤ (2 ^ 64 - 1) * allocated allocs :=
    Nat.mul_le_mul_right _ hpx
  have hle := ht.allocated_le hr
  have hsub : (2 ^ 64 - 1) * (n.order.remaining - allocated allocs) =
      (2 ^ 64 - 1) * n.order.remaining - (2 ^ 64 - 1) * allocated allocs := Nat.mul_sub ..
  unfold Unbudgeted at h
  change (2 ^ 64 - 1) * (n.order.remaining - allocated allocs) ≤
    n.budgetLeft - px * allocated allocs
  omega

/-! ### The crossing loop -/

theorem SameOrder.ownInView_iff (h : SameOrder order order') (stp : SelfTradePolicy)
    (view : List RestingOrder) :
    ownInView stp order' view ↔ ownInView stp order view := by
  rw [h]
  exact Iff.rfl

theorem SameOrder.crossable_eq (h : SameOrder order order') (px : ℕ) :
    crossable order' px = crossable order px := by
  rw [h]
  rfl

/-- A limit order may trade where it reaches, a market order anywhere. -/
theorem crossable_eq (order : Order) (px : ℕ) :
    crossable order px = (order.orderType == .market || reaches order.side order.price px) := by
  cases ht : order.orderType <;> cases hs : order.side <;> simp [crossable, reaches, ht, hs]

theorem crossable_of_reaches (h : reaches order.side order.price px = true) :
    crossable order px = true := by
  rw [crossable_eq, h, Bool.or_true]

namespace NaiveCross

variable {q : List Order} {n : NaiveCross} {own : Prop} {px : ℕ}

variable {strategy : Strategy} {stp : SelfTradePolicy} {seq : ℕ} {order : Order}

/-- An order that reaches at least the lots that it still wants; `own` says whether it meets an
order of its own user on the way. -/
structure Covered (strategy : Strategy) (stp : SelfTradePolicy) (order : Order) (own : Prop)
    (n : NaiveCross) : Prop where
  same : SameOrder order n.order
  unbudgeted : n.Unbudgeted
  covered : n.order.remaining ≤
    lotsOf (atPrice (reaches order.side order.price)) (n.book order.side.opposite).rungs
  own_iff : MeetsOwn strategy stp order n.order.remaining (n.book order.side.opposite).rungs ↔ own

section

variable (h : n.Covered strategy stp order own)
include h

theorem Covered.side : n.order.side = order.side := by
  rw [h.same]

section

variable (hr : n.book.Realized) (hrem : n.order.remaining ≠ 0)
include hr hrem

/-- The best price is reached as long as lots are wanted. -/
theorem Covered.best (hhead : (n.book n.order.side.opposite).rungs.head? = some (px, q)) :
    reaches order.side order.price px = true := by
  have hcov := h.covered
  rw [h.side] at hhead
  exact hr.reaches_best hhead (by omega)

/-- **A turn that trades** keeps the order covered. -/
theorem Covered.fill {lots : ℕ} (ht : n.Trades strategy px lots q view allocs)
    (hown : ¬ ownInView stp n.order view) :
    (n.fill seq px view allocs).Covered strategy stp order own := by
  have hlots : lots = n.order.remaining := ht.lots_eq.trans (h.unbudgeted.lots_eq hr ht.best)
  have hreach := h.best hr hrem ht.best
  have hk := ht.allocated_eq hr
  have hown' : ¬ ownInView stp order (reached strategy n.order.remaining q) := by
    rw [← h.same.ownInView_iff, ← hlots, ← ht.view_eq]
    exact hown
  have hsame : SameOrder order (n.fill seq px view allocs).order := h.same.trans rfl
  refine ⟨hsame, h.unbudgeted.fill hr ht, ?_, ?_⟩
  · -- the lots are taken from a price that is reached
    have hprice : ∀ o ∈ q, o.toResting ∈ view →
        atPrice (reaches order.side order.price) o = true := by
      intro o ho _
      rw [atPrice, (hr.of_mem_rungs (mem_of_head? ht.best) ho).2]
      exact hreach
    have hlotsOf := ht.lotsOf_fill hr seq (stable_atPrice _) hprice
    have hcov := h.covered
    rw [h.side] at hlotsOf
    change n.order.remaining - allocated allocs ≤ _
    omega
  · rw [← h.own_iff]
    change MeetsOwn strategy stp order (n.order.remaining - allocated allocs) _ ↔ _
    obtain ⟨rest, hrungs, -⟩ := ht.rungs_fill hr seq
    rw [h.side] at hrungs
    have hbefore :
        MeetsOwn strategy stp order n.order.remaining (n.book order.side.opposite).rungs ↔
        MeetsOwn strategy stp order (n.order.remaining - totalQty q) rest := by
      rw [hrungs, MeetsOwn]
      exact ⟨fun hm => hm.2.resolve_left hown', fun hm => ⟨pos_of_ne_zero hrem, Or.inr hm⟩⟩
    rw [hbefore]
    rcases le_total (totalQty q) n.order.remaining with hle | hle
    · obtain ⟨rest', hrungs', hfill⟩ := ht.rungs_fill_all hr seq (hlots ▸ hle)
      rw [h.side] at hrungs' hfill
      rw [hrungs, cons.injEq] at hrungs'
      rw [hfill, ← hrungs'.2, hk, hlots, Nat.min_eq_right hle]
    · rw [hk, hlots, Nat.min_eq_left hle, Nat.sub_self, Nat.sub_eq_zero_of_le hle]
      exact iff_of_false (not_meetsOwn_zero _ _ _ _) (not_meetsOwn_zero _ _ _ _)

/-- Where a turn looks at an own order, the order meets it. -/
theorem Covered.meets {lots : ℕ} (hhead : (n.book n.order.side.opposite).rungs.head? = some (px, q))
    (hlots : lots = affordable n.budgetLeft n.order.remaining px)
    (hown : ownInView stp n.order (reached strategy lots q)) : own := by
  rw [hlots, h.unbudgeted.lots_eq hr hhead, h.same.ownInView_iff] at hown
  rw [h.side] at hhead
  obtain ⟨rest, hrungs⟩ := head?_eq_some_iff.mp hhead
  rw [← h.own_iff, hrungs, MeetsOwn]
  exact ⟨pos_of_ne_zero hrem, Or.inl hown⟩

/-- A covered order goes on as long as it wants lots. -/
theorem Covered.not_break {n' : NaiveCross} : ¬ n.Turn strategy stp seq .break n' := by
  intro hturn
  cases hturn with
  | exhausted hnil =>
    have hcov := h.covered
    rw [h.side] at hnil
    rw [hnil, lotsOf_nil] at hcov
    omega
  | barred hhead hbar =>
    rcases hbar with hbar | hbar
    · rw [h.same.crossable_eq, crossable_of_reaches (h.best hr hrem hhead)] at hbar
      cases hbar
    · rw [h.unbudgeted.lots_eq hr hhead] at hbar
      exact hrem hbar

end

/-- **A covered order fills completely**, unless it is stopped where it meets its own user. -/
theorem loop_covered (hr : n.book.Realized) (hstp : own → stp ≠ .cancelMaker) {k : ℕ}
    (hk : n.measure < k) : (n.loop strategy stp seq k).1.order.remaining = 0 ↔ ¬ own := by
  have hstep : ∀ n n' : NaiveCross, n.book.Realized → n.order.remaining ≠ 0 →
      n.Covered strategy stp order own → n.Turn strategy stp seq .continue n' →
      n'.Covered strategy stp order own := by
    intro n n' hn hrem hc hturn
    cases hturn with
    | pulled hhead _ hlots hown hmaker =>
      exact absurd hmaker (hstp (hc.meets hn hrem hhead hlots hown))
    | traded ht hown => exact hc.fill hn hrem ht hown
  obtain ⟨m, m', stopped, hloop, hm, hc, hend⟩ := loop_rule hstep hr h hk
  rw [hloop]
  rcases hend with ⟨hrem, rfl, -⟩ | ⟨hrem, ⟨hturn, -⟩ | ⟨hturn, -⟩⟩
  · refine iff_of_true hrem fun hown => ?_
    rw [← hc.own_iff, hrem] at hown
    exact not_meetsOwn_zero _ _ _ _ hown
  · exact absurd hturn (hc.not_break hm hrem)
  · cases hturn with
    | stopped hhead _ hlots hown hmaker hn' =>
      refine iff_of_false ?_ (not_not_intro (hc.meets hm hrem hhead hlots hown))
      rcases hn' with rfl | rfl <;> exact hrem

end

/-- An order that trades with a class of orders: what it got is what they lost. -/
structure Trading (order : Order) (ψ : Order → Bool) (wanted had : ℕ) (n : NaiveCross) : Prop where
  same : SameOrder order n.order
  unbudgeted : n.Unbudgeted
  balance : had + n.order.remaining =
    wanted + lotsOf ψ (n.book order.side.opposite).rungs

section Trading

variable {q : List Order} {lots px : ℕ}

variable {ψ : Order → Bool} {wanted had : ℕ} {n : NaiveCross}

section

variable (h : n.Trading order ψ wanted had)
include h

theorem Trading.side : n.order.side = order.side := by
  rw [h.same]

/-- **A turn that trades** with the class keeps the balance. -/
theorem Trading.fill (hr : n.book.Realized) (hψ : Stable ψ)
    (ht : n.Trades strategy px lots q view allocs)
    (hview : ∀ o ∈ q, o.toResting ∈ view → ψ o = true) :
    (n.fill seq px view allocs).Trading order ψ wanted had := by
  refine ⟨h.same.trans rfl, h.unbudgeted.fill hr ht, ?_⟩
  have hlotsOf := ht.lotsOf_fill hr seq hψ hview
  have hle := ht.allocated_le hr
  have hbal := h.balance
  rw [h.side] at hlotsOf
  change had + (n.order.remaining - allocated allocs) = _
  omega

/-- A turn that ends the loop leaves nothing of a class that the order may trade with. -/
theorem Trading.of_break {n' : NaiveCross} (hr : n.book.Realized) (hrem : n.order.remaining ≠ 0)
    (hψ : ∀ o, ψ o = true → crossable order o.price = true)
    (hturn : n.Turn strategy stp seq .break n') : n' = n ∧ had + n.order.remaining = wanted := by
  have hbal := h.balance
  cases hturn with
  | exhausted hnil =>
    rw [← h.side, hnil, lotsOf_nil] at hbal
    exact ⟨rfl, hbal⟩
  | barred hhead hbar =>
    rcases hbar with hbar | hbar
    · rw [h.side] at hhead
      rw [h.same.crossable_eq, crossable_eq, Bool.or_eq_false_iff] at hbar
      have hnone : lotsOf ψ (n.book order.side.opposite).rungs = 0 := by
        refine lotsOf_eq_zero fun e he o ho => ?_
        by_contra hne
        have hcross := hψ o (by simpa using hne)
        rw [(hr.of_mem_rungs he ho).2, crossable_eq, hbar.1,
          NaiveBook.reaches_false hhead hbar.2 he] at hcross
        cases hcross
      rw [hnone] at hbal
      exact ⟨rfl, hbal⟩
    · rw [h.unbudgeted.lots_eq hr hhead] at hbar
      exact absurd hbar hrem

/-- Without own makers in the view, a turn trades with the others. -/
theorem Trading.foreign_of_mem (hr : n.book.Realized) (huser : order.user ≠ 0) (hstp : stp ≠ .allow)
    (ht : n.Trades strategy px lots q view allocs) (hown : ¬ ownInView stp n.order view) {o : Order}
    (ho : o ∈ q) (hview : o.toResting ∈ view) : foreign order o = true := by
  rw [foreign, (hr.of_mem_rungs (mem_of_head? ht.best) ho).2, ← h.same.crossable_eq,
    ht.crosses, Bool.true_and, bne_iff_ne]
  intro heq
  refine hown ((h.same.ownInView_iff _ _).mpr ⟨hstp, huser, List.any_eq_true.mpr ?_⟩)
  exact ⟨o.toResting, hview, decide_eq_true heq⟩

end

/-- **A turn that pulls** own orders keeps the balance with the others. -/
theorem Trading.pull (h : n.Trading order (foreign order) wanted had) (hr : n.book.Realized)
    (hhead : (n.book n.order.side.opposite).rungs.head? = some (px, q)) :
    (n.pull (ownIds n.order.user (reached strategy lots q))).Trading order (foreign order) wanted
      had := by
  have huser : n.order.user = order.user := by rw [h.same]
  refine ⟨h.same, h.unbudgeted, ?_⟩
  have hlotsOf : lotsOf (foreign order) ((n.book.rewrite
      (without (ownIds n.order.user (reached strategy lots q)))) order.side.opposite).rungs =
      lotsOf (foreign order) (n.book order.side.opposite).rungs := by
    refine n.book.lotsOf_without _ fun e he o ho hforeign hid => ?_
    obtain ⟨r, hr', hrid⟩ := List.mem_map.mp hid
    obtain ⟨hview, hown⟩ := mem_filter.mp hr'
    obtain ⟨o', ho', rfl⟩ := List.mem_map.mp ((reached_isPrefix strategy lots q).subset hview)
    rw [h.side] at hhead
    have hq := (Ladder.mem_rungs.mp (mem_of_head? hhead)).1
    have he' := (Ladder.mem_rungs.mp (show (e.1, e.2) ∈ _ from he)).1
    rw [← hq] at ho'
    rw [← he'] at ho
    obtain ⟨rfl, -⟩ := hr.eq_of_id ho' ho hrid
    rw [foreign, Bool.and_eq_true, bne_iff_ne] at hforeign
    rw [huser] at hown
    exact hforeign.2 (of_decide_eq_true hown)
  have hbal := h.balance
  change had + n.order.remaining = wanted + _
  rw [hbal]
  exact congrArg _ hlotsOf.symm

/-- **An order whose own orders are pulled fills completely** if the others have enough. -/
theorem loop_foreign (h : n.Trading order (foreign order) wanted had)
    (hr : n.book.Realized) (huser : order.user ≠ 0) {k : ℕ} (hk : n.measure < k) :
    (n.loop strategy .cancelMaker seq k).1.order.remaining = 0 ↔ wanted ≤ had := by
  have hstep : ∀ n n' : NaiveCross, n.book.Realized → n.order.remaining ≠ 0 →
      n.Trading order (foreign order) wanted had → n.Turn strategy .cancelMaker seq .continue n' →
      n'.Trading order (foreign order) wanted had := by
    intro n n' hn hrem hc hturn
    cases hturn with
    | pulled hhead => exact hc.pull hn hhead
    | traded ht hown =>
      exact hc.fill hn (stable_foreign order) ht fun o ho hview =>
        hc.foreign_of_mem hn huser (by simp) ht hown ho hview
  obtain ⟨m, m', stopped, hloop, hm, hc, hend⟩ := loop_rule hstep hr h hk
  rw [hloop]
  rcases hend with ⟨hrem, rfl, -⟩ | ⟨hrem, ⟨hturn, -⟩ | ⟨hturn, -⟩⟩
  · have hbal := hc.balance
    exact iff_of_true hrem (by omega)
  · obtain ⟨rfl, hbal⟩ := hc.of_break hm hrem (fun o ho => (Bool.and_eq_true_iff.mp ho).1) hturn
    exact iff_of_false hrem (by omega)
  · cases hturn with
    | stopped _ _ _ _ hmaker => exact absurd rfl hmaker

end Trading

end NaiveCross

/-! ### Submitting -/

/-- A submission that turned the queues `before` into `after` killed the order or filled it. -/
def AllOrNothing (before after : Side → ℕ → List Order) (order : Order) (report : SubmitReport) :
    Prop :=
  report.status = .rejected ∧ report.trades = [] ∧ after = before ∨
    report.status = .filled ∧ (report.trades.map Trade.quantity).sum = order.quantity

/-- When a fill-or-kill order is filled or killed: it reaches too little, meets no order of its own
user before it is filled, or finds enough lots of others where own orders are pulled out of its
way. -/
def FillsOrKills (strategy : Strategy) (stp : SelfTradePolicy) (order : Order)
    (rungs : List (ℕ × List Order)) : Prop :=
  lotsOf (atPrice (reaches order.side order.price)) rungs < order.quantity ∨
    ¬ MeetsOwn strategy stp order order.quantity rungs ∨
    stp = .cancelMaker ∧ order.quantity ≤ lotsOf (foreign order) rungs

namespace NaiveEngine

/-- The crossing loop of an order that reaches enough. -/
theorem cross_remaining (n : NaiveEngine) (hr : n.book.Realized) {order : Order}
    (hqty : order.remaining < 2 ^ 64)
    (hcov : order.remaining ≤ n.book.crossableQty order.side order.price) :
    (n.cross order (2 ^ 128 - 1)).1.order.remaining = 0 ↔
      ¬ MeetsOwn n.strategy n.stp order order.remaining (n.book order.side.opposite).rungs ∨
        n.stp = .cancelMaker ∧
          order.remaining ≤ lotsOf (foreign order) (n.book order.side.opposite).rungs := by
  have hbudget : (2 ^ 64 - 1) * order.remaining ≤ 2 ^ 128 - 1 := by omega
  rw [hr.crossableQty_eq] at hcov
  rw [NaiveEngine.cross]
  generalize hc : NaiveCross.mk n.book order [] (2 ^ 128 - 1) n.stpCancelled = c
  have hcovered : c.Covered n.strategy n.stp order
      (MeetsOwn n.strategy n.stp order order.remaining (n.book order.side.opposite).rungs) := by
    rw [← hc]
    exact ⟨rfl, hbudget, hcov, Iff.rfl⟩
  have hreal : c.book.Realized := by
    rw [← hc]
    exact hr
  by_cases hown : MeetsOwn n.strategy n.stp order order.remaining (n.book order.side.opposite).rungs
  · by_cases hstp : n.stp = .cancelMaker
    · have htrading : c.Trading order (foreign order) order.remaining
          (lotsOf (foreign order) (n.book order.side.opposite).rungs) := by
        rw [← hc]
        exact ⟨rfl, hbudget, add_comm _ _⟩
      rw [hstp, NaiveCross.loop_foreign htrading hreal hown.prevented.2 (lt_add_one _)]
      exact ⟨fun h => .inr ⟨rfl, h⟩, fun h => (h.resolve_left fun hn => hn (hstp ▸ hown)).2⟩
    · rw [NaiveCross.loop_covered hcovered hreal (fun _ => hstp) (lt_add_one _)]
      exact iff_of_false (not_not_intro hown) (not_or.mpr ⟨not_not_intro hown, fun h => hstp h.1⟩)
  · rw [NaiveCross.loop_covered hcovered hreal (fun h => absurd h hown) (lt_add_one _)]
    exact iff_of_true hown (Or.inl hown)

/-- An order without a budget stays as it is. -/
theorem applyBudget_fok (n : NaiveEngine) {order : Order} (htif : order.tif = .fok) :
    n.stamped.applyBudget (n.stampOrder order) = some (n.stampOrder order, 2 ^ 128 - 1) := by
  simp only [applyBudget, stampOrder, htif]

/-- A submission whose budget is known is killed or crosses. -/
theorem submit_eq (n : NaiveEngine) {order order' : Order} {budget : ℕ}
    (hbudget : n.stamped.applyBudget (n.stampOrder order) = some (order', budget)) :
    n.submit order = if n.stamped.FokShort order' then n.stamped.reject order
      else n.stamped.crossAndFinalize order' budget := by
  rw [NaiveEngine.submit, hbudget]

/-- An order that crossed is not rejected, and it is filled if nothing is left of it. -/
theorem crossed_status (n : NaiveEngine) {order : Order} (budget : ℕ)
    (hle : order.remaining ≤ order.quantity) :
    (n.crossAndFinalize order budget).2.status ≠ .rejected ∧
      ((n.crossAndFinalize order budget).2.filled = order.quantity ↔
        (n.cross order budget).1.order.remaining = 0) := by
  obtain ⟨hsame, hrem, -⟩ := n.cross_order order budget
  have hquantity : (n.cross order budget).1.order.quantity = order.quantity := by rw [hsame]
  have hstatus := (NaiveCross.status_facts (n.cross order budget).1 (n.cross order budget).2
    (by omega)).1
  refine ⟨hstatus, ?_⟩
  change (n.cross order budget).1.order.quantity - (n.cross order budget).1.order.remaining = _ ↔ _
  omega

/-- **A fill-or-kill order of the reference** is filled or killed exactly if the rungs let it. -/
theorem submit_fok_iff (n : NaiveEngine) (hr : n.book.Realized) {order : Order}
    (hqty : order.quantity < 2 ^ 64) (htif : order.tif = .fok) :
    AllOrNothing n.book.queue (n.submit order).1.book.queue order (n.submit order).2 ↔
      FillsOrKills n.strategy n.stp order (n.book order.side.opposite).rungs := by
  have hc := n.submit_conserves hr order
  have hsubmit := n.submit_eq (n.applyBudget_fok htif)
  rw [FillsOrKills, ← hr.crossableQty_eq]
  by_cases hshort : n.stamped.FokShort (n.stampOrder order)
  · rw [hsubmit, if_pos hshort]
    exact iff_of_true (.inl ⟨rfl, rfl, rfl⟩) (Or.inl hshort.2)
  · rw [if_neg hshort] at hsubmit
    have hcov : order.quantity ≤ n.book.crossableQty order.side order.price := by
      by_contra hlt
      exact hshort ⟨htif, Nat.lt_of_not_le hlt⟩
    have hcross := @cross_remaining n.stamped hr (n.stampOrder order) hqty hcov
    rw [meetsOwn_congr (show (n.stampOrder order).user = order.user from rfl)] at hcross
    obtain ⟨hnot, hfilled⟩ := @crossed_status n.stamped (n.stampOrder order) (2 ^ 128 - 1) le_rfl
    rw [← hsubmit] at hnot hfilled
    have hall : AllOrNothing n.book.queue (n.submit order).1.book.queue order (n.submit order).2 ↔
        (n.submit order).2.filled = (n.stampOrder order).quantity := by
      rw [AllOrNothing, hc.filled_iff hnot, ← hc.filled_eq]
      exact ⟨fun h => (h.resolve_left fun h => hnot h.1).1, fun h => .inr ⟨h, h⟩⟩
    rw [hall, hfilled, hcross]
    exact ⟨.inr, fun h => h.resolve_left (Nat.not_lt.mpr hcov)⟩

end NaiveEngine

/-- What the machine integers ask of an order that never rests: its precheck does not overflow. -/
theorem NaiveEngine.admits_iff {n : NaiveEngine} {budget : ℕ}
    (hbudget : n.stamped.applyBudget (n.stampOrder order) = some (order', budget))
    (htif : order'.tif ≠ .gtc) :
    n.Admits order ↔
      (order'.tif = .fok → n.book.crossableQty order'.side order'.price < 2 ^ 64) := by
  constructor
  · exact fun h => h.1 (order', budget) hbudget
  · refine fun h => ⟨fun r hr => ?_, fun r hr _ c stopped hc hrests => ?_⟩
    · rw [hbudget] at hr
      cases hr
      exact h
    · rw [hbudget] at hr
      cases hr
      have hsame := (n.stamped.cross_order order' budget).1
      rw [hc] at hsame
      have hgtc := hrests.2.2.2
      rw [hsame] at hgtc
      exact absurd hgtc htif

namespace MatchingEngine

/-- A property of a submission that never rests holds of an engine exactly if it holds of the
reference and the machine integers let the submission return. -/
theorem Refines.submit_iff {e : MatchingEngine} {n : NaiveEngine} (h : e.Refines n) {order : Order}
    (horder : order.InRange) (htif : order.tif ≠ .gtc)
    (P : (Side → ℕ → List Order) → (Side → ℕ → List Order) → SubmitReport → Prop) :
    (∃ e' report, e.submit order = some (e', report) ∧ P e.book.queue e'.book.queue report) ↔
      n.Admits order ∧ P n.book.queue (n.submit order).1.book.queue (n.submit order).2 := by
  have hroom : order.tif = .gtc → e.book.HasRoom := fun h => absurd h htif
  rw [h.queue_eq]
  constructor
  · rintro ⟨e', report, hsubmit, hP⟩
    obtain ⟨rfl, hn', hadm⟩ := h.of_submit hroom horder.price horder.quantity hsubmit
    exact ⟨hadm, hn'.queue_eq ▸ hP⟩
  · rintro ⟨hadm, hP⟩
    obtain ⟨e', hsubmit, hn'⟩ := h.submit hroom horder.price horder.quantity hadm
    exact ⟨e', _, hsubmit, hn'.queue_eq ▸ hP⟩

/-- **Fill or kill.** In every engine that a run reaches with room in its slab before each call, a
fill-or-kill order is filled completely or killed without a trace exactly if the lots that it
reaches fit in 64 bits and `FillsOrKills` holds of the book before. -/
theorem fok_iff (strategy : Strategy) (stp : SelfTradePolicy) (maxOrders : ℕ) (prefault : Bool)
    (calls : List (HashOrder × Call)) (hin : ∀ c ∈ calls, c.2.InRange)
    (hroomy : (fresh strategy stp maxOrders prefault).Roomy calls) (e : MatchingEngine)
    (outcomes : List Outcome)
    (hrun : (fresh strategy stp maxOrders prefault).run calls = some (e, outcomes)) (order : Order)
    (horder : order.InRange) (htif : order.tif = .fok) :
    (∃ e' report, e.submit order = some (e', report) ∧
      AllOrNothing e.book.queue e'.book.queue order report) ↔
      lotsOf (atPrice (reaches order.side order.price)) (e.book.rungs order.side.opposite) <
          2 ^ 64 ∧
        FillsOrKills strategy stp order (e.book.rungs order.side.opposite) := by
  obtain ⟨n, hn, hstrategy, hstp⟩ := exists_refines strategy stp maxOrders prefault hin
    hroomy hrun
  have hreal : n.book.Realized := ⟨e.book, hn.book⟩
  have hadmits : n.Admits order ↔ n.book.crossableQty order.side order.price < 2 ^ 64 := by
    rw [NaiveEngine.admits_iff (n.applyBudget_fok htif) (by simp [NaiveEngine.stampOrder, htif])]
    exact ⟨fun h => h htif, fun h _ => h⟩
  rw [hn.book.rungs, ← hreal.crossableQty_eq, ← hadmits, ← hstrategy, ← hstp,
    ← n.submit_fok_iff hreal horder.quantity htif]
  exact hn.submit_iff horder (by simp [htif]) fun before after report =>
    AllOrNothing before after order report

/-- A fill-or-kill order under the policy that stops the taker: the ask of its own user is behind
the lots that it wants. -/
theorem fok_iff_ownBehind : ∃ e outcomes e' report,
    (fresh .priceTimePriority .cancelTaker 4 true).run
      [(1, .submit ((Order.limit 1 .sell 101 5).by_ 8)),
        (1, .submit ((Order.limit 2 .sell 101 3).by_ 7))] = some (e, outcomes) ∧
      e.submit (((Order.limit 3 .buy 102 5).by_ 7).withTif .fok) = some (e', report) ∧
      AllOrNothing e.book.queue e'.book.queue (((Order.limit 3 .buy 102 5).by_ 7).withTif .fok)
        report := by
  have hrun : ((fresh .priceTimePriority .cancelTaker 4 true).run
      [(1, .submit ((Order.limit 1 .sell 101 5).by_ 8)),
        (1, .submit ((Order.limit 2 .sell 101 3).by_ 7))]).map
        (fun r => decide (lotsOf (atPrice (reaches .buy 102)) (r.1.book.rungs .sell) = 8 ∧
          ¬ MeetsOwn .priceTimePriority .cancelTaker
            (((Order.limit 3 .buy 102 5).by_ 7).withTif .fok) 5 (r.1.book.rungs .sell))) =
      some true := by decide +kernel
  obtain ⟨⟨e, outcomes⟩, hrun, hres⟩ := map_eq_some_iff.mp hrun
  obtain ⟨hlots, hown⟩ := of_decide_eq_true hres
  obtain ⟨e', report, hsubmit, hall⟩ := (fok_iff .priceTimePriority .cancelTaker 4 true _
    (by decide) (roomy_of_length (by decide) (by decide)) e outcomes hrun
    (((Order.limit 3 .buy 102 5).by_ 7).withTif .fok) (by decide) rfl).mpr
    ⟨lt_of_le_of_lt (le_of_eq hlots) (by decide), .inr (Or.inl hown)⟩
  exact ⟨e, outcomes, e', report, hrun, hsubmit, hall⟩

/-- The precheck counts the ask of the order's own user. It is pulled out of the way, and the order
is left with three lots of the six that it wants. -/
theorem fok_partially_filled : ∃ e outcomes e' report,
    (fresh .priceTimePriority .cancelMaker 4 true).run
      [(1, .submit ((Order.limit 1 .sell 101 5).by_ 7)),
        (1, .submit ((Order.limit 2 .sell 101 3).by_ 8))] = some (e, outcomes) ∧
      e.submit (((Order.limit 3 .buy 101 6).by_ 7).withTif .fok) = some (e', report) ∧
      report.status = .partiallyFilled ∧ (report.trades.map Trade.quantity).sum = 3 ∧
      ¬ AllOrNothing e.book.queue e'.book.queue (((Order.limit 3 .buy 101 6).by_ 7).withTif .fok)
        report := by
  have hrun : ((fresh .priceTimePriority .cancelMaker 4 true).run
      [(1, .submit ((Order.limit 1 .sell 101 5).by_ 7)),
        (1, .submit ((Order.limit 2 .sell 101 3).by_ 8))]).map
        (fun r => (r.1.submit (((Order.limit 3 .buy 101 6).by_ 7).withTif .fok)).map fun r' =>
          (r'.2.status, (r'.2.trades.map Trade.quantity).sum)) =
      some (some (.partiallyFilled, 3)) := by decide +kernel
  obtain ⟨⟨e, outcomes⟩, hrun, hres⟩ := map_eq_some_iff.mp hrun
  obtain ⟨⟨e', report⟩, hsubmit, hreport⟩ := map_eq_some_iff.mp hres
  obtain ⟨hstatus, hsum⟩ := Prod.mk.inj hreport
  refine ⟨e, outcomes, e', report, hrun, hsubmit, hstatus, hsum, ?_⟩
  rintro (⟨hrejected, -⟩ | ⟨hfilled, -⟩)
  · rw [show report.status = _ from hstatus] at hrejected
    cases hrejected
  · rw [show report.status = _ from hstatus] at hfilled
    cases hfilled

end MatchingEngine

end TradeCore
