import TradeCore.BookRun

/-!
# The Engine in Any State

What the calls of the engine do to the slab, whatever the slots of a queue refer to. In every
reachable state the id index finds a live record under its id (`OrderBook.Charted`). Crossing,
cancelling and reducing thin the book, and a turn of the crossing loop names what it removed and
what it traded (`Cross.Crosses`); inserting is the only step that writes a record
(`OrderBook.Fills`). What a single trade says holds with or without room in the slab: who
takes, at which price the order may trade, which resting order makes, and that self-trade
prevention keeps the taker and its own orders apart (`Trade.Of`).

## Main results

* `crossPass_crosses`, `crossLoop_crosses` — the crossing loop.
* `OrderBook.fills_insert`, `OrderBook.Charted.insert` — the step that writes a record.
* `MatchingEngine.submit_crosses`, `MatchingEngine.modify_slab` — the engine.
* `MatchingEngine.call_cases`, `MatchingEngine.run_induction` — calls and runs.
-/

namespace TradeCore

open Std List Option

namespace OrderBook

variable {order : Order} {b b' : OrderBook}

/-- **Charted**: the levels are tidy, slot numbers in use fit their type, and the id index
finds the live records. -/
structure Charted (b : OrderBook) : Prop where
  tidy : b.Tidy
  indexed : b.Indexed
  free : ∀ i ∈ b.pool.free, i < 2 ^ 32
  queued : ∀ s p lv, (b.side s).level? p = some lv → ∀ i ∈ lv.orders, i < 2 ^ 32

/-- Wearing keeps a book charted. -/
theorem Charted.wears (h : b.Charted) (hw : b.Wears b') : b'.Charted where
  tidy := hw.tidy
  indexed := hw.indexed h.indexed
  free := by
    intro i hi
    rcases hw.free i hi with hi | ⟨s, p, lv, hlv, hi⟩
    · exact h.free i hi
    · exact h.queued s p lv hlv i hi
  queued := by
    intro s p lv' hlv' i hi
    obtain ⟨lv, hlv, hsub⟩ := hw.level s p lv' hlv'
    exact h.queued s p lv hlv i (hsub hi)

/-- A book with room for its records is charted. -/
theorem Inv.charted (h : b.Inv) (hocc : b.Occupied) : b.Charted where
  tidy := ⟨h.index, hocc⟩
  indexed := fun i o _ ho hlive => (h.located o.id i).mpr ⟨o, ho, hlive, rfl⟩
  free := fun i hi => ((h.free_iff i).mp hi).1.trans h.bounded
  queued := by
    intro s p lv hlv i hi
    have hmem : i ∈ b.queueSlots s p := by
      rw [queueSlots, hlv]
      exact hi
    exact (h.queueSlots_lt hmem).trans h.bounded

/-- The book of a new engine is charted. -/
theorem charted_withCapacity (maxOrders : ℕ) (prefault : Bool) :
    (OrderBook.withCapacity maxOrders prefault).Charted :=
  (Inv.withCapacity maxOrders prefault).charted (Occupied.withCapacity maxOrders prefault)

/-! ### Inserting -/

/-- `b'` is `b` with one more record, perhaps in the place of another. -/
structure Fills (b b' : OrderBook) (order : Order) : Prop where
  record : ∀ i o', b'.pool.get i = some o' → o' = order ∨ b.pool.get i = some o'
  counts : ∀ user, user ≠ 0 → b'.userOpenOrders user =
    b.userOpenOrders user + if user = order.user then 1 else 0
  live : ∀ user, liveCount b'.pool.slots user ≤
    liveCount b.pool.slots user + if user = order.user then 1 else 0

/-- **An insertion writes one record.** -/
theorem fills_insert (h : b.insert order = some b') :
    b.Fills b' order := by
  obtain ⟨slot, pool, x, counts, hlive, -, halloc, -, hcounts, rfl⟩ := insert_eq_some h
  refine ⟨fun i o' ho' => ?_, fun user huser => getD_countUserUp hcounts huser, fun user => ?_⟩
  · simp only [OrderPool.get] at ho' ⊢
    rcases alloc_eq_some halloc with ⟨-, -, hslots⟩ | ⟨-, -, hslots, -⟩ <;> grind
  · rcases alloc_eq_some halloc with ⟨hlt, -, hslots⟩ | ⟨-, -, hslots, -⟩
    · simp only [hslots]
      rw [liveCount_set (getElem?_eq_getElem hlt)]
      grind
    · simp only [hslots, liveCount, countP_append, countP_singleton]
      grind

/-- The slot of a new record fits its type. -/
theorem Charted.alloc_lt (h : b.Charted) {slot : ℕ} {pool : OrderPool}
    (halloc : b.pool.alloc order = some (slot, pool)) : slot < 2 ^ 32 := by
  rcases alloc_eq_some halloc with ⟨-, hfree, -⟩ | ⟨-, rfl, -⟩
  · exact h.free slot (by rw [hfree]; exact mem_cons_self)
  · exact Nat.mod_lt _ (Nat.two_pow_pos 32)

/-- An insertion keeps a book charted. -/
theorem Charted.insert (h : b.Charted) (hprice : order.price < 2 ^ 64)
    (hi : b.insert order = some b') : b'.Charted := by
  obtain ⟨slot, pool, x, counts, -, hnew, halloc, hpush, -, rfl⟩ := insert_eq_some hi
  obtain ⟨lv, horders, hlive, hrel⟩ :=
    h.tidy.relevels_push hprice hpush pool (b.locate.insert order.id slot) counts
  have hslot := h.alloc_lt halloc
  -- a record that was there before keeps its entry, because its id is not the new one
  have hold : ∀ i o, i < 2 ^ 32 → b.pool.get i = some o → 0 < o.remaining →
      (b.locate.insert order.id slot)[o.id]? = some i := by
    intro i o hi ho hlive'
    have hfound := h.indexed i o hi ho hlive'
    have hne : o.id ≠ order.id := by
      intro hc
      rw [hc] at hfound
      exact hnew (ExtTreeMap.mem_iff_isSome_getElem?.mpr (by rw [hfound]; rfl))
    rw [getElem?_insert_nat, if_neg hne]
    exact hfound
  have hself : (b.locate.insert order.id slot)[order.id]? = some slot := by
    rw [getElem?_insert_nat, if_pos rfl]
  refine ⟨⟨hrel.index, hrel.occupied (h.tidy.occupied.except _ _) fun lv' hlv' => ?_⟩,
    fun i o hi' ho hlive' => ?_, fun i hi => ?_, fun s p lv' hlv' i hi => ?_⟩
  · rw [← some.inj hlv']
    exact hlive
  · have hold := hold i o hi'
    simp only [OrderPool.get] at ho hold
    rcases alloc_eq_some halloc with ⟨hlt, -, hslots⟩ | ⟨-, rfl, hslots, -⟩
    · grind
    · have hmod : i = b.pool.slots.length → b.pool.slots.length % 2 ^ 32 = i := fun hlen =>
        hlen ▸ Nat.mod_eq_of_lt hi'
      grind
  · have hfree : i ∈ b.pool.free := by
      rcases alloc_eq_some halloc with ⟨-, hfree, -⟩ | ⟨-, -, -, hfree⟩
      · rw [hfree]
        exact mem_cons_of_mem _ hi
      · exact hfree ▸ hi
    exact h.free i hfree
  · rw [hrel.level?] at hlv'
    split at hlv'
    · cases hlv'
      rw [horders] at hi
      rcases mem_append.mp hi with hi | hi
      · cases hlv : (b.side order.side).level? order.price with
        | none => simp [hlv] at hi
        | some lv₀ =>
          rw [hlv] at hi
          exact h.queued _ _ lv₀ hlv i hi
      · rw [mem_singleton.mp hi]
        exact hslot
    · exact h.queued s p lv' hlv' i hi

/-! ### Resting orders -/

/-- What is left of a resting order rested before. -/
theorem Wears.exists_rests (h : b.Charted) (hw : b.Wears b') {o' : Order} (ho' : b'.Rests o') :
    ∃ o, b.Rests o ∧ SameOrder o o' := by
  obtain ⟨i, hi, -, hget, hlive⟩ := ho'
  obtain ⟨o, ho, hsame, hle⟩ := hw.record i o' hget
  have hlive' : 0 < o.remaining := Nat.lt_of_lt_of_le hlive hle
  exact ⟨o, ⟨i, hi, h.indexed i o hi ho hlive', ho, hlive'⟩, hsame⟩

/-- What reading a level gives: a thinned book with the same records, and live ones of them. -/
structure Views (b b' : OrderBook) (s : Side) (p : ℕ) (view : List RestingOrder) : Prop where
  thins : b.Thins b' []
  locate : b'.locate = b.locate
  slots : b'.pool.slots = b.pool.slots
  total : viewTotal view < 2 ^ 64
  record : ∀ r ∈ view, ∃ i lv o, (b'.side s).level? p = some lv ∧ i ∈ lv.orders ∧
    b'.pool.get i = some o ∧ 0 < o.remaining ∧ r = o.toResting

/-- The view of the best level, for every strategy. -/
theorem Tidy.levelViewFor (h : b.Tidy) {strategy : Strategy} {s : Side} {px lots : ℕ}
    {view : List RestingOrder}
    (hv : TradeCore.levelViewFor strategy b s px lots = some (view, b')) :
    b.Views b' s px view := by
  rw [TradeCore.levelViewFor] at hv
  split at hv
  all_goals
    obtain ⟨hthins, hlocate, hslots, htotal, hrecord⟩ := h.levelViewCapped hv
    exact ⟨hthins, hlocate, hslots, htotal, hrecord⟩

section Views

variable {b b' : OrderBook} {s : Side} {p : ℕ} {view : List RestingOrder} (hv : b.Views b' s p view)

include hv

/-- A view lists live orders. -/
theorem Views.pos : ∀ r ∈ view, 0 < r.remaining := by
  intro r hr
  obtain ⟨i, lv, o, -, -, -, hlive, rfl⟩ := hv.record r hr
  exact hlive

/-- A view lists resting orders. -/
theorem Views.rests (h : b.Charted) {r : RestingOrder} (hr : r ∈ view) :
    ∃ o, b.Rests o ∧ r = o.toResting := by
  have h' := h.wears hv.thins.wears
  obtain ⟨i, lv, o, hlv, hi, hget, hlive, heq⟩ := hv.record r hr
  have hlt := h'.queued s p lv hlv i hi
  have hloc := h'.indexed i o hlt hget hlive
  rw [hv.locate] at hloc
  rw [OrderPool.get_congr hv.slots] at hget
  exact ⟨o, ⟨i, hlt, hloc, hget, hlive⟩, heq⟩

end Views

/-- Self-trade prevention removes the taker's orders of the view. -/
theorem Tidy.cancelOwn {view : List RestingOrder} (h : b.Tidy) {user : ℕ} {stp ids : List ℕ}
    (hc : TradeCore.cancelOwn user view b stp = some (b', ids)) :
    ∃ own, ids = stp ++ own ∧ b.Thins b' own ∧
      ∀ id ∈ own, ∃ r ∈ view, r.id = id ∧ r.user = user := by
  induction view generalizing b stp with
  | nil =>
    cases hc
    exact ⟨[], (append_nil _).symm, h.thins, nofun⟩
  | cons r view ih =>
    rw [TradeCore.cancelOwn] at hc
    split at hc
    · simp only [bind, bind_eq_some_iff, Prod.exists] at hc
      obtain ⟨o, b₁, hcancel, hc⟩ := hc
      have ht := h.cancel hcancel
      obtain ⟨own, rfl, ht', hown⟩ := ih ht.tidy hc
      refine ⟨r.id :: own, by rw [append_assoc]; rfl, ht.trans ht', ?_⟩
      refine forall_mem_cons.mpr ⟨⟨r, mem_cons_self, rfl, ‹_›⟩, fun id hid => ?_⟩
      exact (hown id hid).imp fun r' hr' => ⟨mem_cons_of_mem _ hr'.1, hr'.2⟩
    · obtain ⟨own, rfl, ht, hown⟩ := ih h hc
      refine ⟨own, rfl, ht, fun id hid => ?_⟩
      exact (hown id hid).imp fun r' hr' => ⟨mem_cons_of_mem _ hr'.1, hr'.2⟩

end OrderBook

/-! ### Crossing -/

/-- What a trade of the taker `order` against the book `b` says. -/
structure Trade.Of (t : Trade) (b : OrderBook) (stp : SelfTradePolicy) (order : Order) : Prop where
  taker : t.taker = order.id
  takerUser : t.takerUser = order.user
  aggressor : t.aggressor = order.side
  crosses : crossable order t.price = true
  /-- The maker rests in the book, and it is not the taker's own order where that matters. -/
  maker : ∃ o, b.Rests o ∧ o.id = t.maker ∧ (stp ≠ .allow → order.user ≠ 0 → o.user ≠ order.user)
  makerUser : stp ≠ .allow → order.user ≠ 0 → t.makerUser ≠ order.user

/-- Turns of the crossing loop that removed the orders `own` of the taker's user and made the
trades `later`. -/
structure Cross.Crosses (stp : SelfTradePolicy) (c c' : Cross) (own : List ℕ)
    (later : List Trade) : Prop where
  thins : c.book.Thins c'.book (own ++ later.map Trade.maker)
  same : SameOrder c.order c'.order
  le : c'.order.remaining ≤ c.order.remaining
  cancelled : c'.stpCancelled = c.stpCancelled ++ own
  trades : c'.trades = c.trades ++ later
  removed : ∀ id ∈ own, stp ≠ .cancelTaker ∧ c.order.user ≠ 0 ∧
    ∃ o, c.book.Rests o ∧ o.id = id ∧ o.user = c.order.user
  of : ∀ t ∈ later, t.Of c.book stp c.order

section Crossing

variable {strategy : Strategy} {stp : SelfTradePolicy} {seq : ℕ} {c c₁ c' : Cross}

/-- A turn that removes and trades nothing. -/
theorem Cross.Crosses.of_book {b : OrderBook} (h : c.book.Thins b []) :
    Cross.Crosses stp c { c with book := b } [] [] :=
  ⟨h, rfl, le_rfl, (append_nil _).symm, (append_nil _).symm, nofun, nofun⟩

/-- Turn after turn. -/
theorem Cross.Crosses.trans {own own' : List ℕ} {later later' : List Trade}
    (hc : c.book.Charted) (h : Cross.Crosses stp c c₁ own later)
    (h' : Cross.Crosses stp c₁ c' own' later') :
    Cross.Crosses stp c c' (own ++ own') (later ++ later') where
  thins :=
    { h.thins.trans h'.thins with
      spares := fun hknown => by
        have hs := (h.thins.trans h'.thins).spares fun id hid => hknown id (by
          simp only [map_append, mem_append] at hid ⊢
          tauto)
        refine ⟨fun o ho hid => hs.rests o ho ?_, hs.known⟩
        simp only [map_append, mem_append] at hid ⊢
        tauto }
  same := h.same.trans h'.same
  le := h'.le.trans h.le
  cancelled := by rw [h'.cancelled, h.cancelled, append_assoc]
  trades := by rw [h'.trades, h.trades, append_assoc]
  removed := by
    intro id hid
    rcases mem_append.mp hid with hid | hid
    · exact h.removed id hid
    · obtain ⟨hstp, huser, o', ho', hid', hown⟩ := h'.removed id hid
      obtain ⟨o, ho, hsame⟩ := h.thins.wears.exists_rests hc ho'
      rw [h.same] at huser hown
      rw [hsame] at hid' hown
      exact ⟨hstp, huser, o, ho, hid', hown⟩
  of := by
    intro t ht
    rcases mem_append.mp ht with ht | ht
    · exact h.of t ht
    · have hof := h'.of t ht
      rw [h.same] at hof
      obtain ⟨o', ho', hid, hown⟩ := hof.maker
      obtain ⟨o, ho, hsame⟩ := h.thins.wears.exists_rests hc ho'
      rw [hsame] at hid hown
      exact ⟨hof.taker, hof.takerUser, hof.aggressor, hof.crosses, ⟨o, ho, hid, hown⟩,
        hof.makerUser⟩

/-- No order of an attributed taker is in a view that self-trade prevention lets through. -/
theorem not_own_of_mem {order : Order} {view : List RestingOrder}
    (h : ¬ ownInView stp order view) {r : RestingOrder} (hr : r ∈ view) (hstp : stp ≠ .allow)
    (huser : order.user ≠ 0) : r.user ≠ order.user := by
  intro hown
  refine h ⟨hstp, huser, List.any_eq_true.mpr ⟨r, hr, ?_⟩⟩
  simpa using hown

/-- **A turn of the crossing loop.** -/
theorem crossPass_crosses {flow : Flow} (h : c.book.Charted)
    (hpass : crossPass strategy stp seq c = some (flow, c')) :
    ∃ own later, Cross.Crosses stp c c' own later := by
  rcases crossPass_cases hpass with ⟨-, rfl, -⟩ | ⟨px, view, book, -, hcross, hlots, hview, hcases⟩
  · exact ⟨[], [], .of_book h.tidy.thins⟩
  · have hv := h.tidy.levelViewFor hview
    rcases hcases with ⟨hown, book', ids, hcancel, hpolicy, rfl⟩ | ⟨-, -, -, rfl⟩ | ⟨-, -, -, rfl⟩ |
      ⟨hown, hne, hfill⟩
    · obtain ⟨own, rfl, ht, hids⟩ := hv.thins.tidy.cancelOwn hcancel
      refine ⟨own, [], ?_, rfl, le_rfl, rfl, (append_nil _).symm, fun id hid => ?_, nofun⟩
      · have hall := hv.thins.trans ht
        rwa [nil_append, ← append_nil own] at hall
      · obtain ⟨r, hr, rfl, huser⟩ := hids id hid
        obtain ⟨o, ho, rfl⟩ := hv.rests h hr
        refine ⟨?_, hown.2.1, o, ho, rfl, huser⟩
        rcases hpolicy with ⟨rfl, -⟩ | ⟨rfl, -⟩ <;> simp
    · exact ⟨[], [], .of_book hv.thins⟩
    · exact ⟨[], [], .of_book hv.thins⟩
    · obtain ⟨book', hfills, -, rfl⟩ := crossFill_cases hv.pos hv.total hne hlots hfill
      refine ⟨[], _, ?_, rfl, Nat.sub_le _ _, (append_nil _).symm, rfl, nofun, fun t ht => ?_⟩
      · have hall := hv.thins.trans (hv.thins.tidy.applyFills hfills)
        rw [List.map_map] at hall ⊢
        exact hall
      · obtain ⟨a, ha, rfl⟩ := List.mem_map.mp ht
        refine ⟨rfl, rfl, rfl, hcross, ?_, fun hstp huser => ?_⟩
        · obtain ⟨r, hr, hid⟩ := exists_of_mem_allocate strategy (fun _ => hv.total) ha
          obtain ⟨o, ho, rfl⟩ := hv.rests h hr
          exact ⟨o, ho, hid.symm, fun hstp huser => not_own_of_mem hown hr hstp huser⟩
        · -- a position outside the view would read as user 0
          simp only [tradeOf]
          cases hget : view[a.idx]? with
          | none => exact Ne.symm huser
          | some r => exact not_own_of_mem hown (mem_of_getElem? hget) hstp huser

/-- **The crossing loop.** -/
theorem crossLoop_crosses {n : ℕ} {stopped : Bool} (h : c.book.Charted)
    (hloop : crossLoop strategy stp seq n c = some (c', stopped)) :
    ∃ own later, Cross.Crosses stp c c' own later := by
  refine (crossLoop_induction (P := fun c₁ => ∃ own later, Cross.Crosses stp c c₁ own later)
    (fun c₁ flow c₂ _ hc₁ hpass => ?_) ⟨[], [], .of_book h.tidy.thins⟩ hloop).1
  obtain ⟨own, later, h₁⟩ := hc₁
  obtain ⟨own', later', h₂⟩ := crossPass_crosses (h.wears h₁.thins.wears) hpass
  exact ⟨_, _, h₁.trans h h₂⟩

/-- The loop does nothing when the best price is out of reach. -/
theorem crossLoop_out_of_reach {n : ℕ} {stopped : Bool}
    (hout : ∀ px, c.book.best c.order.side.opposite = some px → crossable c.order px = false)
    (hloop : crossLoop strategy stp seq n c = some (c', stopped)) : c' = c := by
  refine (crossLoop_induction (P := fun c₁ => c₁ = c) (fun c₁ flow c₂ _ hc₁ hpass => ?_) rfl
    hloop).1
  subst hc₁
  rcases crossPass_cases hpass with ⟨-, heq, -⟩ | ⟨px, view, book, hbest, hcross, -⟩
  · exact heq
  · rw [hout px hbest] at hcross
    cases hcross

end Crossing

/-! ### Engine calls -/

namespace MatchingEngine

variable {ω : HashOrder} {order : Order} {report : SubmitReport}

variable {e e' : MatchingEngine}

/-- What may be left to rest of an order that an engine with sequence number `seq` took. -/
structure RestOf (seq : ℕ) (order rest : Order) : Prop where
  same : rest = { order with timestamp := seq, remaining := rest.remaining }
  le : rest.remaining ≤ order.quantity
  orderType : order.orderType = .limit
  tif : order.tif = .gtc

/-- **A submit**: crossing, for the order as the budget step left it, then perhaps the
remainder. -/
theorem submit_crosses (h : e.book.Charted) (hs : e.submit order = some (e', report)) :
    e'.seq = wrappingAdd 64 e.seq 1 ∧ e'.strategy = e.strategy ∧ e'.stp = e.stp ∧
      ∃ taker c c', (taker.id = order.id ∧ taker.user = order.user ∧ taker.side = order.side ∧
        (order.tif ≠ .iocBudget → order.tif ≠ .fokBudget →
          taker.price = order.price ∧ taker.orderType = order.orderType)) ∧
        c.book = e.book ∧ c.order = taker ∧
        Cross.Crosses e.stp c c' e'.stpCancelled report.trades ∧
        (e'.book = c'.book ∨
          ∃ rest, RestOf e'.seq order rest ∧ c'.book.insert rest = some e'.book) := by
  rcases submit_eq_some hs with ⟨rfl, rfl⟩ | ⟨order', budget, c, stopped, hbudget, -, hcross, -,
    htrades,
    -, hend⟩
  · exact ⟨rfl, rfl, rfl, order, ⟨e.book, order, [], 0, []⟩, _,
      ⟨rfl, rfl, rfl, fun _ _ => ⟨rfl, rfl⟩⟩, rfl, rfl, .of_book h.tidy.thins, .inl rfl⟩
  · obtain ⟨price, tif, hsame, hnone, hgtc⟩ := applyBudget_eq_some hbudget
    obtain ⟨own, later, hc⟩ := crossLoop_crosses (c := ⟨e.book, order', [], budget, []⟩) h hcross
    have htaker : order'.id = order.id ∧ order'.user = order.user ∧ order'.side = order.side ∧
        (order.tif ≠ .iocBudget → order.tif ≠ .fokBudget →
          order'.price = order.price ∧ order'.orderType = order.orderType) := by
      refine ⟨by rw [hsame], by rw [hsame], by rw [hsame], fun h₁ h₂ => ?_⟩
      rw [(hnone h₁ h₂).1]
      exact ⟨rfl, rfl⟩
    have hown : c.stpCancelled = own := hc.cancelled
    have hlater : c.trades = later := hc.trades
    rw [htrades, hlater]
    rcases hend with ⟨rfl, -⟩ | ⟨-, -, htype, htif, ⟨book, hins, rfl⟩, -⟩
    · refine ⟨rfl, rfl, rfl, order', ⟨e.book, order', [], budget, []⟩, c, htaker, rfl, rfl, ?_,
        .inl rfl⟩
      rw [← hown] at hc
      exact hc
    · refine ⟨rfl, rfl, rfl, order', ⟨e.book, order', [], budget, []⟩, c, htaker, rfl, rfl, ?_,
        .inr ⟨c.order, ?_, hins⟩⟩
      · rw [← hown] at hc
        exact hc
      · have hsame' := hc.same
        have hle := hc.le
        simp only [SameOrder] at hsame' hle
        rw [hsame'] at htype htif
        rw [(hgtc htif).1] at hsame' hle htype htif
        exact ⟨hsame', hle, htype, htif⟩

/-- **The trades of a submit.** The taker of each is the order, as the budget step left it. -/
theorem submit_trades (h : e.book.Charted) (hs : e.submit order = some (e', report)) :
    ∃ taker : Order, taker.id = order.id ∧ taker.user = order.user ∧ taker.side = order.side ∧
      (order.tif ≠ .iocBudget → order.tif ≠ .fokBudget →
        taker.price = order.price ∧ taker.orderType = order.orderType) ∧
      ∀ t ∈ report.trades, t.Of e.book e.stp taker := by
  obtain ⟨-, -, -, taker, c, c', ⟨hid, huser, hside, hlimit⟩, hbook, horder, hc, -⟩ :=
    submit_crosses h hs
  exact ⟨taker, hid, huser, hside, hlimit, fun t ht => hbook ▸ horder ▸ hc.of t ht⟩

/-- **An order out of reach of the best price does not trade.** -/
theorem submit_trades_nil (htif : order.tif = .gtc)
    (hout : ∀ px, e.book.best order.side.opposite = some px → crossable order px = false)
    (hs : e.submit order = some (e', report)) : report.trades = [] := by
  rcases submit_eq_some hs with ⟨rfl, rfl⟩ | ⟨order', budget, c, stopped, hbudget, -, hcross, -,
    htrades,
    -⟩
  · rfl
  · obtain ⟨-, -, -, hsame, -⟩ := applyBudget_eq_some hbudget
    obtain ⟨rfl, -⟩ := hsame (by simp [htif]) (by simp [htif])
    rw [htrades, crossLoop_out_of_reach hout hcross]

/-- The book after a submit: thinned by the crossing, then perhaps with the remainder. -/
theorem submit_slab (h : e.book.Charted) (hs : e.submit order = some (e', report)) :
    e'.seq = wrappingAdd 64 e.seq 1 ∧ e'.strategy = e.strategy ∧ e'.stp = e.stp ∧
      ∃ b, (∃ ids, e.book.Thins b ids) ∧ (e'.book = b ∨
        ∃ rest, RestOf e'.seq order rest ∧ b.insert rest = some e'.book) := by
  obtain ⟨hseq, hstrategy, hstp, -, c, c', -, hbook, -, hc, hend⟩ := submit_crosses h hs
  exact ⟨hseq, hstrategy, hstp, c'.book, ⟨_, hbook ▸ hc.thins⟩, hend⟩

/-- Cancelling one by one thins the book. -/
theorem thins_cancelEach {ids : List ℕ} {b b' : OrderBook} (ht : b.Tidy)
    (h : cancelEach b ids = some b') : b.Thins b' ids := by
  induction ids generalizing b with
  | nil =>
    obtain rfl : b = b' := by simpa [cancelEach] using h
    exact ht.thins
  | cons id ids ih =>
    simp only [cancelEach, foldlM_cons, bind, bind_eq_some_iff, Prod.exists,
      Option.pure_def, some.injEq] at h
    obtain ⟨b₁, ⟨o, b₂, hcancel, rfl⟩, h⟩ := h
    have ht₁ := ht.cancel hcancel
    exact ht₁.trans (ih ht₁.tidy h)

/-- A cancel thins the book. -/
theorem cancel_slab (ht : e.book.Tidy) {id : ℕ} {removed : Bool}
    (h : e.cancel id = some (e', removed)) :
    e.book.Thins e'.book [id] ∧ e' = { e with book := e'.book } := by
  simp only [cancel, bind, bind_eq_some_iff, Prod.exists, Option.pure_def,
    some.injEq, Prod.mk.injEq] at h
  obtain ⟨o, book, hcancel, rfl, -⟩ := h
  exact ⟨ht.cancel hcancel, rfl⟩

/-- Cancelling all orders of a user thins the book. -/
theorem cancelAllForUser_slab (ht : e.book.Tidy) {user : ℕ} {ids : List ℕ}
    (h : e.cancelAllForUser ω user = some (e', ids)) :
    e.book.Thins e'.book ids ∧ e' = { e with book := e'.book } := by
  simp only [cancelAllForUser, bind, bind_eq_some_iff, Option.pure_def,
    some.injEq, Prod.mk.injEq] at h
  obtain ⟨ids', -, book, hcancel, rfl, rfl⟩ := h
  exact ⟨thins_cancelEach ht hcancel, rfl⟩

/-- **The book after an amendment**: thinned, or thinned and resubmitted. -/
theorem modify_slab (ht : e.book.Tidy) {id newPrice newQty : ℕ} {outcome : ModifyOutcome}
    (h : e.modify id newPrice newQty = some (e', outcome)) :
    (e.book.Thins e'.book [id] ∧ e' = { e with book := e'.book } ∧
      ∀ report, outcome ≠ .requoted report) ∨
    ∃ o b report, e.Requotes id newPrice newQty o ∧ e.book.cancel id = some (some o, b) ∧
      e.book.Thins b [id] ∧
      { e with book := b }.submit (o.requote newPrice newQty) = some (e', report) ∧
      outcome = .requoted report := by
  rcases modify_eq_some h with ⟨rfl, rfl⟩ | ⟨rfl, o, book, hcancel, rfl⟩ |
    ⟨rfl, r, book, hreduce, rfl⟩ | ⟨o, book, report, hreq, hcancel, hsubmit, rfl⟩
  · exact .inl ⟨ht.thins_any _, rfl, by simp⟩
  · exact .inl ⟨ht.cancel hcancel, rfl, by simp⟩
  · exact .inl ⟨ht.reduce hreduce, rfl, by simp⟩
  · exact .inr ⟨o, book, report, hreq, hcancel, ht.cancel hcancel, hsubmit, rfl⟩

/-! ### Whole calls -/

/-- **What a call does**: it thins the book, or submits an order to a thinned book. -/
theorem call_cases (ht : e.book.Tidy) {c : Call} {outcome : Outcome} (hc : c.InRange)
    (hcall : e.call ω c = some (e', outcome)) :
    (∃ ids, e.book.Thins e'.book ids ∧ e' = { e with book := e'.book }) ∨
    ∃ b ids order report, e.book.Thins b ids ∧ order.price < 2 ^ 64 ∧ order.quantity < 2 ^ 64 ∧
      { e with book := b }.submit order = some (e', report) := by
  obtain ⟨x, hx, heq⟩ : ∃ x : MatchingEngine × Outcome, e.call ω c = some x ∧ x.1 = e' :=
    ⟨_, hcall, rfl⟩
  cases c with
  | submit order =>
    obtain ⟨⟨e₁, report⟩, hs, rfl⟩ := map_eq_some_iff.mp hx
    exact .inr ⟨e.book, [], order, report, ht.thins, hc.price, hc.quantity, heq ▸ hs⟩
  | modify id newPrice newQty =>
    obtain ⟨⟨e₁, outcome'⟩, hmodify, rfl⟩ := map_eq_some_iff.mp hx
    obtain rfl : e₁ = e' := heq
    rcases modify_slab ht hmodify with ⟨ht, heq, -⟩ | ⟨o, b, report, -, -, ht, hs, -⟩
    · exact .inl ⟨_, ht, heq⟩
    · exact .inr ⟨b, _, _, report, ht, hc.2.1, hc.2.2, hs⟩
  | cancel id =>
    obtain ⟨⟨e₁, removed⟩, hcancel, rfl⟩ := map_eq_some_iff.mp hx
    obtain rfl : e₁ = e' := heq
    exact .inl ⟨_, cancel_slab ht hcancel⟩
  | cancelAllForUser user =>
    obtain ⟨⟨e₁, ids⟩, hcancel, rfl⟩ := map_eq_some_iff.mp hx
    obtain rfl : e₁ = e' := heq
    exact .inl ⟨_, cancelAllForUser_slab ht hcancel⟩

/-- **What a run preserves** is what every call preserves. -/
theorem run_induction {P : MatchingEngine → Prop} {calls : List (HashOrder × Call)}
    {outcomes : List Outcome}
    (hstep : ∀ e e' ω c outcome, c.InRange → P e → e.call ω c = some (e', outcome) → P e')
    (h : P e) (hin : ∀ c ∈ calls, c.2.InRange) (hrun : e.run calls = some (e', outcomes)) :
    P e' := by
  induction calls generalizing e outcomes with
  | nil =>
    cases hrun
    exact h
  | cons c calls ih =>
    obtain ⟨ω, c⟩ := c
    simp only [run, bind, bind_eq_some_iff, Prod.exists, Option.pure_def,
      some.injEq, Prod.mk.injEq] at hrun
    obtain ⟨e₁, outcome, hcall, e₂, outcomes', hrun, rfl, -⟩ := hrun
    obtain ⟨hc, hin⟩ := forall_mem_cons.mp hin
    exact ih (hstep e e₁ ω c outcome hc h hcall) hin hrun

/-- A submit keeps the book charted and the configuration as it is, and the slab grows by at most
one slot. -/
theorem submit_charted (h : e.book.Charted) (hprice : order.price < 2 ^ 64)
    (hs : e.submit order = some (e', report)) :
    e'.book.Charted ∧ (e'.strategy = e.strategy ∧ e'.stp = e.stp) ∧
      e'.book.pool.slots.length ≤ e.book.pool.slots.length + 1 := by
  obtain ⟨-, hstrategy, hstp, b, ⟨ids, ht⟩, hend⟩ := submit_slab h hs
  have hc' := h.wears ht.wears
  rcases hend with heq | ⟨rest, hrest, hins⟩
  · rw [heq]
    exact ⟨hc', ⟨hstrategy, hstp⟩, ht.length.le.trans (Nat.le_succ _)⟩
  · have hrest' : rest.price < 2 ^ 64 := by
      rw [hrest.same]
      exact hprice
    obtain ⟨-, -, hlen⟩ := hc'.tidy.insert hrest' hins
    exact ⟨hc'.insert hrest' hins, ⟨hstrategy, hstp⟩, hlen.trans (Nat.succ_le_succ ht.length.le)⟩

/-- So does a call. -/
theorem call_charted {c : Call} {outcome : Outcome} (h : e.book.Charted) (hc : c.InRange)
    (hcall : e.call ω c = some (e', outcome)) :
    e'.book.Charted ∧ (e'.strategy = e.strategy ∧ e'.stp = e.stp) ∧
      e'.book.pool.slots.length ≤ e.book.pool.slots.length + 1 := by
  rcases call_cases h.tidy hc hcall with ⟨ids, ht, heq⟩ | ⟨b, ids, order, report, ht, hprice, -, hs⟩
  · exact ⟨h.wears ht.wears, by rw [heq]; exact ⟨rfl, rfl⟩, ht.length.le.trans (Nat.le_succ _)⟩
  · obtain ⟨hc', hstp, hlen⟩ := submit_charted (h.wears ht.wears) hprice hs
    exact ⟨hc', hstp, hlen.trans (Nat.succ_le_succ ht.length.le)⟩

/-- A run keeps the book charted and the policy as it is. -/
theorem run_charted {calls : List (HashOrder × Call)} {outcomes : List Outcome}
    (h : e.book.Charted) (hin : ∀ c ∈ calls, c.2.InRange)
    (hrun : e.run calls = some (e', outcomes)) : e'.book.Charted ∧ e'.stp = e.stp :=
  run_induction (P := fun e₁ => e₁.book.Charted ∧ e₁.stp = e.stp)
    (fun _ _ _ _ _ hc h₁ hcall =>
      let h₂ := call_charted h₁.1 hc hcall
      ⟨h₂.1, h₂.2.1.2.trans h₁.2⟩) ⟨h, rfl⟩ hin hrun

end MatchingEngine

end TradeCore
