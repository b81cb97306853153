import TradeCore.Priority

/-!
# What a Turn Takes off the Best Level

`NaiveCross.Turn` says what the reference loop does in a turn and why: it ends because nothing is
left, because the best price is not crossable or not affordable, or because the taker is stopped;
it goes on after it pulled the taker's own makers or traded. `NaiveCross.loop_rule` is the rule for
the whole loop.

A turn that trades takes `min lots total` lots off the best level and leaves the others alone
(`Trades.allocated_eq`, `Trades.rungs_fill`). So the lots that a class of orders has left are
counted down by the trades (`Trades.lotsOf_fill`).

## Main result

* `MatchingEngine.Reached.crossing_ends` — in every engine that a run reaches, the crossing loop
  ends after a bounded number of turns.
-/

open List Option

namespace TradeCore

variable {ψ : Order → Bool} {s : Side} {e : ℕ × List Order}

/-! ### The turns of the loop -/

namespace NaiveCross

variable {strategy : Strategy} {stp : SelfTradePolicy} {seq : ℕ}

/-- **The loop rule**: what the turns that go on keep holds where the loop ends, and it ends
because the quantity is used up or because a turn ends it. -/
theorem loop_rule {P : NaiveCross → Prop}
    (hstep : ∀ n n', n.book.Realized → n.order.remaining ≠ 0 → P n →
      n.Turn strategy stp seq .continue n' → P n')
    {n : NaiveCross} (hr : n.book.Realized) (h : P n) {k : ℕ} (hk : n.measure < k) :
    ∃ m m' stopped, n.loop strategy stp seq k = (m', stopped) ∧ m.book.Realized ∧ P m ∧
      ((m.order.remaining = 0 ∧ m' = m ∧ stopped = false) ∨
        m.order.remaining ≠ 0 ∧ (m.Turn strategy stp seq .break m' ∧ stopped = false ∨
          m.Turn strategy stp seq .takerStopped m' ∧ stopped = true)) := by
  induction k generalizing n with
  | zero => exact absurd hk (Nat.not_lt_zero _)
  | succ k ih =>
    rw [loop]
    by_cases hrem : n.order.remaining = 0
    · rw [if_pos hrem]
      exact ⟨n, n, false, rfl, hr, h, .inl ⟨hrem, rfl, rfl⟩⟩
    · rw [if_neg hrem]
      obtain ⟨b, hb⟩ := hr
      have href : Cross.Refines ⟨b, n.order, n.trades, n.budgetLeft, n.stpCancelled⟩ n :=
        ⟨hb, rfl, rfl, rfl, rfl⟩
      obtain ⟨c', -, hc', -, hmeasure⟩ := href.pass strategy stp seq
      cases hp : n.pass strategy stp seq with
      | mk flow n' =>
        have hturn := turn_of_pass hp
        rw [hp] at hc' hmeasure
        cases flow with
        | «break» => exact ⟨n, n', false, rfl, ⟨b, hb⟩, h, .inr ⟨hrem, .inl ⟨hturn, rfl⟩⟩⟩
        | takerStopped =>
          exact ⟨n, n', true, rfl, ⟨b, hb⟩, h, .inr ⟨hrem, .inr ⟨hturn, rfl⟩⟩⟩
        | «continue» =>
          have hlt := hmeasure rfl
          exact ih ⟨c'.book, hc'.book⟩ (hstep n n' ⟨b, hb⟩ hrem h hturn)
            (lt_of_lt_of_le hlt (Nat.le_of_lt_succ hk))

end NaiveCross

/-! ### Settling fills -/

/-- What fills take off a queue. -/
theorem totalQty_settle {fills : List (ℕ × ℕ)} {q : List Order}
    (h : ∀ o ∈ q, taken fills o.id ≤ o.remaining) :
    totalQty (q.filterMap (settle fills)) + (q.map fun o => taken fills o.id).sum =
      totalQty q := by
  induction q with
  | nil => rfl
  | cons o q ih =>
    have ho := h o mem_cons_self
    have hq := ih fun o' ho' => h o' (mem_cons_of_mem _ ho')
    rw [totalQty, totalQty] at hq ⊢
    rw [map_cons, sum_cons, map_cons, sum_cons, filterMap_cons, settle]
    split
    · rename_i hnone
      split at hnone
      · omega
      · cases hnone
    · rename_i o' hsome
      split at hsome
      · cases hsome
      · cases hsome
        rw [map_cons, sum_cons]
        simp only
        omega

/-- One order of a queue has a given id. -/
theorem sum_ite_id {q : List Order} (hq : (q.map Order.id).Nodup) {id : ℕ} (lots : ℕ)
    (h : id ∈ q.map Order.id) : (q.map fun o => if id = o.id then lots else 0).sum = lots := by
  induction q with
  | nil => cases h
  | cons o q ih =>
    rw [map_cons, nodup_cons] at hq
    rw [map_cons, sum_cons]
    rcases mem_cons.mp h with rfl | hmem
    · have hzero : (q.map fun o' => if o.id = o'.id then lots else 0).sum = 0 := by
        refine sum_eq_zero fun x hx => ?_
        obtain ⟨o', ho', rfl⟩ := List.mem_map.mp hx
        exact if_neg fun heq : o.id = o'.id => hq.1 (heq ▸ List.mem_map_of_mem ho')
      rw [if_pos rfl, hzero, add_zero]
    · rw [if_neg fun heq : id = o.id => hq.1 (heq ▸ hmem), zero_add, ih hq.2 hmem]

/-- Fills of different orders of a queue take all that they say. -/
theorem sum_taken {fills : List (ℕ × ℕ)} {q : List Order} (hq : (q.map Order.id).Nodup)
    (h : ∀ f ∈ fills, f.1 ∈ q.map Order.id) :
    (q.map fun o => taken fills o.id).sum = (fills.map Prod.snd).sum := by
  induction fills with
  | nil => simp
  | cons f fills ih =>
    have hone : (q.map fun o => if f.1 = o.id then f.2 else 0).sum = f.2 :=
      sum_ite_id hq f.2 (h f mem_cons_self)
    have hrest := ih fun f' hf' => h f' (mem_cons_of_mem _ hf')
    simp only [taken_cons, sum_map_add, hone, hrest, map_cons, sum_cons]

/-- A class of orders that a fill does not take an order out of. -/
def Stable (ψ : Order → Bool) : Prop := ∀ o r, ψ { o with remaining := r } = ψ o

theorem Stable.filter_settle (hψ : Stable ψ) (fills : List (ℕ × ℕ)) (q : List Order) :
    (q.filterMap (settle fills)).filter ψ = (q.filter ψ).filterMap (settle fills) := by
  rw [filter_filterMap, filterMap_filter]
  refine filterMap_congr fun o _ => ?_
  rw [settle]
  split
  · rw [ite_self]
    rfl
  · rw [filter_some, hψ]

/-! ### The best level -/

/-- A view capped at `cap` lots covers them, or the level. -/
theorem le_viewTotal_capped (cap covered : ℕ) (view : List RestingOrder) :
    min cap (covered + viewTotal view) ≤
      covered + viewTotal (OrderBook.capped cap covered view) := by
  induction view generalizing covered with
  | nil => exact Nat.min_le_right _ _
  | cons r view ih =>
    rw [OrderBook.capped]
    split
    · rename_i hle
      simp only [viewTotal_cons, viewTotal_nil]
      omega
    · have := ih (covered + r.remaining)
      simp only [viewTotal_cons]
      omega

/-- The lots of the orders of a class. -/
def lotsOf (ψ : Order → Bool) (rungs : List (ℕ × List Order)) : ℕ :=
  (rungs.map fun e => totalQty (e.2.filter ψ)).sum

@[simp] theorem lotsOf_nil (ψ : Order → Bool) : lotsOf ψ [] = 0 := rfl

@[simp] theorem lotsOf_cons (ψ : Order → Bool) (e : ℕ × List Order)
    (rungs : List (ℕ × List Order)) :
    lotsOf ψ (e :: rungs) = totalQty (e.2.filter ψ) + lotsOf ψ rungs := by
  rw [lotsOf, map_cons, sum_cons]
  rfl

theorem lotsOf_eq_zero {rungs : List (ℕ × List Order)} (h : ∀ e ∈ rungs, ∀ o ∈ e.2, ψ o = false) :
    lotsOf ψ rungs = 0 := by
  refine sum_eq_zero fun x hx => ?_
  obtain ⟨e, he, rfl⟩ := List.mem_map.mp hx
  have hnil : e.2.filter ψ = [] := filter_eq_nil_iff.mpr fun o ho => by simp [h e he o ho]
  rw [hnil]
  rfl

theorem lotsOf_mapRung (ψ : Order → Bool) (f : Order → Option Order) (px : ℕ) (q : List Order)
    (rest : List (ℕ × List Order)) :
    lotsOf ψ ((Ladder.mapRung f (px, q)).toList ++ rest) =
      totalQty ((q.filterMap f).filter ψ) + lotsOf ψ rest := by
  rw [Ladder.mapRung]
  split
  · rename_i hnil
    rw [hnil, toList_none, nil_append, filter_nil]
    exact (zero_add _).symm
  · rw [toList_some, singleton_append, lotsOf_cons]

namespace NaiveCross.Trades

variable {n : NaiveCross} {strategy : Strategy} {px lots : ℕ} {q : List Order}
  {view : List RestingOrder} {allocs : List Allocation}

variable (h : n.Trades strategy px lots q view allocs) (hr : n.book.Realized)
include h hr

/-- **A turn trades all it can**: the lots it may take, or the level. -/
theorem allocated_eq : allocated allocs = min lots (totalQty q) := by
  obtain ⟨hpos, hsum, -⟩ := h.view_facts hr
  have hmap : viewTotal (q.map Order.toResting) = totalQty q := by
    rw [viewTotal, List.map_map]
    rfl
  have hle : viewTotal view ≤ totalQty q := by
    rw [← hmap]
    exact (h.view_isPrefix.sublist.map _).sum_le_sum (by simp)
  have hge : min lots (totalQty q) ≤ viewTotal view := by
    rw [h.view_eq, reached]
    split
    · rw [hmap]
      exact Nat.min_le_right _ _
    · have := le_viewTotal_capped lots 0 (q.map Order.toResting)
      rw [hmap, zero_add, zero_add] at this
      exact this
  rw [h.allocs_eq, allocate_total strategy (fun _ => hsum) hpos]
  omega

/-- No order is filled beyond what it has. -/
theorem taken_le {o : Order} (ho : o ∈ q) : taken (allocs.map fillOf) o.id ≤ o.remaining := by
  by_cases hmem : ∃ a ∈ allocs, a.id = o.id
  · obtain ⟨a, ha, hid⟩ := hmem
    obtain ⟨-, o', ho', -, hid', hle⟩ := h.of_mem hr ha
    rw [← h.queue_eq] at ho ho'
    obtain ⟨rfl, -⟩ := hr.eq_of_id ho' ho (hid'.trans hid)
    rw [hid', taken_of_mem (h.nodup_ids hr) ha]
    exact hle
  · rw [taken_of_notMem]
    · exact Nat.zero_le _
    · rw [List.map_map]
      exact fun hid => hmem (List.mem_map.mp hid)

/-- A turn leaves the other levels alone. -/
theorem rungs_fill (seq : ℕ) :
    ∃ rest, (n.book n.order.side.opposite).rungs = (px, q) :: rest ∧
      ((n.fill seq px view allocs).book n.order.side.opposite).rungs =
        (Ladder.mapRung (settle (allocs.map fillOf)) (px, q)).toList ++ rest := by
  obtain ⟨rest, hrungs⟩ := head?_eq_some_iff.mp h.best
  refine ⟨rest, hrungs, ?_⟩
  have hbook : ((n.fill seq px view allocs).book n.order.side.opposite).rungs =
      (n.book n.order.side.opposite).rungs.filterMap
        (Ladder.mapRung (settle (allocs.map fillOf))) := rfl
  have hsorted := (n.book n.order.side.opposite).sorted
  rw [hrungs, pairwise_cons] at hsorted
  have hrest : rest.filterMap (Ladder.mapRung (settle (allocs.map fillOf))) = rest := by
    refine filterMap_eq_self fun e he => Ladder.mapRung_eq_some.mpr ⟨rfl, ?_, ?_⟩
    · refine (filterMap_eq_self fun o ho => ?_).symm
      have hmem : e ∈ (n.book n.order.side.opposite).rungs := by
        rw [hrungs]
        exact mem_cons_of_mem _ he
      have hqueue := (Ladder.mem_rungs.mp (show (e.1, e.2) ∈ _ from hmem)).1
      have ho' : o ∈ n.book.queue n.order.side.opposite e.1 := by
        rw [NaiveBook.queue, hqueue]
        exact ho
      refine settle_of_taken_eq_zero (hr.of_mem_queue ho').1 (taken_of_notMem fun hid => ?_)
      rw [List.map_map] at hid
      obtain ⟨a, ha, heq⟩ := List.mem_map.mp hid
      obtain ⟨-, o₁, ho₁, -, hid, -⟩ := h.of_mem hr ha
      rw [← h.queue_eq] at ho₁
      obtain ⟨-, -, hpx⟩ := hr.eq_of_id ho₁ ho' (hid.trans heq)
      exact absurd (hpx ▸ hsorted.1 e he) (irrefl_of n.order.side.opposite.better px)
    · refine (n.book n.order.side.opposite).occupied e ?_
      rw [hrungs]
      exact mem_cons_of_mem _ he
  rw [hbook, hrungs, filterMap_cons, hrest]
  cases Ladder.mapRung (settle (allocs.map fillOf)) (px, q) <;> rfl

/-- What a turn takes off a class of the level that it trades with. -/
theorem totalQty_fill (hψ : Stable ψ) (hview : ∀ o ∈ q, o.toResting ∈ view → ψ o = true) :
    totalQty ((q.filterMap (settle (allocs.map fillOf))).filter ψ) + allocated allocs =
      totalQty (q.filter ψ) := by
  have hids : ((q.filter ψ).map Order.id).Nodup := by
    refine List.Nodup.sublist (filter_sublist.map _) ?_
    rw [← h.queue_eq]
    exact hr.nodup_ids _ _
  have hsettle : totalQty ((q.filter ψ).filterMap (settle (allocs.map fillOf))) +
      ((q.filter ψ).map fun o => taken (allocs.map fillOf) o.id).sum = totalQty (q.filter ψ) :=
    totalQty_settle fun o ho => h.taken_le hr (mem_of_mem_filter ho)
  have htaken : ((q.filter ψ).map fun o => taken (allocs.map fillOf) o.id).sum =
      allocated allocs := by
    rw [sum_taken hids, List.map_map]
    · rfl
    · intro f hf
      obtain ⟨a, ha, rfl⟩ := List.mem_map.mp hf
      obtain ⟨-, o, ho, hget, hid, -⟩ := h.of_mem hr ha
      have hmem := mem_filter.mpr ⟨ho, hview o ho (mem_of_getElem? hget)⟩
      exact List.mem_map.mpr ⟨o, hmem, hid⟩
  rw [hψ.filter_settle, ← hsettle, htaken]

/-- **The lots of a class are counted down** by a turn that trades with the class. -/
theorem lotsOf_fill (seq : ℕ) (hψ : Stable ψ) (hview : ∀ o ∈ q, o.toResting ∈ view → ψ o = true) :
    lotsOf ψ ((n.fill seq px view allocs).book n.order.side.opposite).rungs + allocated allocs =
      lotsOf ψ (n.book n.order.side.opposite).rungs := by
  obtain ⟨rest, hrungs, hfill⟩ := h.rungs_fill hr seq
  have hlevel := h.totalQty_fill hr hψ hview
  rw [hrungs, hfill, lotsOf_cons, lotsOf_mapRung]
  simp only
  omega

/-- A turn that takes the whole level removes it. -/
theorem rungs_fill_all (seq : ℕ) (hle : totalQty q ≤ lots) : ∃ rest,
      (n.book n.order.side.opposite).rungs = (px, q) :: rest ∧
      ((n.fill seq px view allocs).book n.order.side.opposite).rungs = rest := by
  obtain ⟨rest, hrungs, hfill⟩ := h.rungs_fill hr seq
  have hlevel := @totalQty_fill (fun _ => true) _ _ _ _ _ _ _ h hr (fun _ _ => rfl) fun _ _ _ => rfl
  rw [filter_true, filter_true, h.allocated_eq hr] at hlevel
  have hnil : q.filterMap (settle (allocs.map fillOf)) = [] := by
    refine eq_nil_iff_forall_not_mem.mpr fun o ho => ?_
    have hle' : o.remaining ≤ totalQty (q.filterMap (settle (allocs.map fillOf))) :=
      single_le_sum (by simp) _ (List.mem_map_of_mem ho)
    obtain ⟨o', -, hsettle⟩ := mem_filterMap.mp ho
    rw [settle] at hsettle
    split at hsettle
    · cases hsettle
    · rename_i hpos
      cases hsettle
      simp only at hle'
      omega
  refine ⟨rest, hrungs, ?_⟩
  rw [hfill, Ladder.mapRung, if_pos hnil, toList_none, nil_append]

/-- A turn leaves a class alone that has no order in the level. -/
theorem lotsOf_fill_other (seq : ℕ) (hψ : Stable ψ) (hq : ∀ o ∈ q, ψ o = false) :
    lotsOf ψ ((n.fill seq px view allocs).book n.order.side.opposite).rungs =
      lotsOf ψ (n.book n.order.side.opposite).rungs := by
  obtain ⟨rest, hrungs, hfill⟩ := h.rungs_fill hr seq
  have hnone : q.filter ψ = [] := filter_eq_nil_iff.mpr fun o ho => by simp [hq o ho]
  rw [hrungs, hfill, lotsOf_cons, lotsOf_mapRung, hψ.filter_settle, hnone, filterMap_nil]

end NaiveCross.Trades

/-- Pulling makers leaves a class alone that they are not of. -/
theorem NaiveBook.lotsOf_without (b : NaiveBook) (s : Side) {ids : List ℕ}
    (h : ∀ e ∈ (b s).rungs, ∀ o ∈ e.2, ψ o = true → o.id ∉ ids) :
    lotsOf ψ ((b.rewrite (without ids)) s).rungs = lotsOf ψ (b s).rungs := by
  have hrungs : ((b.rewrite (without ids)) s).rungs =
      (b s).rungs.filterMap (Ladder.mapRung (without ids)) := rfl
  rw [hrungs]
  generalize (b s).rungs = rungs at h
  induction rungs with
  | nil => rfl
  | cons e rungs ih =>
    have hrest := ih fun e he => h e (mem_cons_of_mem _ he)
    have hlevel : (e.2.filterMap (without ids)).filter ψ = e.2.filter ψ := by
      rw [filter_filterMap, ← filterMap_eq_filter]
      refine filterMap_congr fun o ho => ?_
      rw [without]
      by_cases hmem : o.id ∈ ids
      · have hψ : ψ o = false := by
          by_contra hne
          exact h e mem_cons_self o ho (by simpa using hne) hmem
        rw [if_pos hmem]
        simp [Option.guard, hψ]
      · rw [if_neg hmem]
        rfl
    have hsplit : (e :: rungs).filterMap (Ladder.mapRung (without ids)) =
        (Ladder.mapRung (without ids) (e.1, e.2)).toList ++
          rungs.filterMap (Ladder.mapRung (without ids)) := by
      rw [filterMap_cons]
      cases Ladder.mapRung (without ids) e <;> rfl
    rw [hsplit, lotsOf_mapRung, lotsOf_cons, hrest, hlevel]

/-! ### Prices -/

/-- The orders at the prices that satisfy `φ`. -/
def atPrice (φ : ℕ → Bool) (o : Order) : Bool := φ o.price

theorem stable_atPrice (φ : ℕ → Bool) : Stable (atPrice φ) := fun _ _ => rfl

/-- Where the best price is not reached, no price is. -/
theorem NaiveBook.reaches_false {b : NaiveBook} {aggressor : Side} {limit px : ℕ} {q : List Order}
    (hhead : (b aggressor.opposite).rungs.head? = some (px, q))
    (hpx : reaches aggressor limit px = false) (he : e ∈ (b aggressor.opposite).rungs) :
    reaches aggressor limit e.1 = false := by
  have hqueue := Ladder.mem_rungs.mp (show (e.1, e.2) ∈ (b aggressor.opposite).rungs from he)
  have hne : (b aggressor.opposite).queue e.1 ≠ [] := by
    rw [hqueue.1]
    exact hqueue.2
  rcases (Ladder.head?_eq_some hhead).2.2 e.1 hne with heq | hbetter
  · rw [heq]
    exact hpx
  · cases aggressor with
    | buy =>
      have hlt : px < e.1 := hbetter
      simp only [reaches, decide_eq_false_iff_not] at hpx ⊢
      omega
    | sell =>
      have hlt : e.1 < px := hbetter
      simp only [reaches, decide_eq_false_iff_not] at hpx ⊢
      omega

namespace NaiveBook.Realized

variable {b : NaiveBook}

variable (h : b.Realized)
include h

/-- The orders of a rung are live and rest at its price. -/
theorem of_mem_rungs (he : e ∈ (b s).rungs) {o : Order} (ho : o ∈ e.2) :
    0 < o.remaining ∧ o.price = e.1 := by
  have hqueue := (Ladder.mem_rungs.mp (show (e.1, e.2) ∈ (b s).rungs from he)).1
  have hmem : o ∈ b.queue s e.1 := by
    rw [NaiveBook.queue, hqueue]
    exact ho
  exact ⟨(h.of_mem_queue hmem).1, (h.of_mem_queue hmem).2.2⟩

/-- A rung has an order. -/
theorem exists_mem_rung (he : e ∈ (b s).rungs) : ∃ o ∈ e.2, 0 < o.remaining ∧ o.price = e.1 := by
  obtain ⟨o, ho⟩ := exists_mem_of_ne_nil _ ((b s).occupied e he)
  exact ⟨o, ho, h.of_mem_rungs he ho⟩

/-- Prices are 64-bit values. -/
theorem price_lt (he : e ∈ (b s).rungs) : e.1 < 2 ^ 64 := by
  obtain ⟨book, hb⟩ := h
  rw [hb.rungs_eq] at he
  obtain ⟨lv, hlv, rfl⟩ := List.mem_map.mp he
  exact (hb.aggregates hlv).2.2.2.1

/-- An aggressor that reaches lots reaches the best price. -/
theorem reaches_best {aggressor : Side} {limit px : ℕ} {q : List Order}
    (hhead : (b aggressor.opposite).rungs.head? = some (px, q))
    (hlots : 0 < lotsOf (atPrice (reaches aggressor limit)) (b aggressor.opposite).rungs) :
    reaches aggressor limit px = true := by
  by_contra hpx
  have hnone : lotsOf (atPrice (reaches aggressor limit)) (b aggressor.opposite).rungs = 0 := by
    refine lotsOf_eq_zero fun e he o ho => ?_
    rw [atPrice, (h.of_mem_rungs he ho).2]
    exact NaiveBook.reaches_false hhead (by simpa using hpx) he
  omega

/-- The lots that an aggressor reaches. -/
theorem crossableQty_eq (aggressor : Side) (limit : ℕ) :
    b.crossableQty aggressor limit =
      lotsOf (atPrice (reaches aggressor limit)) (b aggressor.opposite).rungs := by
  have hall : ∀ rungs, (∀ e ∈ rungs, e ∈ (b aggressor.opposite).rungs) →
      ((rungs.filter fun e => reaches aggressor limit e.1).map fun e => totalQty e.2).sum =
        lotsOf (atPrice (reaches aggressor limit)) rungs := by
    intro rungs hrungs
    induction rungs with
    | nil => rfl
    | cons e rungs ih =>
      have hrest := ih fun e he => hrungs e (mem_cons_of_mem _ he)
      have hprice : ∀ o ∈ e.2, atPrice (reaches aggressor limit) o = reaches aggressor limit e.1 :=
        fun o ho => congrArg _ (h.of_mem_rungs (hrungs e mem_cons_self) ho).2
      rw [lotsOf_cons, ← hrest, filter_cons]
      cases hreach : reaches aggressor limit e.1 with
      | true =>
        have hself : e.2.filter (atPrice (reaches aggressor limit)) = e.2 :=
          filter_eq_self.mpr fun o ho => (hprice o ho).trans hreach
        rw [hself, if_pos rfl, map_cons, sum_cons]
      | false =>
        have hnil : e.2.filter (atPrice (reaches aggressor limit)) = [] :=
          filter_eq_nil_iff.mpr fun o ho => by simp [hprice o ho, hreach]
        rw [hnil, if_neg Bool.false_ne_true]
        exact (zero_add _).symm
  exact hall _ fun e he => he

end NaiveBook.Realized

/-! ### The rungs of an engine -/

/-- The queues of a side, best price first. -/
def OrderBook.rungs (b : OrderBook) (s : Side) : List (ℕ × List Order) :=
  (b.bestFirst s).map fun e => (e.1, b.queue s e.1)

theorem OrderBook.Refines.rungs {b : OrderBook} {n : NaiveBook} (h : b.Refines n) (s : Side) :
    b.rungs s = (n s).rungs := by
  rw [OrderBook.rungs, h.rungs_eq]
  exact map_congr_left fun e _ => by rw [h.queue]

/-! ### The crossing loop ends -/

/-- An engine that calls in range have reached, with room in the slab before each. -/
structure MatchingEngine.Reached where
  {strategy : Strategy} {stp : SelfTradePolicy} {maxOrders : ℕ} {prefault : Bool}
  {calls : List (HashOrder × Call)} {outcomes : List Outcome}
  engine : MatchingEngine
  inRange : ∀ c ∈ calls, c.2.InRange
  roomy : (fresh strategy stp maxOrders prefault).Roomy calls
  run : (fresh strategy stp maxOrders prefault).run calls = some (engine, outcomes)

namespace MatchingEngine.Reached

/-- **Crossing ends** without an abort, after at most a turn for each lot and each opposite
order: every turn that goes on uses up a lot of the taker or a maker. -/
theorem crossing_ends (r : Reached) (order : Order) (budget : ℕ) :
    let makers := (r.engine.book.rungs order.side.opposite).flatMap Prod.snd
    (crossLoop r.engine.strategy r.engine.stp r.engine.seq (order.remaining + makers.length + 1)
      ⟨r.engine.book, order, [], budget, r.engine.stpCancelled⟩).isSome := by
  obtain ⟨n, hn, -⟩ := exists_refines _ _ _ _ r.inRange r.roomy r.run
  rw [hn.book.rungs]
  have hstart : Cross.Refines ⟨r.engine.book, order, [], budget, r.engine.stpCancelled⟩
      ⟨n.book, order, [], budget, n.stpCancelled⟩ := ⟨hn.book, rfl, rfl, rfl, hn.stpCancelled⟩
  obtain ⟨c, hloop, -⟩ := hstart.loop _ _ r.engine.seq (lt_add_one _) (lt_add_one _)
  exact Option.isSome_of_eq_some hloop

/-- Nine lots that meet three asks on two levels, one of them of the same user. -/
theorem crossing_ends_sweep : ∃ r : Reached,
    let makers := (r.engine.book.rungs .sell).flatMap Prod.snd
    makers.map Order.id = [1, 3, 2] ∧
      (crossLoop r.engine.strategy r.engine.stp r.engine.seq (9 + makers.length + 1)
        ⟨r.engine.book, (Order.limit 4 .buy 102 9).by_ 7, [], 20,
          r.engine.stpCancelled⟩).isSome := by
  have hrun : ((fresh .proRata .cancelMaker 4 true).run
      [(1, .submit (Order.limit 1 .sell 101 5)), (1, .submit ((Order.limit 2 .sell 102 3).by_ 7)),
        (1, .submit (Order.limit 3 .sell 101 2))]).map
        (fun r => ((r.1.book.rungs .sell).flatMap Prod.snd).map Order.id) = some [1, 3, 2] := by
    decide +kernel
  obtain ⟨⟨e, outcomes⟩, hrun, hmakers⟩ := map_eq_some_iff.mp hrun
  exact ⟨⟨e, by decide, roomy_of_length (by decide) (by decide), hrun⟩, hmakers,
    crossing_ends _ ((Order.limit 4 .buy 102 9).by_ 7) 20⟩

end MatchingEngine.Reached

end TradeCore
