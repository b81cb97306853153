import TradeCore.BookRefines

/-!
# The Matching Engine Refines the Reference Engine

A lockstep simulation. One turn of the engine's crossing loop is one turn of the reference
loop (`Cross.Refines.pass`), and both loops get enough turns, because a turn that goes on
uses up a lot of the taker or a maker (`NaiveCross.measure`). So a submission computes the
reference report, and aborts exactly where the reference leaves the machine integers
(`MatchingEngine.Refines.submit`, `MatchingEngine.Refines.submit_abort`); the other calls
follow.

## Main results

* `MatchingEngine.Refines.call`, `MatchingEngine.Refines.call_abort` — one call.
* `MatchingEngine.run_refines` — a whole run returns what the reference returns and leaves
  the book of the reference.
-/

namespace TradeCore

open Std List Option

/-! ### Views -/

/-- A capped view is a prefix of the level. -/
theorem capped_isPrefix (cap covered : ℕ) (view : List RestingOrder) :
    OrderBook.capped cap covered view <+: view := by
  induction view generalizing covered with
  | nil => exact prefix_refl _
  | cons r view ih =>
    rw [OrderBook.capped]
    split
    · exact ⟨view, rfl⟩
    · exact cons_prefix_cons.mpr ⟨rfl, ih _⟩

/-- The reached makers are a prefix of the level. -/
theorem reached_isPrefix (strategy : Strategy) (lots : ℕ) (q : List Order) :
    reached strategy lots q <+: q.map Order.toResting := by
  rw [reached]
  split
  · exact prefix_refl _
  · exact capped_isPrefix _ _ _

/-- A level with orders has a maker to reach. -/
theorem reached_ne_nil (strategy : Strategy) (lots : ℕ) {q : List Order} (hq : q ≠ []) :
    reached strategy lots q ≠ [] := by
  obtain ⟨o, rest, rfl⟩ := exists_cons_of_ne_nil hq
  rw [reached]
  split
  · simp
  · rw [map_cons, OrderBook.capped]
    split <;> simp

namespace OrderBook.Refines

variable {b : OrderBook} {n : NaiveBook}

/-- What the strategies are promised about a view. -/
theorem view_facts (h : b.Refines n) (strategy : Strategy) (s : Side) (p lots : ℕ) :
    (∀ r ∈ reached strategy lots (n.queue s p), 0 < r.remaining) ∧
      viewTotal (reached strategy lots (n.queue s p)) < 2 ^ 64 ∧
      (reached strategy lots (n.queue s p)).length ≤ 2 ^ 32 ∧
      ((reached strategy lots (n.queue s p)).map RestingOrder.id).Nodup := by
  have hsub := (reached_isPrefix strategy lots (n.queue s p)).sublist
  refine ⟨fun r hr => h.view_pos (hsub.subset hr), ?_, ?_, ?_⟩
  · have hle : viewTotal (reached strategy lots (n.queue s p)) ≤
        viewTotal ((n.queue s p).map Order.toResting) := (hsub.map _).sum_le_sum (by simp)
    have hmap : viewTotal ((n.queue s p).map Order.toResting) = totalQty (n.queue s p) := by
      rw [viewTotal, List.map_map]
      rfl
    have hlt := h.totalQty_lt s p
    omega
  · have hlen := hsub.length_le
    have hslots := length_queue_le b s p
    have hbound := length_le_of_nodup_of_lt (h.inv.nodup s p) fun i hi => h.inv.queueSlots_lt hi
    have hlt := h.inv.bounded
    rw [h.queue] at hslots
    rw [length_map] at hlen
    omega
  · have hids := h.inv.nodup_ids s p
    rw [h.queue] at hids
    refine (hsub.map RestingOrder.id).nodup ?_
    rw [List.map_map]
    exact hids

/-- A maker of a view is an order of the level. -/
theorem of_mem_view (h : b.Refines n) {strategy : Strategy} {s : Side} {p lots : ℕ}
    {r : RestingOrder} (hr : r ∈ reached strategy lots (n.queue s p)) :
    ∃ o ∈ b.queue s p, r = o.toResting := by
  have hmem := (reached_isPrefix strategy lots (n.queue s p)).subset hr
  obtain ⟨o, ho, rfl⟩ := List.mem_map.mp hmem
  rw [← h.queue] at ho
  exact ⟨o, ho, rfl⟩

/-- **Filling what a strategy allocates** settles it against the level. -/
theorem applyFills (h : b.Refines n) (strategy : Strategy) (s : Side) (p lots lots' : ℕ) :
    ∃ b', b.applyFills s p
        ((strategy.allocate (reached strategy lots (n.queue s p)) lots').map fillOf) = some b' ∧
      b'.Refines (n.rewrite (settle
        ((strategy.allocate (reached strategy lots (n.queue s p)) lots').map fillOf))) ∧
      (b.HasRoom → b'.HasRoom) := by
  obtain ⟨hpos, hsum, hlen, hids⟩ := h.view_facts strategy s p lots
  have hnames : ∀ a ∈ strategy.allocate (reached strategy lots (n.queue s p)) lots',
      Names (reached strategy lots (n.queue s p)) a :=
    fun a ha => allocate_names strategy (fun _ => hsum) hpos hlen ha
  -- distinct positions of the view name distinct orders
  have hnd : (((strategy.allocate (reached strategy lots (n.queue s p)) lots').map fillOf).map
      Prod.fst).Nodup := by
    have hidx :=
      @allocate_nodup strategy (reached strategy lots (n.queue s p)) lots' (fun _ => hsum) hlen
    rw [List.map_map]
    rw [List.Nodup, pairwise_map] at hidx ⊢
    refine hidx.imp_of_mem fun {a a'} ha ha' hne hid => hne ?_
    obtain ⟨r, hr, hrid, -⟩ := hnames a ha
    obtain ⟨r', hr', hrid', -⟩ := hnames a' ha'
    have hget : ((reached strategy lots (n.queue s p)).map RestingOrder.id)[a.idx]? =
        ((reached strategy lots (n.queue s p)).map RestingOrder.id)[a'.idx]? := by
      rw [getElem?_map, getElem?_map, hr, hr', map_some, map_some, ← hrid, ← hrid']
      exact congrArg some hid
    refine (getElem?_inj ?_ hids).mp hget
    rw [length_map]
    exact (List.getElem?_eq_some_iff.mp hr).1
  have hall : ∀ fill ∈ (strategy.allocate (reached strategy lots (n.queue s p)) lots').map fillOf,
      ∃ o ∈ b.queue s p, o.id = fill.1 ∧ 0 < fill.2 ∧ fill.2 ≤ o.remaining := by
    intro fill hfill
    obtain ⟨a, ha, rfl⟩ := List.mem_map.mp hfill
    obtain ⟨r, hr, hrid, hle⟩ := hnames a ha
    obtain ⟨o, ho, rfl⟩ := h.of_mem_view (mem_of_getElem? hr)
    exact ⟨o, ho, hrid.symm, allocate_pos strategy (fun _ => hsum) hpos ha, hle⟩
  obtain ⟨b', hb'⟩ := h.inv.exists_applyFills h.occupied hnd hall
  obtain ⟨hinv, hocc, -, hroom, hq⟩ := h.inv.applyFills h.occupied hb'
  exact ⟨b', hb', h.of_filterMap hinv hocc hq, hroom⟩

end OrderBook.Refines

/-! ### The crossing loop -/

namespace NaiveCross

/-- What the loop hands to a strategy and what it gets back: `lots` lots of the taker meet
the reached makers of the best level `(px, q)`. -/
structure Trades (n : NaiveCross) (strategy : Strategy) (px lots : ℕ)
    (q : List Order) (view : List RestingOrder) (allocs : List Allocation) : Prop where
  best : (n.book n.order.side.opposite).rungs.head? = some (px, q)
  crosses : crossable n.order px = true
  lots_pos : 0 < lots
  lots_eq : lots = affordable n.budgetLeft n.order.remaining px
  view_eq : view = reached strategy lots q
  allocs_eq : allocs = strategy.allocate view lots

/-- What the reference loop does in a turn, and why: it ends because nothing is left, because the
best price is not crossable or not affordable, or because the taker is stopped; it goes on after it
pulled the taker's own makers or traded. -/
inductive Turn (strategy : Strategy) (stp : SelfTradePolicy) (seq : ℕ) (n : NaiveCross) :
    Flow → NaiveCross → Prop
  | exhausted (h : (n.book n.order.side.opposite).rungs = []) :
      n.Turn strategy stp seq .break n
  | barred {px : ℕ} {q : List Order}
      (h : (n.book n.order.side.opposite).rungs.head? = some (px, q))
      (hbar : crossable n.order px = false ∨
        affordable n.budgetLeft n.order.remaining px = 0) :
      n.Turn strategy stp seq .break n
  | stopped {px lots : ℕ} {q : List Order} {n' : NaiveCross}
      (h : (n.book n.order.side.opposite).rungs.head? = some (px, q))
      (hcross : crossable n.order px = true)
      (hlots : lots = affordable n.budgetLeft n.order.remaining px)
      (hown : ownInView stp n.order (reached strategy lots q)) (hstp : stp ≠ .cancelMaker)
      (hn' : n' = n ∨ n' = n.pull (ownIds n.order.user (reached strategy lots q))) :
      n.Turn strategy stp seq .takerStopped n'
  | pulled {px lots : ℕ} {q : List Order}
      (h : (n.book n.order.side.opposite).rungs.head? = some (px, q))
      (hcross : crossable n.order px = true)
      (hlots : lots = affordable n.budgetLeft n.order.remaining px)
      (hown : ownInView stp n.order (reached strategy lots q)) (hstp : stp = .cancelMaker) :
      n.Turn strategy stp seq .continue (n.pull (ownIds n.order.user (reached strategy lots q)))
  | traded {px lots : ℕ} {q : List Order} {view : List RestingOrder} {allocs : List Allocation}
      (ht : n.Trades strategy px lots q view allocs) (hown : ¬ ownInView stp n.order view) :
      n.Turn strategy stp seq .continue (n.fill seq px view allocs)

variable {strategy : Strategy} {stp : SelfTradePolicy} {seq : ℕ} {n n' : NaiveCross} {flow : Flow}

/-- **The turns of the loop.** -/
theorem turn_of_pass (h : n.pass strategy stp seq = (flow, n')) :
    n.Turn strategy stp seq flow n' := by
  rw [pass] at h
  split at h
  · rename_i hhead
    cases h
    exact .exhausted (head?_eq_none_iff.mp hhead)
  · rename_i px q hhead
    simp only at h
    split at h
    · rename_i hbar
      cases h
      exact .barred hhead hbar
    · rename_i hgo
      obtain ⟨hcross, hlots⟩ := not_or.mp hgo
      have hcross : crossable n.order px = true := by simpa using hcross
      unfold level at h
      split at h
      · rename_i hown
        cases stp with
        | allow => exact absurd rfl hown.1
        | cancelTaker =>
          cases h
          exact .stopped hhead hcross rfl hown (by simp) (.inl rfl)
        | cancelBoth =>
          cases h
          exact .stopped hhead hcross rfl hown (by simp) (.inr rfl)
        | cancelMaker =>
          cases h
          exact .pulled hhead hcross rfl hown rfl
      · rename_i hown
        cases h
        exact .traded ⟨hhead, hcross, pos_of_ne_zero hlots, rfl, rfl, rfl⟩ hown

/-- **What a turn changes**: nothing, or it pulls makers, or it trades with the best level. -/
theorem Turn.effect (h : n.Turn strategy stp seq flow n') :
    n' = n ∨ (stp ≠ .allow ∧ ∃ ids, n' = n.pull ids) ∨
      ∃ px lots q view allocs, n.Trades strategy px lots q view allocs ∧
        n' = n.fill seq px view allocs := by
  cases h with
  | exhausted | barred => exact .inl rfl
  | stopped _ _ _ hown _ hn' => exact hn'.imp_right fun hn' => .inl ⟨hown.1, _, hn'⟩
  | pulled _ _ _ hown => exact .inr (.inl ⟨hown.1, _, rfl⟩)
  | traded ht => exact .inr (.inr ⟨_, _, _, _, _, ht, rfl⟩)

/-- A turn changes of the order only its remaining quantity, does not raise it, and stops
the taker with lots left. -/
theorem Turn.order (h : n.Turn strategy stp seq flow n') :
    SameOrder n.order n'.order ∧ n'.order.remaining ≤ n.order.remaining ∧
      (flow = .takerStopped → n'.order = n.order) := by
  cases h with
  | exhausted | barred | pulled => exact ⟨rfl, le_rfl, fun _ => rfl⟩
  | stopped _ _ _ _ _ hn' => rcases hn' with rfl | rfl <;> exact ⟨rfl, le_rfl, fun _ => rfl⟩
  | traded => exact ⟨rfl, Nat.sub_le _ _, Flow.noConfusion⟩

/-- **Loop invariants**: what every turn keeps, the loop keeps, and the taker is stopped in one of
the turns. -/
theorem loop_keeps {P : NaiveCross → Prop}
    (hstep : ∀ n flow n', n.order.remaining ≠ 0 → P n → n.pass strategy stp seq = (flow, n') → P n')
    (h : P n) (k : ℕ) :
    P (n.loop strategy stp seq k).1 ∧ ((n.loop strategy stp seq k).2 = true →
      ∃ m, m.order.remaining ≠ 0 ∧ P m ∧
        m.Turn strategy stp seq .takerStopped (n.loop strategy stp seq k).1) := by
  induction k generalizing n with
  | zero => exact ⟨h, Bool.noConfusion⟩
  | succ k ih =>
    rw [loop]
    split
    · exact ⟨h, Bool.noConfusion⟩
    · rename_i hrem
      cases hp : n.pass strategy stp seq with
      | mk flow n' =>
        have hpass := hstep n flow n' hrem h hp
        cases flow with
        | «break» => exact ⟨hpass, Bool.noConfusion⟩
        | takerStopped => exact ⟨hpass, fun _ => ⟨n, hrem, h, turn_of_pass hp⟩⟩
        | «continue» => exact ih hpass

/-- The loop ends where a turn breaks. -/
theorem loop_of_break (h : n.pass strategy stp seq = (.break, n)) (k : ℕ) :
    n.loop strategy stp seq k = (n, false) := by
  cases k with
  | zero => rfl
  | succ k =>
    rw [loop, h]
    split <;> rfl

/-- The loop changes of the order only its remaining quantity, does not raise it, and stops
the taker with lots left. -/
theorem loop_order (strategy : Strategy) (stp : SelfTradePolicy) (seq k : ℕ) (n : NaiveCross) :
    SameOrder n.order (n.loop strategy stp seq k).1.order ∧
      (n.loop strategy stp seq k).1.order.remaining ≤ n.order.remaining ∧
      ((n.loop strategy stp seq k).2 = true →
        0 < (n.loop strategy stp seq k).1.order.remaining) := by
  obtain ⟨⟨hsame, hle⟩, hstop⟩ := loop_keeps (P := fun m => SameOrder n.order m.order ∧
    m.order.remaining ≤ n.order.remaining) (fun m flow m' _ hm hp => by
      obtain ⟨hsame, hle, -⟩ := (turn_of_pass hp).order
      exact ⟨hm.1.trans hsame, hle.trans hm.2⟩) ⟨rfl, le_rfl⟩ k
  refine ⟨hsame, hle, fun hs => ?_⟩
  obtain ⟨m, hrem, -, hturn⟩ := hstop hs
  rw [hturn.order.2.2 rfl]
  exact pos_of_ne_zero hrem

end NaiveCross

/-- The engine's crossing state matches the reference's. -/
structure Cross.Refines (c : Cross) (n : NaiveCross) : Prop where
  book : c.book.Refines n.book
  order : c.order = n.order
  trades : c.trades = n.trades
  budgetLeft : c.budgetLeft = n.budgetLeft
  stpCancelled : c.stpCancelled = n.stpCancelled

/-- Dropping an order that rests leaves fewer. -/
theorem size_rewrite_without_lt {b : OrderBook} {n : NaiveBook} (h : b.Refines n) {s : Side}
    {p : ℕ} {ids : List ℕ} {o : Order} (ho : o ∈ b.queue s p) (hid : o.id ∈ ids) :
    (n.rewrite (without ids) s).size < (n s).size := by
  have hmem : o ∈ (n s).elems := by
    rw [h.queue] at ho
    exact Ladder.mem_elems.mpr ⟨p, ho⟩
  rw [NaiveBook.rewrite, Ladder.size, Ladder.size, Ladder.elems_mapQueues]
  refine Nat.lt_of_le_of_ne (length_filterMap_le _ _) fun heq => ?_
  have hall := filterMap_length_eq_length.mp heq o hmem
  simp [without, hid] at hall

namespace Cross.Refines

variable {c : Cross} {n : NaiveCross}

variable (h : c.Refines n) (strategy : Strategy) (stp : SelfTradePolicy)
include h

/-- **The turn on the view of a level.** -/
theorem level (seq px : ℕ) {lots : ℕ} (hlots : 0 < lots) (hle : lots ≤ n.order.remaining)
    (hq : n.book.queue n.order.side.opposite px ≠ []) {view : List RestingOrder}
    (hview : view = reached strategy lots (n.book.queue n.order.side.opposite px)) :
    ∃ c', crossLevel strategy stp seq px lots view c =
        some ((n.level strategy stp seq px lots view).1, c') ∧
      c'.Refines (n.level strategy stp seq px lots view).2 ∧
      (c.book.HasRoom → c'.book.HasRoom) ∧
      ((n.level strategy stp seq px lots view).1 = .continue →
        (n.level strategy stp seq px lots view).2.measure < n.measure) := by
  obtain ⟨book, order, trades, budgetLeft, stpCancelled⟩ := c
  obtain ⟨hbook, rfl, rfl, rfl, rfl⟩ := h
  simp only at hbook
  obtain ⟨hpos, hsum, hlen, -⟩ := hbook.view_facts strategy n.order.side.opposite px lots
  have hvne := reached_ne_nil strategy lots hq
  have hmem : ∀ r ∈ view, ∃ o ∈ book.queue n.order.side.opposite px, r = o.toResting := by
    rw [hview]
    exact fun r hr => hbook.of_mem_view hr
  rw [← hview] at hpos hsum hlen hvne
  by_cases hown : ownInView stp n.order view
  · unfold crossLevel NaiveCross.level
    rw [if_pos hown, if_pos hown]
    obtain ⟨b', hcancel, h', hroom⟩ := hbook.cancelOwn n.order.user view n.stpCancelled
    have hmeasure : (n.pull (ownIds n.order.user view)).measure < n.measure := by
      obtain ⟨r, hr, huser⟩ := List.any_eq_true.mp hown.2.2
      obtain ⟨o, ho, rfl⟩ := hmem r hr
      refine Nat.add_lt_add_left (size_rewrite_without_lt hbook ho ?_) _
      exact List.mem_map.mpr ⟨o.toResting, mem_filter.mpr ⟨hr, huser⟩, rfl⟩
    cases stp with
    | allow => exact absurd rfl hown.1
    | cancelTaker =>
      exact ⟨_, rfl, ⟨hbook, rfl, rfl, rfl, rfl⟩, fun hr => hr, nofun⟩
    | cancelMaker =>
      simp only [hcancel, bind, bind_some]
      exact ⟨_, rfl, ⟨h', rfl, rfl, rfl, rfl⟩, hroom, fun _ => hmeasure⟩
    | cancelBoth =>
      simp only [hcancel, bind, bind_some]
      exact ⟨_, rfl, ⟨h', rfl, rfl, rfl, rfl⟩, hroom, nofun⟩
  · unfold crossLevel NaiveCross.level
    rw [if_neg hown, if_neg hvne, if_neg hown]
    obtain ⟨b', hfills, h', hroom⟩ :=
      hbook.applyFills strategy n.order.side.opposite px lots lots
    rw [← hview] at hfills h'
    rw [@crossFill_eq strategy seq lots
      ⟨book, n.order, n.trades, n.budgetLeft, n.stpCancelled⟩ px view b' hpos hsum hlen hvne
      hlots hfills]
    refine ⟨_, rfl, ⟨h', rfl, rfl, rfl, rfl⟩, hroom, fun _ => ?_⟩
    -- at least one lot trades
    have htotal := @allocate_total strategy view lots (fun _ => hsum) hpos
    have halloc : 0 < allocated (strategy.allocate view lots) := by
      obtain ⟨r, rest, hrest⟩ := exists_cons_of_ne_nil hvne
      have hrpos := hpos r (by rw [hrest]; exact mem_cons_self)
      rw [htotal, hrest, viewTotal_cons]
      omega
    have hsize : (n.book.rewrite (settle ((strategy.allocate view lots).map fillOf))
        n.order.side.opposite).size ≤ (n.book n.order.side.opposite).size := by
      rw [NaiveBook.rewrite, Ladder.size, Ladder.size, Ladder.elems_mapQueues]
      exact length_filterMap_le _ _
    simp only [NaiveCross.measure, NaiveCross.fill]
    omega

/-- **One turn of the loops.** -/
theorem pass (seq : ℕ) :
    ∃ c', crossPass strategy stp seq c = some ((n.pass strategy stp seq).1, c') ∧
      c'.Refines (n.pass strategy stp seq).2 ∧ (c.book.HasRoom → c'.book.HasRoom) ∧
      ((n.pass strategy stp seq).1 = .continue →
        (n.pass strategy stp seq).2.measure < n.measure) := by
  have hbest := h.book.best n.order.side.opposite
  rw [NaiveBook.best] at hbest
  rw [crossPass, NaiveCross.pass, h.order, hbest]
  cases hr : (n.book n.order.side.opposite).rungs.head? with
  | none => exact ⟨c, rfl, h, fun hroom => hroom, fun hc => by cases hc⟩
  | some e =>
    obtain ⟨px, q⟩ := e
    obtain ⟨hq, hne, -⟩ := Ladder.head?_eq_some hr
    simp only [map_some, h.budgetLeft]
    by_cases hcross : crossable n.order px = false
    · rw [if_pos hcross, if_pos (Or.inl hcross)]
      exact ⟨c, rfl, h, fun hroom => hroom, fun hc => by cases hc⟩
    by_cases hlots : affordable n.budgetLeft n.order.remaining px = 0
    · rw [if_neg hcross, if_pos hlots, if_pos (Or.inr hlots)]
      exact ⟨c, rfl, h, fun hroom => hroom, fun hc => by cases hc⟩
    rw [if_neg hcross, if_neg hlots, if_neg (not_or.mpr ⟨hcross, hlots⟩)]
    obtain ⟨b₁, hview, h₁, hroom₁⟩ := h.book.levelViewFor strategy n.order.side.opposite px
      (affordable n.budgetLeft n.order.remaining px)
    rw [show n.book.queue n.order.side.opposite px = q from hq] at hview
    have href : Cross.Refines { c with book := b₁ } n :=
      ⟨h₁, h.order, h.trades, h.budgetLeft, h.stpCancelled⟩
    obtain ⟨c', hlevel, h', hroom', hlt⟩ := href.level strategy stp seq px
      (pos_of_ne_zero hlots) (Nat.min_le_right _ _) (fun hc => hne (hq.symm.trans hc))
      (show _ = reached strategy _ (n.book.queue n.order.side.opposite px) from
        congrArg _ hq.symm)
    refine ⟨c', ?_, h', fun hroom => hroom' (hroom₁ hroom), hlt⟩
    simp only [hview, bind, bind_some]
    rw [h.order, h.budgetLeft] at hlevel
    exact hlevel

/-- **The loops**, with any sufficient numbers of turns. -/
theorem loop (seq : ℕ) {k m : ℕ} (hk : n.measure < k) (hm : n.measure < m) :
    ∃ c', crossLoop strategy stp seq k c = some (c', (n.loop strategy stp seq m).2) ∧
      c'.Refines (n.loop strategy stp seq m).1 ∧ (c.book.HasRoom → c'.book.HasRoom) := by
  induction k generalizing c n m with
  | zero => exact absurd hk (Nat.not_lt_zero _)
  | succ k ih =>
    obtain ⟨m, rfl⟩ := Nat.exists_eq_succ_of_ne_zero (ne_of_gt (Nat.zero_lt_of_lt hm))
    rw [crossLoop, NaiveCross.loop, h.order]
    by_cases hz : n.order.remaining = 0
    · rw [if_pos hz, if_pos hz]
      exact ⟨c, rfl, h, fun hroom => hroom⟩
    · rw [if_neg hz, if_neg hz]
      obtain ⟨c₁, hpass, h₁, hroom₁, hlt⟩ := h.pass strategy stp seq
      cases hp : n.pass strategy stp seq with
      | mk flow n₁ =>
        rw [hp] at hpass h₁ hlt
        simp only [hpass, bind, bind_some]
        cases flow with
        | «break» => exact ⟨c₁, rfl, h₁, hroom₁⟩
        | takerStopped => exact ⟨c₁, rfl, h₁, hroom₁⟩
        | «continue» =>
          have hlt₁ := hlt rfl
          obtain ⟨c', hloop, h', hroom'⟩ :=
            ih h₁ (Nat.lt_of_lt_of_le hlt₁ (Nat.le_of_lt_succ hk))
              (Nat.lt_of_lt_of_le hlt₁ (Nat.le_of_lt_succ hm))
          exact ⟨c', hloop, h', fun hroom => hroom' (hroom₁ hroom)⟩

end Cross.Refines

/-! ### Submitting -/

/-- Outcomes agree: they are equal, but for the order of the ids a mass cancellation lists. -/
def Outcome.Agrees : Outcome → Outcome → Prop
  | .cancelledAll ids, .cancelledAll ids' => ids.Perm ids'
  | o, o' => o = o'

/-- The engine matches the reference engine. -/
structure MatchingEngine.Refines (e : MatchingEngine) (n : NaiveEngine) : Prop where
  book : e.book.Refines n.book
  strategy : e.strategy = n.strategy
  seq : e.seq = n.seq
  stp : e.stp = n.stp
  stpCancelled : e.stpCancelled = n.stpCancelled

/-- What the budget step keeps of an order. -/
theorem NaiveEngine.applyBudget_keeps {n : NaiveEngine} {order order' : Order} {budget : ℕ}
    (h : n.applyBudget order = some (order', budget)) :
    order'.id = order.id ∧ order'.side = order.side ∧ order'.orderType = order.orderType ∧
      order'.quantity = order.quantity ∧ order'.remaining = order.remaining ∧
      (order.price < 2 ^ 64 → order'.price < 2 ^ 64) := by
  have hmax : priceMax < 2 ^ 64 := by decide
  have hfloor : MatchingEngine.budgetFloor order.price order.quantity < 2 ^ 64 :=
    Nat.lt_of_le_of_lt (Nat.div_le_self _ _) (Nat.mod_lt _ (Nat.two_pow_pos 64))
  cases ht : order.tif <;> cases hs : order.side <;> simp only [applyBudget, ht, hs] at h
  case fokBudget.buy =>
    split at h
    · cases h
    · cases h
      exact ⟨rfl, rfl, rfl, rfl, rfl, fun _ => hmax⟩
  all_goals
    cases h
  case iocBudget.sell | fokBudget.sell => exact ⟨rfl, rfl, rfl, rfl, rfl, fun _ => hfloor⟩
  case iocBudget.buy => exact ⟨rfl, rfl, rfl, rfl, rfl, fun _ => hmax⟩
  all_goals exact ⟨rfl, hs, rfl, rfl, rfl, id⟩

/-- The budget step never makes a good-till-cancel order. -/
theorem NaiveEngine.applyBudget_gtc {n : NaiveEngine} {order order' : Order} {budget : ℕ}
    (h : n.applyBudget order = some (order', budget)) (htif : order'.tif = .gtc) :
    order' = order := by
  cases ht : order.tif <;> cases hs : order.side <;>
    simp only [NaiveEngine.applyBudget, ht, hs] at h
  case fokBudget.buy =>
    split at h
    · cases h
    · simp only [some.injEq, Prod.mk.injEq] at h
      rw [← h.1] at htif
      cases htif
  all_goals
    cases h
  case gtc.buy | gtc.sell => rfl
  all_goals simp [ht] at htif

/-- Crossing changes of the order only its remaining quantity, does not raise it, and stops
the taker with lots left. -/
theorem NaiveEngine.cross_order (n : NaiveEngine) (order : Order) (budget : ℕ) :
    SameOrder order (n.cross order budget).1.order ∧
      (n.cross order budget).1.order.remaining ≤ order.remaining ∧
      ((n.cross order budget).2 = true → 0 < (n.cross order budget).1.order.remaining) :=
  NaiveCross.loop_order _ _ _ _ _

namespace MatchingEngine

/-- The remainder of a crossed order goes to the book. -/
def Remains (order : Order) : Prop :=
  0 < order.remaining ∧ order.orderType = .limit ∧ order.tif = .gtc

/-- `finalize` for an order that does not rest. -/
theorem finalize_of_not_remains (e : MatchingEngine) {order : Order} (h : ¬ Remains order) :
    e.finalize order = some (e,
      if order.remaining = 0 then .filled
      else if 0 < order.quantity - order.remaining then .partiallyFilled else .cancelled,
      order.quantity - order.remaining, false) := by
  rw [finalize]
  by_cases hz : order.remaining = 0
  · simp [hz]
  · cases ht : order.orderType <;> cases hf : order.tif <;> simp only [if_neg hz]
    exact absurd ⟨pos_of_ne_zero hz, ht, hf⟩ h

/-- `finalize` for an order that rests. -/
theorem finalize_of_remains (e : MatchingEngine) {order : Order} (h : Remains order) :
    e.finalize order = (e.book.insert order).map fun book => ({ e with book := book },
      if 0 < order.quantity - order.remaining then .partiallyFilled else .resting,
      order.quantity - order.remaining, true) := by
  obtain ⟨hrem, ht, hf⟩ := h
  simp only [finalize, if_neg hrem.ne', ht, hf, bind, Option.pure_def]
  cases e.book.insert order <;> rfl

namespace Refines

variable {e : MatchingEngine} {n : NaiveEngine}

variable (h : e.Refines n)
include h

theorem queue_eq : e.book.queue = n.book.queue := funext fun s => funext fun p => h.book.queue s p

/-- The start of a submission. -/
theorem stamped :
    Refines { e with seq := wrappingAdd 64 e.seq 1, stpCancelled := [] } n.stamped where
  book := h.book
  strategy := h.strategy
  seq := by rw [NaiveEngine.stamped, ← h.seq]
  stp := h.stp
  stpCancelled := rfl

/-- **The budget step.** -/
theorem applyBudget {order : Order} (hqty : order.quantity < 2 ^ 64) :
    e.applyBudget order = some (n.applyBudget order) := by
  cases ht : order.tif <;> cases hs : order.side <;>
    simp only [MatchingEngine.applyBudget, NaiveEngine.applyBudget, ht, hs]
  case fokBudget.buy =>
    simp only [h.book.costToFill hqty, bind, bind_some, Option.pure_def]
    split <;> rfl

/-- **The fill-or-kill precheck.** -/
theorem fokShort (order : Order) :
    e.fokShort order =
      if order.tif = .fok ∧ ¬ n.book.crossableQty order.side order.price < 2 ^ 64 then none
      else some (decide (n.FokShort order)) := by
  rw [MatchingEngine.fokShort, h.book.crossableQty]
  by_cases ht : order.tif = .fok
  · by_cases hlt : n.book.crossableQty order.side order.price < 2 ^ 64
    · simp only [ht, hlt, if_true, not_true_eq_false, and_false, if_false, map_some,
        NaiveEngine.FokShort, true_and]
    · simp only [ht, hlt, if_true, if_false, not_false_eq_true, and_self, map_none]
  · simp [ht, NaiveEngine.FokShort]

/-- **Crossing.** -/
theorem cross (order : Order) (budget : ℕ) :
    ∃ c, e.cross order budget = some (c, (n.cross order budget).2) ∧
      c.Refines (n.cross order budget).1 ∧ (e.book.HasRoom → c.book.HasRoom) := by
  have href : Cross.Refines
      { book := e.book, order := order, trades := [], budgetLeft := budget
        stpCancelled := e.stpCancelled }
      { book := n.book, order := order, trades := [], budgetLeft := budget
        stpCancelled := n.stpCancelled } := ⟨h.book, rfl, rfl, rfl, h.stpCancelled⟩
  have hsize := h.book.size_le order.side.opposite
  obtain ⟨c, hloop, hc, hroom⟩ := href.loop n.strategy n.stp n.seq
    (show _ < order.remaining + e.book.len + 2 by
      simp only [NaiveCross.measure]
      omega)
    (lt_add_one _)
  refine ⟨c, ?_, hc, hroom⟩
  rw [MatchingEngine.cross, h.strategy, h.stp, h.seq]
  exact hloop

/-- **Crossing and resting the remainder**, and when that aborts. -/
theorem crossAndFinalize {order : Order} {budget : ℕ} (hprice : order.price < 2 ^ 64)
    {nc : NaiveCross} {stopped : Bool} (hx : n.cross order budget = (nc, stopped)) :
    let InBounds := nc.Rests stopped → nc.book.find? nc.order.id = none ∧
      totalQty (nc.book.queue nc.order.side nc.order.price) + nc.order.remaining < 2 ^ 64
    (InBounds → (order.tif = .gtc → e.book.HasRoom) → ∃ e', e.crossAndFinalize order budget =
        some (e', (n.crossAndFinalize order budget).2) ∧
      e'.Refines (n.crossAndFinalize order budget).1) ∧
    (¬ InBounds → e.crossAndFinalize order budget = none) := by
  obtain ⟨c, hcross, hc, hroom'⟩ := h.cross order budget
  obtain ⟨hsame, -, hstop⟩ := n.cross_order order budget
  rw [hx] at hcross hc hsame hstop
  simp only [MatchingEngine.crossAndFinalize, NaiveEngine.crossAndFinalize, hx, hcross, bind,
    bind_some, hc.order, hc.trades]
  have href : ∀ book nb, book.Refines nb → Refines
      { e with book := book, stpCancelled := c.stpCancelled }
      { n with book := nb, stpCancelled := nc.stpCancelled } :=
    fun book nb hb => ⟨hb, h.strategy, h.seq, h.stp, hc.stpCancelled⟩
  have hprice' : nc.order.price < 2 ^ 64 := by
    rw [hsame]
    exact hprice
  have hfilled : 0 < nc.order.quantity - nc.order.remaining ↔
      nc.order.remaining < nc.order.quantity := by omega
  cases stopped with
  | true =>
    have hrest : ¬ nc.Rests true := fun hr => by cases hr.1
    have hrem : nc.order.remaining ≠ 0 := (hstop rfl).ne'
    refine ⟨fun _ _ => ?_, fun hbad => absurd (fun hr => absurd hr hrest) hbad⟩
    simp only [if_true, Option.pure_def, NaiveCross.status, hrest, if_false, if_neg hrem, hfilled,
      decide_false]
    exact ⟨_, rfl, href _ _ hc.book⟩
  | false =>
    simp only [Bool.false_eq_true, if_false]
    by_cases hr : Remains nc.order
    · -- the remainder goes to the book
      have hrest : nc.Rests false := ⟨rfl, hr⟩
      rw [finalize_of_remains _ hr]
      refine ⟨fun hin hroom => ?_, fun hbad => ?_⟩
      · obtain ⟨hid, hsum⟩ := hin hrest
        have htif : order.tif = .gtc := by
          have := hr.2.2
          rw [hsame] at this
          exact this
        obtain ⟨b', hins, hb'⟩ := hc.book.insert (hroom' (hroom htif)) hprice' hr.1 hid hsum
        simp only [hins, map_some, bind_some, Option.pure_def, NaiveCross.status,
          hrest, if_true, if_neg hr.1.ne', hfilled, decide_true]
        exact ⟨_, rfl, href _ _ hb'⟩
      · rw [hc.book.insert_abort hprice' hr.1 fun hin => hbad fun _ => hin]
        rfl
    · have hrest : ¬ nc.Rests false := fun hrest => hr hrest.2
      rw [finalize_of_not_remains _ hr]
      refine ⟨fun _ _ => ?_, fun hbad => absurd (fun hr => absurd hr hrest) hbad⟩
      simp only [bind_some, Option.pure_def, NaiveCross.status, hrest, if_false, hfilled,
        decide_false]
      exact ⟨_, rfl, href _ _ hc.book⟩

/-- The incoming order at the start of a submission. -/
theorem stampOrder (order : Order) :
    { order with timestamp := wrappingAdd 64 e.seq 1, remaining := order.quantity } =
      n.stampOrder order := by
  rw [NaiveEngine.stampOrder, h.seq]

/-- **Submitting** computes the reference report, as long as the reference stays within the
machine integers. Only an order that may rest needs room. -/
theorem submit {order : Order} (hroom : order.tif = .gtc → e.book.HasRoom)
    (hprice : order.price < 2 ^ 64) (hqty : order.quantity < 2 ^ 64) (hadm : n.Admits order) :
    ∃ e', e.submit order = some (e', (n.submit order).2) ∧ e'.Refines (n.submit order).1 := by
  obtain ⟨hfok, hrest⟩ := hadm
  simp only [MatchingEngine.submit, h.stampOrder, h.stamped.applyBudget
    (show (n.stampOrder order).quantity < 2 ^ 64 from hqty), bind, bind_some]
  rw [NaiveEngine.submit]
  cases hb : n.stamped.applyBudget (n.stampOrder order) with
  | none => exact ⟨_, rfl, h.stamped⟩
  | some r =>
    obtain ⟨order', budget⟩ := r
    obtain ⟨hid, -, -, -, -, hprice'⟩ := NaiveEngine.applyBudget_keeps hb
    have hfok' : ¬ (order'.tif = .fok ∧
        ¬ n.stamped.book.crossableQty order'.side order'.price < 2 ^ 64) :=
      fun hc => hc.2 (hfok _ hb hc.1)
    simp only [h.stamped.fokShort, if_neg hfok', bind_some, decide_eq_true_eq]
    by_cases hshort : n.stamped.FokShort order'
    · rw [if_pos hshort, if_pos hshort]
      refine ⟨_, ?_, h.stamped⟩
      rw [MatchingEngine.reject, hid]
      rfl
    · rw [if_neg hshort, if_neg hshort]
      cases hx : n.stamped.cross order' budget with
      | mk nc stopped =>
        refine (h.stamped.crossAndFinalize (hprice' hprice) hx).1
          (hrest _ hb hshort nc stopped hx) fun htif => hroom ?_
        rw [NaiveEngine.applyBudget_gtc hb htif] at htif
        exact htif

/-- A submission that leaves the machine integers aborts. -/
theorem submit_abort {order : Order} (hprice : order.price < 2 ^ 64)
    (hqty : order.quantity < 2 ^ 64) (hadm : ¬ n.Admits order) : e.submit order = none := by
  simp only [MatchingEngine.submit, h.stampOrder, h.stamped.applyBudget
    (show (n.stampOrder order).quantity < 2 ^ 64 from hqty), bind, bind_some]
  cases hb : n.stamped.applyBudget (n.stampOrder order) with
  | none =>
    refine absurd ⟨fun r hr => ?_, fun r hr => ?_⟩ hadm <;>
      · rw [hb] at hr
        cases hr
  | some r =>
    obtain ⟨order', budget⟩ := r
    have hprice' := (NaiveEngine.applyBudget_keeps hb).2.2.2.2.2 hprice
    simp only [h.stamped.fokShort]
    by_cases hfok : order'.tif = .fok ∧
        ¬ n.stamped.book.crossableQty order'.side order'.price < 2 ^ 64
    · rw [if_pos hfok]
      rfl
    · simp only [if_neg hfok, bind_some, decide_eq_true_eq]
      have hfok' : n.FokInBounds order := by
        intro r hr htif
        rw [hb, mem_some_iff] at hr
        subst hr
        exact Classical.not_not.mp fun hlt => hfok ⟨htif, hlt⟩
      have hrest : ¬ n.RestInBounds order := fun hrest => hadm ⟨hfok', hrest⟩
      by_cases hshort : n.stamped.FokShort order'
      · refine absurd (fun r hr hs => ?_) hrest
        rw [hb, mem_some_iff] at hr
        subst hr
        exact absurd hshort hs
      · rw [if_neg hshort]
        cases hx : n.stamped.cross order' budget with
        | mk nc stopped =>
          refine (h.stamped.crossAndFinalize hprice' hx).2 fun hin => hrest ?_
          intro r hr _ c stopped' hx'
          rw [hb, mem_some_iff] at hr
          subst hr
          rw [hx, Prod.mk.injEq] at hx'
          obtain ⟨rfl, rfl⟩ := hx'
          exact hin

/-! ### The other calls -/

/-- A book that refines the reference book, in the engine. -/
theorem withBook {book : OrderBook} {nb : NaiveBook} (hb : book.Refines nb) :
    Refines { e with book := book } { n with book := nb } :=
  ⟨hb, h.strategy, h.seq, h.stp, h.stpCancelled⟩

/-- **Cancelling.** -/
theorem cancel (id : ℕ) :
    ∃ e', e.cancel id = some (e', (n.cancel id).2) ∧ e'.Refines (n.cancel id).1 := by
  obtain ⟨b', hcancel, hb', -⟩ := h.book.cancel id
  refine ⟨{ e with book := b' }, ?_, h.withBook hb'⟩
  simp only [MatchingEngine.cancel, hcancel, bind, bind_some, Option.pure_def, NaiveEngine.cancel]

/-- **Cancelling all orders of a user** returns the reference's ids in some order. -/
theorem cancelAllForUser (ω : HashOrder) (user : ℕ) :
    ∃ e' ids, e.cancelAllForUser ω user = some (e', ids) ∧
      ids.Perm (n.cancelAllForUser user).2 ∧ e'.Refines (n.cancelAllForUser user).1 := by
  obtain ⟨ids, hids, hperm⟩ := h.book.ordersOfUser ω user
  obtain ⟨b', hcancel, hb', -⟩ := h.book.cancelEach ids
  refine ⟨{ e with book := b' }, ids, ?_, hperm, h.withBook ?_⟩
  · simp only [MatchingEngine.cancelAllForUser, hids, hcancel, bind, bind_some, Option.pure_def]
  · have hwithout : without ids =
        without ((n.book.orders.filter fun o => o.user = user).map Order.id) := by
      funext o
      simp only [without, hperm.mem_iff]
    rw [hwithout] at hb'
    exact hb'

/-- The start of an amendment: the resting order is looked up. -/
theorem modify_eq (id newPrice newQty : ℕ) :
    e.modify id newPrice newQty =
      match n.book.find? id with
      | none => some (e, .notFound)
      | some o =>
        if newPrice = o.price ∧ newQty ≤ o.remaining then
          if newQty = 0 then
            (e.book.cancel id).map fun r => ({ e with book := r.2 }, .cancelled id)
          else
            (e.book.reduce id newQty).map fun r =>
              ({ e with book := r.2 }, .reduced id newQty)
        else
          (e.book.cancel id).bind fun r => r.1.bind fun order =>
            (MatchingEngine.submit { e with book := r.2 }
              (NaiveEngine.requote order newPrice newQty)).map
                fun r => (r.1, .requoted r.2) := by
  rw [MatchingEngine.modify, ← h.book.get_eq]
  cases hget : e.book.get id with
  | none => rw [h.book.inv.locate_eq_none.mpr hget]
  | some o =>
    obtain ⟨slot, hloc, hslot, -⟩ := h.book.inv.of_get hget
    simp only [hloc, hslot, bind, bind_some, Option.pure_def]
    split
    · split
      · cases e.book.cancel id <;> rfl
      · cases e.book.reduce id newQty <;> rfl
    · cases e.book.cancel id with
      | none => rfl
      | some r =>
        obtain ⟨order, book⟩ := r
        cases order with
        | none => rfl
        | some order =>
          simp only [bind_some, NaiveEngine.requote]
          cases MatchingEngine.submit { e with book := book }
            { order with price := newPrice, quantity := newQty, remaining := newQty
                         tif := .gtc } <;> rfl

/-- **Amending.** -/
theorem modify (hroom : e.book.HasRoom) {id newPrice newQty : ℕ} (hprice : newPrice < 2 ^ 64)
    (hqty : newQty < 2 ^ 64) (hadm : n.CallAdmits (.modify id newPrice newQty)) :
    ∃ e', e.modify id newPrice newQty = some (e', (n.modify id newPrice newQty).2) ∧
      e'.Refines (n.modify id newPrice newQty).1 := by
  rw [h.modify_eq, NaiveEngine.modify]
  cases ho : n.book.find? id with
  | none => exact ⟨e, rfl, h⟩
  | some o =>
    obtain ⟨b', hcancel, hb', hroom'⟩ := h.book.cancel id
    rw [ho] at hcancel
    by_cases hkeep : newPrice = o.price ∧ newQty ≤ o.remaining
    · simp only [if_pos hkeep]
      by_cases hz : newQty = 0
      · simp only [if_pos hz, hcancel, map_some]
        exact ⟨_, rfl, h.withBook hb'⟩
      · obtain ⟨b'', hreduce, hb'', -⟩ :=
          h.book.reduce ho (pos_of_ne_zero hz) hkeep.2
        simp only [if_neg hz, hreduce, map_some]
        exact ⟨_, rfl, h.withBook hb''⟩
    · simp only [if_neg hkeep, hcancel, bind_some]
      obtain ⟨e', hsubmit, he'⟩ := (h.withBook hb').submit (fun _ => hroom' hroom)
        (show (NaiveEngine.requote o newPrice newQty).price < 2 ^ 64 from hprice) hqty
        (hadm o ho hkeep)
      rw [hsubmit]
      exact ⟨e', rfl, he'⟩

/-- An amendment whose re-entry leaves the machine integers aborts. -/
theorem modify_abort {id newPrice newQty : ℕ} (hprice : newPrice < 2 ^ 64) (hqty : newQty < 2 ^ 64)
    (hadm : ¬ n.CallAdmits (.modify id newPrice newQty)) : e.modify id newPrice newQty = none := by
  rw [h.modify_eq]
  simp only [NaiveEngine.CallAdmits, not_forall] at hadm
  obtain ⟨o, ho, hkeep, hadm⟩ := hadm
  obtain ⟨b', hcancel, hb', -⟩ := h.book.cancel id
  rw [ho] at hcancel
  have habort := (h.withBook hb').submit_abort
    (show (NaiveEngine.requote o newPrice newQty).price < 2 ^ 64 from hprice) hqty hadm
  rw [ho]
  simp only [if_neg hkeep, hcancel, bind_some, habort, map_none]

/-- **One call** computes the reference outcome. -/
theorem call (hroom : e.book.HasRoom) (ω : HashOrder) {c : Call} (hc : c.InRange)
    (hadm : n.CallAdmits c) :
    ∃ e' outcome, e.call ω c = some (e', outcome) ∧ outcome.Agrees (n.call c).2 ∧
      e'.Refines (n.call c).1 := by
  cases c with
  | submit order =>
    obtain ⟨e', hsubmit, he'⟩ := h.submit (fun _ => hroom) hc.price hc.quantity hadm
    exact ⟨e', .submitted (n.submit order).2, by rw [MatchingEngine.call, hsubmit]; rfl, rfl, he'⟩
  | modify id newPrice newQty =>
    obtain ⟨e', hmodify, he'⟩ := h.modify hroom hc.2.1 hc.2.2 hadm
    exact ⟨e', .modified (n.modify id newPrice newQty).2,
      by rw [MatchingEngine.call, hmodify]; rfl, rfl, he'⟩
  | cancel id =>
    obtain ⟨e', hcancel, he'⟩ := h.cancel id
    exact ⟨e', .cancelled (n.cancel id).2, by rw [MatchingEngine.call, hcancel]; rfl, rfl, he'⟩
  | cancelAllForUser user =>
    obtain ⟨e', ids, hcancel, hperm, he'⟩ := h.cancelAllForUser ω user
    exact ⟨e', .cancelledAll ids, by rw [MatchingEngine.call, hcancel]; rfl, hperm, he'⟩

/-- A call that leaves the machine integers aborts. -/
theorem call_abort (ω : HashOrder) {c : Call} (hc : c.InRange) (hadm : ¬ n.CallAdmits c) :
    e.call ω c = none := by
  cases c with
  | submit order => rw [MatchingEngine.call, h.submit_abort hc.price hc.quantity hadm]; rfl
  | modify id newPrice newQty =>
    rw [MatchingEngine.call, h.modify_abort hc.2.1 hc.2.2 hadm]
    rfl
  | cancel id => exact absurd trivial hadm
  | cancelAllForUser user => exact absurd trivial hadm

end Refines

end MatchingEngine

end TradeCore
