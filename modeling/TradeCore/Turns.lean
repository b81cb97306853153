import TradeCore.RunRefines

/-!
# The Turns of the Reference Loop

Properties of trades and queues are proved on the reference loop. `NaiveCross.Turn`
says once what a turn can do, `NaiveCross.loop_induction` turns what every turn keeps into
what the loop keeps, and `MatchingEngine.Refines.of_run` says that every engine a run can
reach, with room in its slab before each call, has a reference engine behind it.

A turn allocates correctly because its book is one an engine can hold; that is what
`NaiveBook.Realized` records.
-/

namespace TradeCore

open Std List Option

/-- A reference book that some engine holds. -/
def NaiveBook.Realized (n : NaiveBook) : Prop := ∃ b : OrderBook, b.Refines n

namespace NaiveBook.Realized

variable {n : NaiveBook}

/-- The orders of a queue are live, on its side and at its price. -/
theorem of_mem_queue (h : n.Realized) {s : Side} {p : ℕ} {o : Order} (ho : o ∈ n.queue s p) :
    0 < o.remaining ∧ o.side = s ∧ o.price = p := by
  obtain ⟨b, hb⟩ := h
  rw [← hb.queue] at ho
  exact hb.inv.of_mem_queue ho

/-- One id rests at one price of one side. -/
theorem eq_of_id (h : n.Realized) {s s' : Side} {p p' : ℕ} {o o' : Order}
    (ho : o ∈ n.queue s p) (ho' : o' ∈ n.queue s' p') (hid : o.id = o'.id) :
    o = o' ∧ s = s' ∧ p = p' := by
  obtain ⟨b, hb⟩ := h
  rw [← hb.queue] at ho ho'
  exact hb.inv.eq_of_mem_queue ho ho' hid

/-- The ids of a queue are distinct. -/
theorem nodup_ids (h : n.Realized) (s : Side) (p : ℕ) : ((n.queue s p).map Order.id).Nodup := by
  obtain ⟨b, hb⟩ := h
  rw [← hb.queue]
  exact hb.inv.nodup_ids s p

end NaiveBook.Realized

/-! ### One turn -/

namespace NaiveCross.Trades

variable {n : NaiveCross} {strategy : Strategy} {px lots : ℕ} {q : List Order}
  {view : List RestingOrder} {allocs : List Allocation}

variable (h : n.Trades strategy px lots q view allocs)
include h

/-- The taker wants the lots. -/
theorem lots_le : lots ≤ n.order.remaining := by
  rw [h.lots_eq]
  exact Nat.min_le_right _ _

/-- The budget covers a lot at the price of the level. -/
theorem px_le : px ≤ n.budgetLeft := by
  have hpos := h.lots_pos
  rw [h.lots_eq, affordable] at hpos
  have hdiv : 0 < n.budgetLeft / max px 1 := Nat.lt_of_lt_of_le hpos (Nat.min_le_left _ _)
  have hle := (Nat.div_pos_iff.mp hdiv).2
  omega

/-- The level is the queue of its price. -/
theorem queue_eq :
    n.book.queue n.order.side.opposite px = q :=
  (Ladder.head?_eq_some h.best).1

/-- No maker has a better price. -/
theorem best_price {p : ℕ} {o : Order} (ho : o ∈ n.book.queue n.order.side.opposite p) :
    p = px ∨ n.order.side.opposite.better px p :=
  (Ladder.head?_eq_some h.best).2.2 p (ne_nil_of_mem ho)

/-- The reached makers are the front of the level. -/
theorem view_isPrefix : view <+: q.map Order.toResting := by
  rw [h.view_eq]
  exact reached_isPrefix strategy lots q

/-- What the strategies are promised. -/
theorem view_facts (hr : n.book.Realized) :
    (∀ r ∈ view, 0 < r.remaining) ∧ viewTotal view < 2 ^ 64 ∧ view.length ≤ 2 ^ 32 ∧
      (view.map RestingOrder.id).Nodup := by
  obtain ⟨b, hb⟩ := hr
  have hfacts := hb.view_facts strategy n.order.side.opposite px lots
  rw [h.queue_eq, ← h.view_eq] at hfacts
  exact hfacts

/-- The allocations do not exceed the taker's lots. -/
theorem allocated_le (hr : n.book.Realized) : allocated allocs ≤ n.order.remaining := by
  obtain ⟨hpos, hsum, -⟩ := h.view_facts hr
  rw [h.allocs_eq, allocate_total strategy (fun _ => hsum) hpos]
  exact Nat.le_trans (Nat.min_le_left _ _) h.lots_le

/-- An allocation fills an order of the level, and not more than it has. -/
theorem of_mem (hr : n.book.Realized) {a : Allocation} (ha : a ∈ allocs) :
    0 < a.qty ∧ ∃ o ∈ q, view[a.idx]? = some o.toResting ∧ o.id = a.id ∧ a.qty ≤ o.remaining := by
  obtain ⟨hpos, hsum, hlen, -⟩ := h.view_facts hr
  rw [h.allocs_eq] at ha
  obtain ⟨r, hget, hid, hle⟩ := allocate_names strategy (fun _ => hsum) hpos hlen ha
  obtain ⟨o, ho, rfl⟩ := List.mem_map.mp (h.view_isPrefix.subset (mem_of_getElem? hget))
  exact ⟨allocate_pos strategy (fun _ => hsum) hpos ha, o, ho, hget, hid.symm, hle⟩

/-- No maker is filled twice in one turn. -/
theorem nodup_ids (hr : n.book.Realized) : (allocs.map Allocation.id).Nodup := by
  obtain ⟨-, hsum, hlen, hids⟩ := h.view_facts hr
  have hidx := @allocate_nodup strategy view lots (fun _ => hsum) hlen
  rw [← h.allocs_eq, List.Nodup, pairwise_map] at hidx
  rw [List.Nodup, pairwise_map]
  refine hidx.imp_of_mem fun {a a'} ha ha' hne hid => hne ?_
  obtain ⟨-, o, -, hget, hoid, -⟩ := h.of_mem hr ha
  obtain ⟨-, o', -, hget', hoid', -⟩ := h.of_mem hr ha'
  have hmap : (view.map RestingOrder.id)[a.idx]? = (view.map RestingOrder.id)[a'.idx]? := by
    rw [getElem?_map, getElem?_map, hget, hget']
    exact congrArg some (hoid.trans (hid.trans hoid'.symm))
  refine (getElem?_inj ?_ hids).mp hmap
  rw [length_map]
  exact (List.getElem?_eq_some_iff.mp hget).1

end NaiveCross.Trades

namespace NaiveCross

variable {strategy : Strategy} {stp : SelfTradePolicy} {seq : ℕ} {n n' : NaiveCross} {flow : Flow}

/-- A turn keeps the book one that an engine can hold. -/
theorem realized_pass (h : n.book.Realized) (hp : n.pass strategy stp seq = (flow, n')) :
    n'.book.Realized := by
  obtain ⟨b, hb⟩ := h
  have href : Cross.Refines ⟨b, n.order, n.trades, n.budgetLeft, n.stpCancelled⟩ n :=
    ⟨hb, rfl, rfl, rfl, rfl⟩
  obtain ⟨c', -, hc', -⟩ := href.pass strategy stp seq
  rw [hp] at hc'
  exact ⟨c'.book, hc'.book⟩

/-- **Loop invariants** on books that an engine can hold. -/
theorem loop_induction {P : NaiveCross → Prop}
    (hstep : ∀ n flow n', n.book.Realized → P n → n.Turn strategy stp seq flow n' → P n')
    (hr : n.book.Realized) (h : P n) (k : ℕ) :
    P (n.loop strategy stp seq k).1 ∧ (n.loop strategy stp seq k).1.book.Realized ∧
      ((n.loop strategy stp seq k).2 = true → ∃ m, m.book.Realized ∧ P m ∧
        m.Turn strategy stp seq .takerStopped (n.loop strategy stp seq k).1) := by
  obtain ⟨⟨hreal, hend⟩, hstop⟩ := loop_keeps (P := fun m => m.book.Realized ∧ P m)
    (fun m flow m' _ hm hp => ⟨realized_pass hm.1 hp, hstep m flow m' hm.1 hm.2 (turn_of_pass hp)⟩)
    ⟨hr, h⟩ k
  refine ⟨hend, hreal, fun hs => ?_⟩
  obtain ⟨m, -, hm, hturn⟩ := hstop hs
  exact ⟨m, hm.1, hm.2, hturn⟩

end NaiveCross

/-! ### Reachable engines -/

/-- A submission keeps the configuration. -/
theorem NaiveEngine.submit_config (n : NaiveEngine) (order : Order) :
    (n.submit order).1.strategy = n.strategy ∧ (n.submit order).1.stp = n.stp := by
  rw [submit]
  split
  · exact ⟨rfl, rfl⟩
  · split <;> exact ⟨rfl, rfl⟩

/-- A call keeps the configuration. -/
theorem NaiveEngine.call_config (n : NaiveEngine) (c : Call) :
    (n.call c).1.strategy = n.strategy ∧ (n.call c).1.stp = n.stp := by
  cases c with
  | submit order => exact n.submit_config order
  | cancel id => exact ⟨rfl, rfl⟩
  | cancelAllForUser user => exact ⟨rfl, rfl⟩
  | modify id newPrice newQty =>
    simp only [call, modify]
    split
    · exact ⟨rfl, rfl⟩
    · split
      · split <;> exact ⟨rfl, rfl⟩
      · exact (n.cancel id).1.submit_config _

/-- A run keeps the configuration. -/
theorem NaiveEngine.run_config (n : NaiveEngine) (calls : List Call) :
    (n.run calls).1.strategy = n.strategy ∧ (n.run calls).1.stp = n.stp := by
  induction calls generalizing n with
  | nil => exact ⟨rfl, rfl⟩
  | cons c calls ih =>
    obtain ⟨hstrategy, hstp⟩ := n.call_config c
    exact ⟨(ih _).1.trans hstrategy, (ih _).2.trans hstp⟩

/-- Outcomes agree when they are equal, or list cancelled ids. -/
theorem Outcome.Agrees.eq_or {o o' : Outcome} (h : o.Agrees o') :
    o = o' ∨ ∃ ids ids', o = .cancelledAll ids ∧ o' = .cancelledAll ids' := by
  unfold Outcome.Agrees at h
  split at h
  · exact .inr ⟨_, _, rfl, rfl⟩
  · exact Or.inl h

namespace MatchingEngine.Refines

variable {e e' : MatchingEngine} {n : NaiveEngine}

/-- A call that returns is a call of the reference. -/
theorem of_call (h : e.Refines n) (hroom : e.book.HasRoom) {ω : HashOrder} {c : Call}
    (hc : c.InRange) {outcome : Outcome} (hcall : e.call ω c = some (e', outcome)) :
    outcome.Agrees (n.call c).2 ∧ e'.Refines (n.call c).1 ∧ n.CallAdmits c := by
  by_cases hadm : n.CallAdmits c
  · obtain ⟨e₁, outcome₁, hcall₁, hagree, h₁⟩ := h.call hroom ω hc hadm
    rw [hcall, some.injEq, Prod.mk.injEq] at hcall₁
    obtain ⟨rfl, rfl⟩ := hcall₁
    exact ⟨hagree, h₁, hadm⟩
  · rw [h.call_abort ω hc hadm] at hcall
    cases hcall

/-- A submission that returns is a submission to the reference. -/
theorem of_submit (h : e.Refines n) {order : Order} (hroom : order.tif = .gtc → e.book.HasRoom)
    (hprice : order.price < 2 ^ 64) (hqty : order.quantity < 2 ^ 64) {report : SubmitReport}
    (hsubmit : e.submit order = some (e', report)) :
    report = (n.submit order).2 ∧ e'.Refines (n.submit order).1 ∧ n.Admits order := by
  by_cases hadm : n.Admits order
  · obtain ⟨e₁, hsubmit₁, h₁⟩ := h.submit hroom hprice hqty hadm
    rw [hsubmit, some.injEq, Prod.mk.injEq] at hsubmit₁
    obtain ⟨rfl, rfl⟩ := hsubmit₁
    exact ⟨rfl, h₁, hadm⟩
  · rw [h.submit_abort hprice hqty hadm] at hsubmit
    cases hsubmit

/-- **Every run with room is a run of the reference.** -/
theorem of_run {calls : List (HashOrder × Call)} (h : e.Refines n)
    (hin : ∀ c ∈ calls, c.2.InRange) (hroom : e.Roomy calls) {outcomes : List Outcome}
    (hrun : e.run calls = some (e', outcomes)) :
    List.Forall₂ Outcome.Agrees outcomes (n.run (calls.map Prod.snd)).2 ∧
      e'.Refines (n.run (calls.map Prod.snd)).1 := by
  induction calls generalizing e n outcomes with
  | nil =>
    simp only [MatchingEngine.run, some.injEq, Prod.mk.injEq] at hrun
    obtain ⟨rfl, rfl⟩ := hrun
    exact ⟨.nil, h⟩
  | cons c calls ih =>
    obtain ⟨ω, c⟩ := c
    simp only [MatchingEngine.run, bind, bind_eq_some_iff, Prod.exists, Option.pure_def,
      some.injEq, Prod.mk.injEq] at hrun
    obtain ⟨e₁, outcome, hcall, e₂, outcomes', hrun, rfl, rfl⟩ := hrun
    obtain ⟨hagree, h₁, -⟩ := h.of_call hroom.1 (hin _ mem_cons_self) hcall
    obtain ⟨hagrees, h'⟩ := ih h₁ (fun c hc => hin c (mem_cons_of_mem _ hc))
      (hroom.2 e₁ outcome hcall) hrun
    exact ⟨.cons hagree hagrees, h'⟩

end MatchingEngine.Refines

end TradeCore
