import TradeCore.Refinement
import TradeCore.Slab
import TradeCore.SlotWrap

/-!
# Whole Runs Refine the Reference

The engine returns what the reference returns, call after call, as long as the reference
stays within the 64-bit sums of the source and the slab has room for one more order before
each call. The room is a real condition: slot numbers and the live counters are 32-bit, so
that an engine with `2 ^ 32` resting orders no longer behaves like the reference
(`MatchingEngine.run_unroomy`).

## Main results

* `MatchingEngine.run_refines` — the run theorem.
* `MatchingEngine.roomy_of_length` — fewer than `2 ^ 32` calls never exhaust the slab.
-/

namespace TradeCore

open Std List Option

variable {o o' : Order}

/-! ### The ids of the reference book -/

namespace NaiveBook

variable {b : NaiveBook}

/-- The ids of the resting orders. -/
def ids (b : NaiveBook) : List ℕ := b.orders.map Order.id

/-- The orders of the book are those of its queues. -/
theorem mem_orders {o : Order} : o ∈ b.orders ↔ ∃ s p, o ∈ b.queue s p := by
  rw [orders, mem_append, Ladder.mem_elems, Ladder.mem_elems]
  constructor
  · rintro (⟨p, hp⟩ | ⟨p, hp⟩)
    · exact ⟨.buy, p, hp⟩
    · exact ⟨.sell, p, hp⟩
  · rintro ⟨s, p, hp⟩
    cases s with
    | buy => exact .inl ⟨p, hp⟩
    | sell => exact .inr ⟨p, hp⟩

/-- An id that does not rest is not found. -/
theorem find?_eq_none {id : ℕ} : b.find? id = none ↔ id ∉ b.ids := by
  rw [find?, List.find?_eq_none, ids]
  simp

/-- A rewriting that keeps ids adds none. -/
theorem ids_rewrite_subset {f : Order → Option Order} (hf : ∀ o o', f o = some o' → o'.id = o.id) :
    (b.rewrite f).ids ⊆ b.ids := by
  intro id hid
  obtain ⟨o', ho', rfl⟩ := List.mem_map.mp hid
  obtain ⟨s, p, hmem⟩ := mem_orders.mp ho'
  rw [queue_rewrite, mem_filterMap] at hmem
  obtain ⟨o, ho, hfo⟩ := hmem
  rw [hf o o' hfo]
  exact List.mem_map_of_mem (mem_orders.mpr ⟨s, p, ho⟩)

/-- An append adds the id of its order. -/
theorem ids_push_subset {order : Order} :
    (b.push order).ids ⊆ order.id :: b.ids := by
  intro id hid
  obtain ⟨o, ho, rfl⟩ := List.mem_map.mp hid
  obtain ⟨s, p, hmem⟩ := mem_orders.mp ho
  rw [queue_push] at hmem
  split at hmem
  · rcases mem_append.mp hmem with hmem | hmem
    · exact mem_cons_of_mem _ (List.mem_map_of_mem (mem_orders.mpr ⟨s, p, hmem⟩))
    · rw [mem_singleton.mp hmem]
      exact mem_cons_self
  · exact mem_cons_of_mem _ (List.mem_map_of_mem (mem_orders.mpr ⟨s, p, hmem⟩))

/-- A queue of a book within bounds has a 64-bit total. -/
theorem InBounds.totalQty_lt (h : b.InBounds) (s : Side) (p : ℕ) :
    totalQty (b.queue s p) < 2 ^ 64 := by
  by_cases hq : b.queue s p = []
  · rw [hq]
    exact Nat.two_pow_pos 64
  · have hmem : (p, b.queue s p) ∈ (b s).rungs := Ladder.mem_rungs.mpr ⟨rfl, hq⟩
    refine h (p, b.queue s p) ?_
    cases s with
    | buy => exact mem_append_left _ hmem
    | sell => exact mem_append_right _ hmem

end NaiveBook

/-- Dropping keeps ids. -/
theorem id_of_without {ids : List ℕ} (h : without ids o = some o') :
    o'.id = o.id := by
  rw [without] at h
  split at h
  · cases h
  · rw [some.inj h]

/-- Settling fills keeps ids. -/
theorem id_of_settle {fills : List (ℕ × ℕ)} (h : settle fills o = some o') :
    o'.id = o.id := by
  rw [settle] at h
  split at h
  · cases h
  · rw [← some.inj h]

/-- Shrinking keeps ids. -/
theorem id_of_shrunk {id r : ℕ} (h : OrderBook.shrunk id r o = some o') :
    o'.id = o.id := by
  rw [OrderBook.shrunk] at h
  split at h
  · split at h
    · cases h
    · rw [← some.inj h]
  · rw [some.inj h]

namespace NaiveEngine

/-- Crossing adds no id. -/
theorem ids_cross_subset (n : NaiveEngine) (order : Order) (budget : ℕ) :
    (n.cross order budget).1.book.ids ⊆ n.book.ids := by
  refine (NaiveCross.loop_keeps (P := fun c => c.book.ids ⊆ n.book.ids)
    (fun c flow c' _ hc hp => ?_) (List.Subset.refl _) _).1
  obtain rfl | ⟨-, ids, rfl⟩ | ⟨px, lots, q, view, allocs, -, rfl⟩ :=
    (NaiveCross.turn_of_pass hp).effect
  · exact hc
  · exact List.Subset.trans (NaiveBook.ids_rewrite_subset fun _ _ => id_of_without) hc
  · exact List.Subset.trans (NaiveBook.ids_rewrite_subset fun _ _ => id_of_settle) hc

/-- The book after crossing and resting. -/
theorem crossAndFinalize_book (n : NaiveEngine) (order : Order) (budget : ℕ) :
    (n.crossAndFinalize order budget).1.book =
      if (n.cross order budget).1.Rests (n.cross order budget).2 then
        (n.cross order budget).1.book.push (n.cross order budget).1.order
      else (n.cross order budget).1.book := rfl

/-- A submission adds at most the id it submits. -/
theorem ids_submit_subset (n : NaiveEngine) (order : Order) :
    (n.submit order).1.book.ids ⊆ order.id :: n.book.ids := by
  rw [submit]
  split
  · exact subset_cons_self _ _
  · rename_i order' budget hb
    split
    · exact subset_cons_self _ _
    · rw [crossAndFinalize_book]
      have hcross := n.stamped.ids_cross_subset order' budget
      obtain ⟨hsame, -⟩ := n.stamped.cross_order order' budget
      have hid : (n.stamped.cross order' budget).1.order.id = order.id := by
        rw [hsame]
        exact (applyBudget_keeps hb).1
      split
      · refine List.Subset.trans NaiveBook.ids_push_subset ?_
        rw [hid]
        exact cons_subset_cons _ hcross
      · exact List.Subset.trans hcross (subset_cons_self _ _)

/-- Within the bounds, a submission with a fresh id leaves no machine integer. -/
theorem admits_of_inBounds {n : NaiveEngine} {order : Order} (hfok : n.FokInBounds order)
    (hfresh : order.id ∉ n.book.ids) (hin : (n.submit order).1.book.InBounds) :
    n.Admits order := by
  refine ⟨hfok, ?_⟩
  rintro ⟨order', budget⟩ hb hshort c stopped hx hrests
  have hcross := n.stamped.ids_cross_subset order' budget
  obtain ⟨hsame, -⟩ := n.stamped.cross_order order' budget
  rw [submit, mem_def.mp hb] at hin
  simp only [if_neg hshort, crossAndFinalize_book, hx, if_pos hrests] at hin
  rw [hx] at hcross hsame
  constructor
  · rw [NaiveBook.find?_eq_none]
    intro hmem
    have hid : c.order.id = order.id := by
      rw [hsame]
      exact (applyBudget_keeps hb).1
    rw [hid] at hmem
    exact hfresh (hcross hmem)
  · have hlt := hin.totalQty_lt c.order.side c.order.price
    rw [NaiveBook.queue_push, if_pos ⟨rfl, rfl⟩, totalQty, map_append, sum_append] at hlt
    simpa [totalQty] using hlt

section

variable {order : Order}

/-- A good-till-cancel order is not rewritten. -/
theorem applyBudget_stampOrder (n : NaiveEngine) (htif : order.tif = .gtc) :
    n.stamped.applyBudget (n.stampOrder order) = some (n.stampOrder order, 2 ^ 128 - 1) := by
  rw [applyBudget, show (n.stampOrder order).tif = .gtc from htif]

/-- A good-till-cancel order is not prechecked. -/
theorem fokInBounds_gtc (n : NaiveEngine) (htif : order.tif = .gtc) : n.FokInBounds order := by
  intro r hr hfok
  rw [n.applyBudget_stampOrder htif, mem_some_iff] at hr
  rw [← hr] at hfok
  cases htif.symm.trans hfok

/-- A good-till-cancel order goes to the crossing loop as it is. -/
theorem submit_gtc (n : NaiveEngine) (htif : order.tif = .gtc) :
    n.submit order = n.stamped.crossAndFinalize (n.stampOrder order) (2 ^ 128 - 1) := by
  have hshort : ¬ n.stamped.FokShort (n.stampOrder order) := by
    rintro ⟨hfok, -⟩
    cases htif.symm.trans hfok
  rw [submit, n.applyBudget_stampOrder htif]
  exact if_neg hshort

/-- A limit order that finds no orders on the other side rests. -/
theorem submit_rest (n : NaiveEngine) (hempty : (n.book order.side.opposite).rungs = [])
    (htype : order.orderType = .limit) (htif : order.tif = .gtc) (hqty : order.quantity ≠ 0) :
    (n.submit order).1 = { n.stamped with book := n.book.push (n.stampOrder order) } := by
  have hbreak : NaiveCross.pass n.strategy n.stp n.stamped.seq
      ⟨n.book, n.stampOrder order, [], 2 ^ 128 - 1, []⟩ =
        (.break, ⟨n.book, n.stampOrder order, [], 2 ^ 128 - 1, []⟩) := by
    have hhead : (n.book order.side.opposite).rungs.head? = none := by rw [hempty, head?_nil]
    simp only [NaiveCross.pass, stampOrder, hhead]
  have hcross : n.stamped.cross (n.stampOrder order) (2 ^ 128 - 1) =
      (⟨n.book, n.stampOrder order, [], 2 ^ 128 - 1, []⟩, false) :=
    NaiveCross.loop_of_break hbreak _
  have hrests : NaiveCross.Rests ⟨n.book, n.stampOrder order, [], 2 ^ 128 - 1, []⟩ false :=
    ⟨rfl, pos_of_ne_zero hqty, htype, htif⟩
  rw [n.submit_gtc htif, crossAndFinalize, hcross]
  simp only [if_pos hrests]
  rfl

end

/-- Cancelling an id takes it out of the book. -/
theorem notMem_ids_cancel (n : NaiveEngine) (id : ℕ) : id ∉ (n.cancel id).1.book.ids := by
  intro hid
  obtain ⟨o, ho, hoid⟩ := List.mem_map.mp hid
  obtain ⟨s, p, hmem⟩ := NaiveBook.mem_orders.mp ho
  simp only [cancel, NaiveBook.queue_rewrite, mem_filterMap] at hmem
  obtain ⟨o', -, hw⟩ := hmem
  have hid' := id_of_without hw
  simp [without, ← hid', hoid] at hw

/-- Cancelling adds no id. -/
theorem ids_cancel_subset (n : NaiveEngine) (id : ℕ) : (n.cancel id).1.book.ids ⊆ n.book.ids :=
  NaiveBook.ids_rewrite_subset fun _ _ => id_of_without

end NaiveEngine

/-! ### Runs -/

/-- The id that a call submits. -/
def Call.submittedId : Call → Option ℕ
  | .submit order => some order.id
  | _ => none

/-- The ids that a run submits. -/
def submittedIds (calls : List (HashOrder × Call)) : List ℕ :=
  calls.filterMap fun c => c.2.submittedId

/-- The submitted ids, call by call. -/
theorem submittedIds_cons (ω : HashOrder) (c : Call) (calls : List (HashOrder × Call)) :
    submittedIds ((ω, c) :: calls) = c.submittedId.toList ++ submittedIds calls := by
  rw [submittedIds, filterMap_cons]
  cases c.submittedId <;> rfl

/-- The fill-or-kill precheck of a call sums to a 64-bit value. -/
def NaiveEngine.CallFokInBounds (n : NaiveEngine) : Call → Prop
  | .submit order => n.FokInBounds order
  | _ => True

/-- No level total and no fill-or-kill sum of a run exceeds 64 bits. -/
def NaiveEngine.Bounded (n : NaiveEngine) : List Call → Prop
  | [] => True
  | c :: calls =>
    n.CallFokInBounds c ∧ (n.call c).1.book.InBounds ∧ (n.call c).1.Bounded calls

instance NaiveEngine.decidableCallFokInBounds (n : NaiveEngine) (c : Call) :
    Decidable (n.CallFokInBounds c) :=
  match c with
  | .submit order => inferInstanceAs (Decidable (n.FokInBounds order))
  | .modify .. | .cancel _ | .cancelAllForUser _ => isTrue trivial

instance NaiveEngine.decidableBounded :
    (n : NaiveEngine) → (calls : List Call) → Decidable (n.Bounded calls)
  | _, [] => isTrue trivial
  | n, c :: calls =>
    have := decidableBounded (n.call c).1 calls
    inferInstanceAs (Decidable
      (n.CallFokInBounds c ∧ (n.call c).1.book.InBounds ∧ (n.call c).1.Bounded calls))

/-- Before each call of a run the slab has room for one more order. -/
def MatchingEngine.Roomy (e : MatchingEngine) : List (HashOrder × Call) → Prop
  | [] => True
  | (ω, c) :: calls =>
    e.book.HasRoom ∧ ∀ e' outcome, e.call ω c = some (e', outcome) → e'.Roomy calls

namespace NaiveEngine

/-- A call adds at most the id it submits. -/
theorem ids_call_subset (n : NaiveEngine) (c : Call) :
    (n.call c).1.book.ids ⊆ c.submittedId.toList ++ n.book.ids := by
  cases c with
  | submit order => exact n.ids_submit_subset order
  | modify id newPrice newQty =>
    simp only [call, modify, Call.submittedId, toList_none, nil_append]
    split
    · exact List.Subset.refl _
    · rename_i o ho
      split
      · split
        · exact n.ids_cancel_subset id
        · exact NaiveBook.ids_rewrite_subset fun _ _ => id_of_shrunk
      · refine List.Subset.trans ((n.cancel id).1.ids_submit_subset _) ?_
        refine cons_subset.mpr ⟨?_, n.ids_cancel_subset id⟩
        exact List.mem_map.mpr ⟨o, mem_of_find?_eq_some ho, rfl⟩
  | cancel id => exact n.ids_cancel_subset id
  | cancelAllForUser user => exact NaiveBook.ids_rewrite_subset fun _ _ => id_of_without

/-- Within the bounds, a call with a fresh id leaves no machine integer. -/
theorem callAdmits_of_inBounds {n : NaiveEngine} {c : Call} (hfok : n.CallFokInBounds c)
    (hfresh : ∀ id ∈ c.submittedId, id ∉ n.book.ids) (hin : (n.call c).1.book.InBounds) :
    n.CallAdmits c := by
  cases c with
  | submit order => exact admits_of_inBounds hfok (hfresh order.id rfl) hin
  | modify id newPrice newQty =>
    intro o ho hkeep
    have hoid : o.id = id := by simpa using find?_some (mem_def.mp ho)
    refine admits_of_inBounds (fokInBounds_gtc _ rfl) ?_ ?_
    · rw [show (requote o newPrice newQty).id = id from hoid]
      exact n.notMem_ids_cancel id
    · simp only [call, modify, mem_def.mp ho, if_neg hkeep] at hin
      exact hin
  | cancel id => trivial
  | cancelAllForUser user => trivial

end NaiveEngine

namespace MatchingEngine

variable {calls : List (HashOrder × Call)}

/-- **A run from related states** returns what the reference returns. -/
theorem Refines.run {e : MatchingEngine} {n : NaiveEngine} (h : e.Refines n)
    (hin : ∀ c ∈ calls, c.2.InRange) (hnodup : (submittedIds calls).Nodup)
    (hfresh : ∀ id ∈ submittedIds calls, id ∉ n.book.ids) (hbounds : n.Bounded (calls.map Prod.snd))
    (hroom : e.Roomy calls) :
    ∃ e' outcomes, e.run calls = some (e', outcomes) ∧
      List.Forall₂ Outcome.Agrees outcomes (n.run (calls.map Prod.snd)).2 ∧
      e'.Refines (n.run (calls.map Prod.snd)).1 := by
  induction calls generalizing e n with
  | nil => exact ⟨e, [], rfl, .nil, h⟩
  | cons c calls ih =>
    obtain ⟨ω, c⟩ := c
    obtain ⟨hroom₀, hroom'⟩ := hroom
    obtain ⟨hfok, hin', hbounds'⟩ := hbounds
    rw [submittedIds_cons] at hnodup hfresh
    obtain ⟨-, hnodup', hdisj⟩ := nodup_append.mp hnodup
    obtain ⟨e₁, outcome, hcall, hagree, h₁⟩ := h.call hroom₀ ω (hin _ mem_cons_self)
      (NaiveEngine.callAdmits_of_inBounds hfok
        (fun id hid => hfresh id (mem_append_left _ (mem_toList.mpr hid))) hin')
    have hids := n.ids_call_subset c
    obtain ⟨e', outcomes, hrun, hagrees, h'⟩ := ih h₁
      (fun c hc => hin c (mem_cons_of_mem _ hc)) hnodup'
      (fun id hid hmem => (mem_append.mp (hids hmem)).elim
        (fun hmem => hdisj id hmem id hid rfl) (hfresh id (mem_append_right _ hid)))
      hbounds' (hroom' e₁ outcome hcall)
    refine ⟨e', outcome :: outcomes, ?_, .cons hagree hagrees, h'⟩
    simp only at hcall
    simp only [MatchingEngine.run, hcall, hrun, bind, bind_some, Option.pure_def]

/-- New engines are related. -/
theorem Refines.fresh (strategy : Strategy) (stp : SelfTradePolicy) (maxOrders : ℕ)
    (prefault : Bool) :
    (fresh strategy stp maxOrders prefault).Refines (NaiveEngine.fresh strategy stp) where
  book :=
    { inv := OrderBook.Inv.withCapacity maxOrders prefault
      occupied := OrderBook.Occupied.withCapacity maxOrders prefault
      queue := fun s p =>
        OrderBook.queue_of_level?_none (OrderBook.withCapacity_level? maxOrders prefault s p) }
  strategy := rfl
  seq := rfl
  stp := rfl
  stpCancelled := rfl

/-! ### Room in the slab -/

/-- Few enough calls never exhaust the slab. -/
theorem Charted.roomy {e : MatchingEngine} (hc : e.book.Charted) (hin : ∀ c ∈ calls, c.2.InRange)
    (h : e.book.pool.slots.length + calls.length < 2 ^ 32) :
    e.Roomy calls := by
  induction calls generalizing e with
  | nil => trivial
  | cons c calls ih =>
    obtain ⟨ω, c⟩ := c
    obtain ⟨hc₀, hin⟩ := forall_mem_cons.mp hin
    rw [length_cons] at h
    refine ⟨.inr (by omega), fun e' outcome hcall => ?_⟩
    obtain ⟨hc', -, hlen⟩ := call_charted hc hc₀ hcall
    exact ih hc' hin (by omega)

/-- Few enough calls never exhaust the slab of a new engine. -/
theorem roomy_of_length {strategy : Strategy} {stp : SelfTradePolicy} {maxOrders : ℕ}
    {prefault : Bool} (hin : ∀ c ∈ calls, c.2.InRange) (h : calls.length < 2 ^ 32) :
    (fresh strategy stp maxOrders prefault).Roomy calls :=
  Charted.roomy (OrderBook.charted_withCapacity maxOrders prefault) hin
    (by cases prefault <;> exact (Nat.zero_add _).symm ▸ h)

/-! ### The run theorem -/

/-- The run returns what the reference run returns, and leaves its best prices, depth and
queues. -/
def RunsLike (e : MatchingEngine) (n : NaiveEngine) (calls : List (HashOrder × Call)) : Prop :=
  ∃ e' outcomes, e.run calls = some (e', outcomes) ∧
    List.Forall₂ Outcome.Agrees outcomes (n.run (calls.map Prod.snd)).2 ∧
    ∀ s, e'.book.best s = (n.run (calls.map Prod.snd)).1.book.best s ∧
      e'.book.depth s = some ((n.run (calls.map Prod.snd)).1.book.depth s) ∧
      ∀ p, e'.book.queue s p = (n.run (calls.map Prod.snd)).1.book.queue s p

/-- **The matching engine refines the reference engine.** For every strategy, self-trade
policy, pool capacity and sequence of calls with distinct submitted ids, as long as no level
total and no fill-or-kill sum leaves 64 bits and the slab has room before each call. -/
theorem run_refines (strategy : Strategy) (stp : SelfTradePolicy) (maxOrders : ℕ)
    (prefault : Bool) (calls : List (HashOrder × Call)) (hin : ∀ c ∈ calls, c.2.InRange)
    (hnodup : (submittedIds calls).Nodup)
    (hbounds : (NaiveEngine.fresh strategy stp).Bounded (calls.map Prod.snd))
    (hroom : (fresh strategy stp maxOrders prefault).Roomy calls) :
    (fresh strategy stp maxOrders prefault).RunsLike (NaiveEngine.fresh strategy stp) calls := by
  obtain ⟨e', outcomes, hrun, hagree, h⟩ := (Refines.fresh strategy stp maxOrders prefault).run
    hin hnodup (nofun) hbounds hroom
  exact ⟨e', outcomes, hrun, hagree, fun s => ⟨h.book.best s, h.book.depth s, h.book.queue s⟩⟩

/-- A run with a partial fill, a self-trade, an amendment and a mass cancellation. -/
theorem run_refines_smallRun :
    (fresh .sizePriority .cancelMaker 1 false).RunsLike
      (NaiveEngine.fresh .sizePriority .cancelMaker)
      [(1, .submit ((Order.limit 1 .sell 101 5).by_ 7)),
        (1, .submit ((Order.limit 2 .sell 101 9).by_ 8)),
        (1, .submit ((Order.limit 3 .buy 101 4).by_ 8)), (1, .modify 1 5000 2),
        (1, .submit ((Order.limit 4 .sell 5000 3).withTif .fok)), (1, .cancel 9),
        (1, .cancelAllForUser 7)] :=
  run_refines _ _ _ _ _ (by decide) (by decide) (by decide +kernel)
    (roomy_of_length (by decide) (by decide))

end MatchingEngine

/-! ### A slab without room -/

/-- The reference engine after the first `k` resting sell orders. -/
structure NaiveAfterSells (price : ℕ → ℕ) (k : ℕ) (n : NaiveEngine) : Prop where
  bids : (n.book .buy).rungs = []
  asks : ∀ p, n.book.queue .sell p = (sellsAt price k p).map (restedSell price)
  seq : n.seq = k

namespace NaiveAfterSells

variable {price : ℕ → ℕ} {k : ℕ} {n : NaiveEngine}

/-- The reference rests the next order. -/
theorem submit (h : NaiveAfterSells price k n) (hk : k + 1 < 2 ^ 64) :
    NaiveAfterSells price (k + 1) (n.submit (restingSell price k)).1 := by
  have hseq : wrappingAdd 64 n.seq 1 = k + 1 := by
    rw [h.seq, wrappingAdd, Nat.mod_eq_of_lt hk]
  have horder : n.stampOrder (restingSell price k) = restedSell price k := by
    rw [NaiveEngine.stampOrder, hseq]
    rfl
  rw [@NaiveEngine.submit_rest (restingSell price k) n h.bids rfl rfl one_ne_zero, horder]
  refine ⟨h.bids, fun p => ?_, hseq⟩
  · rw [NaiveBook.queue_push, h.asks, sellsAt_succ, map_append]
    by_cases hp : price k = p
    · rw [if_pos ⟨rfl, hp.symm⟩, if_pos hp]
      rfl
    · rw [if_neg fun hc => hp hc.2.symm, if_neg hp]
      simp

/-- One-lot orders keep the level totals small. -/
theorem inBounds (h : NaiveAfterSells price k n) (hk : k < 2 ^ 64) : n.book.InBounds := by
  rintro ⟨p, q⟩ he
  rw [h.bids, nil_append] at he
  obtain ⟨hq, -⟩ := Ladder.mem_rungs.mp he
  have hasks : q = (sellsAt price k p).map (restedSell price) := hq.symm.trans (h.asks p)
  have hone : q.map Order.remaining = (sellsAt price k p).map fun _ => 1 := by
    rw [hasks, List.map_map]
    rfl
  have hlen : (sellsAt price k p).length ≤ k := by
    have hle := length_filter_le (fun i => decide (price i = p)) (List.range k)
    rwa [length_range] at hle
  rw [totalQty, hone, map_const', sum_replicate, smul_eq_mul, mul_one]
  omega

/-- The reference has no trouble with any number of resting one-lot orders. -/
theorem bounded {m : ℕ} (h : NaiveAfterSells price k n) (hm : k + m < 2 ^ 64) :
    n.Bounded ((sells price k m).map Prod.snd) := by
  induction m generalizing k n with
  | zero => trivial
  | succ m ih =>
    have h₁ := h.submit (by omega)
    rw [sells, range'_succ, map_cons, map_cons]
    exact ⟨n.fokInBounds_gtc rfl, h₁.inBounds (by omega), ih h₁ (by omega)⟩

end NaiveAfterSells

/-- The ids of resting sell orders are distinct. -/
theorem nodup_submittedIds_sells (price : ℕ → ℕ) (k m : ℕ) :
    (submittedIds (sells price k m)).Nodup := by
  have hids : submittedIds (sells price k m) = (List.range' k m).map (· + 1) := by
    rw [submittedIds, sells, filterMap_map, ← filterMap_eq_map']
    rfl
  rw [hids]
  have hnd : (List.range' k m).Nodup := nodup_range'
  exact hnd.map fun _ _ hab => Nat.succ.inj hab

/-- The orders at one price, when all of them are. -/
theorem length_sellsAt_const (k p : ℕ) : (sellsAt (fun _ => p) k p).length = k := by
  simp [sellsAt]

/-- Without room the engine does not refine the reference: one lot for sale at 100, submitted
`2 ^ 32` times under distinct ids, keeps every sum below `2 ^ 33` and aborts on the live
counter of the level. -/
theorem MatchingEngine.run_unroomy :
    (∀ c ∈ sells (fun _ => 100) 0 (2 ^ 32), c.2.InRange) ∧
      (submittedIds (sells (fun _ => 100) 0 (2 ^ 32))).Nodup ∧
      (NaiveEngine.fresh .priceTimePriority .allow).Bounded
        ((sells (fun _ => 100) 0 (2 ^ 32)).map Prod.snd) ∧
      ¬ (fresh .priceTimePriority .allow 0 false).RunsLike
        (NaiveEngine.fresh .priceTimePriority .allow) (sells (fun _ => 100) 0 (2 ^ 32)) := by
  refine ⟨?_, nodup_submittedIds_sells _ _ _, ?_, ?_⟩
  · intro c hc
    obtain ⟨i, hi, rfl⟩ := List.mem_map.mp hc
    have hlt := (mem_range'_1.mp hi).2
    exact ⟨show i + 1 < 2 ^ 64 by omega, show 0 < 2 ^ 32 by decide, show 0 < 2 ^ 64 by decide,
      show 100 < 2 ^ 64 by decide, show 1 < 2 ^ 64 by decide, show 1 < 2 ^ 64 by decide,
      show 0 < 2 ^ 64 by decide⟩
  · refine NaiveAfterSells.bounded ⟨rfl, fun p => ?_, rfl⟩ (by norm_num)
    rfl
  · rintro ⟨e', outcomes, hrun, -⟩
    obtain ⟨e, hrun₁, hafter, -⟩ := (AfterSells.fresh (fun _ => 100) .priceTimePriority .allow 0
      false).run (m := 2 ^ 32 - 1) (by norm_num) (fun i _ _ => by norm_num) (fun i _ hi => by
        rw [length_sellsAt_const]
        omega)
    have hsplit := sells_append (fun _ => 100) 0 (2 ^ 32 - 1) 1
    rw [zero_add] at hafter hsplit
    rw [show 2 ^ 32 = 2 ^ 32 - 1 + 1 by norm_num] at hrun
    have habort := hafter.submit_abort (by norm_num) (by norm_num) (by
      rw [length_sellsAt_const]
      norm_num)
    rw [hsplit, run_append, hrun₁, bind_some] at hrun
    simp only [sells, range'_one, map_singleton, run, call, habort, bind, map_none,
      bind_none, reduceCtorEq] at hrun

end TradeCore
