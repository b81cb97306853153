import TradeCore.BookOps

/-!
# Every Sequence of Book Operations Keeps the Representation

The invariant of `BookInv` over whole runs: from an empty book, every sequence of
insertions, fills, reductions, cancellations and level views that the book accepts ends in
a state whose six structures describe the same resting orders.
-/

namespace TradeCore

open Std List Option

/-- A mutating operation of the book. -/
inductive BookOp
  | tryInsert (order : Order)
  | applyFills (side : Side) (price : ℕ) (fills : List (ℕ × ℕ))
  | reduce (id newRemaining : ℕ)
  | cancel (id : ℕ)
  | levelViewInto (side : Side) (price : ℕ)
  | levelViewCapped (side : Side) (price capQty : ℕ)

/-- The order of an insertion has fields of the machine's width. -/
def BookOp.InRange : BookOp → Prop
  | .tryInsert order => order.InRange
  | _ => True

instance BookOp.decidableInRange (op : BookOp) : Decidable op.InRange := by
  cases op <;> unfold BookOp.InRange <;> infer_instance

namespace OrderBook

variable {b b' : OrderBook}

/-- The book after one operation; `none` where an assertion fails. -/
def step (b : OrderBook) : BookOp → Option OrderBook
  | .tryInsert order => (b.tryInsert order).map Prod.snd
  | .applyFills side price fills => b.applyFills side price fills
  | .reduce id newRemaining => (b.reduce id newRemaining).map Prod.snd
  | .cancel id => (b.cancel id).map Prod.snd
  | .levelViewInto side price => (b.levelViewInto side price).map Prod.snd
  | .levelViewCapped side price capQty => (b.levelViewCapped side price capQty).map Prod.snd

/-- The book after a sequence of operations. -/
def run (b : OrderBook) (ops : List BookOp) : Option OrderBook :=
  ops.foldlM step b

/-! ### One step -/

/-- Every accepted operation keeps the book tidy, and none shrinks the slab. -/
theorem Tidy.step (h : b.Tidy) {op : BookOp} (hop : op.InRange) (hstep : b.step op = some b') :
    b'.Tidy ∧ b.pool.slots.length ≤ b'.pool.slots.length := by
  have hthins : ∀ {b' ids}, b.Thins b' ids → b'.Tidy ∧ b.pool.slots.length ≤ b'.pool.slots.length :=
    fun ht => ⟨ht.tidy, ht.length.ge⟩
  cases op with
  | tryInsert order =>
    obtain ⟨⟨r, b₁⟩, h', rfl⟩ := map_eq_some_iff.mp hstep
    obtain ⟨htidy, hle, -⟩ := h.tryInsert hop.price h'
    exact ⟨htidy, hle⟩
  | applyFills side price fills => exact hthins (h.applyFills hstep)
  | reduce id newRemaining =>
    obtain ⟨⟨r, b₁⟩, h', rfl⟩ := map_eq_some_iff.mp hstep
    exact hthins (h.reduce h')
  | cancel id =>
    obtain ⟨⟨r, b₁⟩, h', rfl⟩ := map_eq_some_iff.mp hstep
    exact hthins (h.cancel h')
  | levelViewInto side price | levelViewCapped side price capQty =>
    obtain ⟨⟨r, b₁⟩, h', rfl⟩ := map_eq_some_iff.mp hstep
    exact hthins (h.levelViewCapped h').1

/-- An accepted insertion keeps the invariant. -/
theorem Inv.of_tryInsert (h : b.Inv) (hocc : b.Occupied) {order : Order} {r : Bool}
    (hprice : order.price < 2 ^ 64) (hlen : b'.pool.slots.length < 2 ^ 32)
    (hins : b.tryInsert order = some (r, b')) : b'.Inv ∧ b'.Occupied := by
  rcases tryInsert_eq_some hins with ⟨-, rfl, -⟩ | ⟨hr, -, -, -, -, hrem, hnew, -⟩
  · exact ⟨h, hocc⟩
  · rw [ExtTreeMap.mem_iff_isSome_getElem?, not_isSome_iff_eq_none] at hnew
    by_cases hsum : ((b.queue order.side order.price).map Order.remaining).sum +
        order.remaining < 2 ^ 64
    · have hroom : b.HasRoom := by
        by_cases hfree : b.pool.free = []
        · obtain ⟨-, -, -, hgrow⟩ := Tidy.tryInsert ⟨h.index, hocc⟩ hprice hins
          have := hgrow hr hfree
          exact .inr (by omega)
        · exact .inl hfree
      obtain ⟨b₁, hb₁, h₁, hocc₁, -⟩ := h.tryInsert hocc hroom hprice hrem hnew hsum
      obtain ⟨-, rfl⟩ := Prod.mk.inj (mem_unique hins hb₁)
      exact ⟨h₁, hocc₁⟩
    · rw [h.tryInsert_abort hprice hrem hnew hsum] at hins
      cases hins

/-- **One accepted operation keeps the invariant**, as long as the slab stays below
`2 ^ 32` slots. -/
theorem Inv.step (h : b.Inv) (hocc : b.Occupied) {op : BookOp} (hop : op.InRange)
    (hlen : b'.pool.slots.length < 2 ^ 32) (hstep : b.step op = some b') :
    b'.Inv ∧ b'.Occupied := by
  cases op with
  | tryInsert order =>
    obtain ⟨⟨r, b₁⟩, hins, rfl⟩ := map_eq_some_iff.mp hstep
    exact h.of_tryInsert hocc hop.price hlen hins
  | applyFills side price fills =>
    obtain ⟨h', hocc', -⟩ := h.applyFills hocc hstep
    exact ⟨h', hocc'⟩
  | reduce id n =>
    obtain ⟨⟨r, b₁⟩, hred, rfl⟩ := map_eq_some_iff.mp hstep
    cases hget : b.get id with
    | none =>
      rw [OrderBook.reduce, h.locate_eq_none.mpr hget] at hred
      cases hred
      exact ⟨h, hocc⟩
    | some o =>
      by_cases hn : n = 0
      · obtain ⟨i, hloc, -⟩ := h.of_get hget
        obtain ⟨b₂, hb₂, h₂, hocc₂, -⟩ := h.cancel hocc hget
        simp only [OrderBook.reduce, hloc, if_pos hn, hb₂, bind, bind_some, Option.pure_def] at hred
        cases hred
        exact ⟨h₂, hocc₂⟩
      · by_cases hle : n ≤ o.remaining
        · obtain ⟨b₂, hb₂, h₂, hocc₂, -⟩ := h.reduce hocc hget (pos_of_ne_zero hn) hle
          cases hred.symm.trans hb₂
          exact ⟨h₂, hocc₂⟩
        · rw [h.reduce_refused hget (Nat.lt_of_not_le hle)] at hred
          cases hred
          exact ⟨h, hocc⟩
  | cancel id =>
    obtain ⟨⟨r, b₁⟩, hcan, rfl⟩ := map_eq_some_iff.mp hstep
    cases hget : b.get id with
    | none =>
      rw [h.cancel_of_none hget] at hcan
      cases hcan
      exact ⟨h, hocc⟩
    | some o =>
      obtain ⟨b₂, hb₂, h₂, hocc₂, -⟩ := h.cancel hocc hget
      cases hcan.symm.trans hb₂
      exact ⟨h₂, hocc₂⟩
  | levelViewInto side price =>
    obtain ⟨⟨r, b₁⟩, hview, rfl⟩ := map_eq_some_iff.mp hstep
    obtain ⟨b₂, hb₂, h₂, hocc₂, -⟩ := h.levelViewCapped hocc side price priceMax
    rw [OrderBook.levelViewInto, hb₂] at hview
    cases hview
    exact ⟨h₂, hocc₂⟩
  | levelViewCapped side price capQty =>
    obtain ⟨⟨r, b₁⟩, hview, rfl⟩ := map_eq_some_iff.mp hstep
    obtain ⟨b₂, hb₂, h₂, hocc₂, -⟩ := h.levelViewCapped hocc side price capQty
    cases hview.symm.trans hb₂
    exact ⟨h₂, hocc₂⟩

/-! ### Whole runs -/

section

variable (capacity : ℕ) (prefault : Bool)

/-- The slab of a new pool is empty, prefaulted or not. -/
@[simp] theorem withCapacity_slots : (OrderPool.withCapacity capacity prefault).slots = [] := by
  cases prefault <;> rfl

/-- A new book stores no level. -/
theorem withCapacity_level? (s : Side) (p : ℕ) :
    ((withCapacity capacity prefault).side s).level? p = none := by
  cases s <;> exact LevelIndex.level?_empty p

/-- A new book has no queues. -/
theorem withCapacity_queueSlots (s : Side) (p : ℕ) :
    (withCapacity capacity prefault).queueSlots s p = [] := by
  rw [queueSlots, withCapacity_level?]
  rfl

/-- The invariant holds of a new book. -/
theorem Inv.withCapacity : (withCapacity capacity prefault).Inv := by
  have hlevel := withCapacity_level? capacity prefault
  have hqs := withCapacity_queueSlots capacity prefault
  have hslots : (OrderBook.withCapacity capacity prefault).pool.slots = [] :=
    withCapacity_slots capacity prefault
  have hget : ∀ i, (OrderBook.withCapacity capacity prefault).pool.get i = none := by
    intro i
    rw [OrderPool.get, hslots]
    rfl
  refine
    { bounded := by rw [hslots]; decide
      index := fun s => by cases s <;> exact LevelIndex.WF.empty
      queued := fun s p i hi => by rw [hqs] at hi; cases hi
      nodup := fun s p => by rw [hqs]; exact nodup_nil
      live_queued := fun i o ho => by rw [hget] at ho; cases ho
      located := fun id i => by
        rw [hget]
        simp [OrderBook.withCapacity]
      qty := fun s p lv hlv => by rw [hlevel] at hlv; cases hlv
      live := fun s p lv hlv => by rw [hlevel] at hlv; cases hlv
      free_nodup := nodup_nil
      free_iff := fun i => by
        rw [hslots]
        simp [OrderBook.withCapacity, OrderPool.withCapacity]
      counts := fun u => by
        rw [hslots]
        simp [OrderBook.withCapacity, liveCount] }

/-- Every level of a new book has a live order, as there is none. -/
theorem Occupied.withCapacity : (withCapacity capacity prefault).Occupied := by
  intro s p lv hlv
  rw [withCapacity_level?] at hlv
  cases hlv

end

/-- **The invariant over whole runs**: whatever the operations, the state they reach
satisfies it, as long as the slab stays below `2 ^ 32` slots. -/
theorem Inv.run (h : b.Inv) (hocc : b.Occupied) {ops : List BookOp} (hops : ∀ op ∈ ops, op.InRange)
    (hlen : b'.pool.slots.length < 2 ^ 32) (hrun : b.run ops = some b') : b'.Inv ∧ b'.Occupied := by
  suffices b'.Tidy ∧ (b'.pool.slots.length < 2 ^ 32 → b'.Inv) from ⟨this.2 hlen, this.1.occupied⟩
  clear hlen
  induction ops using List.reverseRecOn generalizing b' with
  | nil =>
    obtain rfl : b = b' := by simpa [OrderBook.run] using hrun
    exact ⟨⟨h.index, hocc⟩, fun _ => h⟩
  | append_singleton ops op ih =>
    rw [OrderBook.run, foldlM_append] at hrun
    obtain ⟨b₁, hrun₁, hstep⟩ := bind_eq_some_iff.mp hrun
    have hstep' : b₁.step op = some b' := by simpa using hstep
    have hop := hops op (mem_append_right _ (mem_singleton_self op))
    obtain ⟨ht₁, h₁⟩ := ih (fun op hop => hops op (mem_append_left _ hop)) hrun₁
    -- the slab never shrinks, so the bound on the last state bounds all of them
    obtain ⟨ht', hle⟩ := ht₁.step hop hstep'
    exact ⟨ht', fun hlen => ((h₁ (by omega)).step ht₁.occupied hop hlen hstep').1⟩

/-- The representation invariant of the book, part by part. -/
structure RepInv (b : OrderBook) : Prop where
  /-- `locate` maps exactly the ids of live orders to their slot. -/
  located : ∀ id i : ℕ, b.locate[id]? = some i ↔
    ∃ o, b.pool.get i = some o ∧ 0 < o.remaining ∧ o.id = id
  /-- A live slot occurs once, in the queue of its own side and price only. -/
  queued_once : ∀ i o, b.pool.get i = some o → 0 < o.remaining → ∀ s p,
    (b.queueSlots s p).count i = if s = o.side ∧ p = o.price then 1 else 0
  /-- The aggregates of every level. -/
  aggregates : ∀ s p lv, (b.side s).level? p = some lv →
    lv.qty = ((liveOrders b.pool lv.orders).map Order.remaining).sum ∧
      lv.live = (liveOrders b.pool lv.orders).length
  /-- An occupancy bit is set exactly over a level with live orders. -/
  bit_iff : ∀ s (i : Fin window), (b.side s).bit i = true ↔
    ∃ lv, (b.side s).levels[i.val]? = some (some lv) ∧ 0 < lv.live
  /-- A summary bit is set exactly over a non-zero word. -/
  summary_iff : ∀ s (w : Fin wWords),
    (b.side s).summary.getLsbD w.val = true ↔ (b.side s).word w ≠ 0
  /-- The counter counts the set bits. -/
  inWindow_eq : ∀ s, (b.side s).inWindow =
    (Finset.univ.filter fun i => (b.side s).bit i = true).card
  /-- The overflow map holds levels with live orders at prices outside the window. -/
  overflow : ∀ s (p : ℕ) (lv : Level), (b.side s).overflow[p]? = some lv →
    (p < (b.side s).base ∨ (b.side s).base + window ≤ p) ∧ 0 < lv.live
  /-- The free list has no duplicates. -/
  free_nodup : b.pool.free.Nodup
  /-- No free slot is referenced by a queue. -/
  free_disjoint : ∀ i ∈ b.pool.free, ∀ s p, i ∉ b.queueSlots s p
  /-- Every slot is free or referenced. -/
  free_or_queued : ∀ i < b.pool.slots.length,
    i ∈ b.pool.free ∨ ∃ s p, i ∈ b.queueSlots s p
  /-- The per-user counters. -/
  userCounts : ∀ u, u ≠ 0 → b.userOpenOrders u = liveCount b.pool.slots u
  /-- No counter is zero. -/
  userCounts_pos : ∀ u n : ℕ, b.userCounts[u]? = some n → 0 < n

/-- The inductive invariant gives every part of the representation invariant. -/
theorem Inv.repInv (h : b.Inv) (hocc : b.Occupied) : b.RepInv := by
  refine
    { located := h.located
      queued_once := ?_
      aggregates := ?_
      bit_iff := ?_
      summary_iff := ?_
      inWindow_eq := fun s => (h.index s).inWindow_eq
      overflow := ?_
      free_nodup := h.free_nodup
      free_disjoint := fun i hi => ((h.free_iff i).mp hi).2
      free_or_queued := ?_
      userCounts := ?_
      userCounts_pos := ?_ }
  · intro i o hget hrem s p
    have hi := h.live_queued i o hget hrem
    split
    · rename_i hc
      rw [hc.1, hc.2]
      exact count_eq_one_of_mem (h.nodup _ _) hi
    · rename_i hc
      rw [count_eq_zero]
      exact fun hi' => hc (h.queueSlots_unique hi hi')
  · intro s p lv hlv
    have hq : b.queue s p = liveOrders b.pool lv.orders := by
      rw [queue, queueSlots, hlv]
      rfl
    rw [← hq]
    exact ⟨(h.qty s p lv hlv).1, h.live s p lv hlv⟩
  · intro s i
    rw [(h.index s).bit_iff]
    constructor
    · rintro ⟨lv, hlv⟩
      refine ⟨lv, hlv, ?_⟩
      obtain ⟨hb, lv', hlv'⟩ := (h.index s).exists_level?_of_bit
        (((h.index s).bit_iff i).mpr ⟨lv, hlv⟩)
      have hlv'' := hlv'
      rw [LevelIndex.level?_of_idx (LevelIndex.idx_eq_some.mpr ⟨hb, rfl⟩), hlv] at hlv''
      obtain rfl : lv = lv' := some.inj hlv''
      exact hocc s _ lv hlv'
    · rintro ⟨lv, hlv, -⟩
      exact ⟨lv, hlv⟩
  · intro s w
    rw [(h.index s).summarised]
    constructor
    · rintro ⟨w', hw', hne⟩
      rwa [Fin.ext hw'] at hne
    · exact fun hne => ⟨w, rfl, hne⟩
  · intro s p lv hlv
    refine ⟨?_, hocc s p lv ((h.index s).level?_of_mem_overflow hlv)⟩
    rcases LevelIndex.idx_eq_none.mp ((h.index s).overflow_idx p lv hlv) with hb | hp
    · rw [((h.index s).uncentred hb).2] at hlv
      cases hlv
    · exact hp
  · intro i hi
    by_cases hq : ∃ s p, i ∈ b.queueSlots s p
    · exact Or.inr hq
    · refine .inl ((h.free_iff i).mpr ⟨hi, fun s p hmem => hq ⟨s, p, hmem⟩⟩)
  · intro u hu
    rw [userOpenOrders, h.counts u]
    split
    · rename_i hc
      rw [hc.resolve_left hu]
      rfl
    · rfl
  · intro u n hn
    rw [h.counts u] at hn
    split at hn
    · cases hn
    · rename_i hc
      cases hn
      omega

/-- **The book keeps its representation invariant.** From an empty book, whatever the
pool capacity, every sequence of operations whose assertions hold ends in a state in which
the slab, the free list, the id index, the bitmaps, the overflow map and the per-user
counters describe the same live orders, as long as the slab stays below `2 ^ 32` slots. -/
theorem run_repInv (capacity : ℕ) (prefault : Bool) (ops : List BookOp)
    (hops : ∀ op ∈ ops, op.InRange) (b : OrderBook)
    (hrun : (withCapacity capacity prefault).run ops = some b)
    (hlen : b.pool.slots.length < 2 ^ 32) : b.RepInv := by
  obtain ⟨h, hocc⟩ := (Inv.withCapacity capacity prefault).run
    (Occupied.withCapacity capacity prefault) hops hlen hrun
  exact h.repInv hocc

/-- Two orders on one level and one far outside its window, a fill, a reduction, a level
view and a cancellation. -/
theorem run_repInv_smallRun : ∃ b, (withCapacity 2 true).run
    [.tryInsert (Order.limit 1 .sell 100 5), .tryInsert (Order.limit 2 .sell 100 7),
      .tryInsert (Order.limit 3 .sell 5000 1), .applyFills .sell 100 [(1, 5), (2, 3)],
      .reduce 2 2, .levelViewInto .sell 100, .cancel 3] = some b ∧ b.RepInv := by
  have hlen : ((withCapacity 2 true).run
      [.tryInsert (Order.limit 1 .sell 100 5), .tryInsert (Order.limit 2 .sell 100 7),
        .tryInsert (Order.limit 3 .sell 5000 1), .applyFills .sell 100 [(1, 5), (2, 3)],
        .reduce 2 2, .levelViewInto .sell 100, .cancel 3]).map
      (fun b => b.pool.slots.length) = some 3 := by decide +kernel
  obtain ⟨b, hb, h3⟩ := map_eq_some_iff.mp hlen
  exact ⟨b, hb, run_repInv 2 true _ (by decide) b hb (by omega)⟩

/-! ### Maintenance seen from outside -/

/-- The aggregates of a level are those of its live orders; of a missing level they are zero. -/
theorem Inv.aggregates (h : b.Inv) (s : Side) (p : ℕ) :
    ((b.side s).level? p).elim 0 Level.qty = ((b.queue s p).map Order.remaining).sum ∧
      ((b.side s).level? p).elim 0 Level.live = (b.queue s p).length := by
  cases hlv : (b.side s).level? p with
  | none =>
    have hnil : b.queue s p = [] := by
      rw [queue, queueSlots, hlv]
      rfl
    rw [hnil]
    exact ⟨rfl, rfl⟩
  | some lv => exact ⟨(h.qty s p lv hlv).1, h.live s p lv hlv⟩

/-- The best price is that of the live orders. -/
theorem Inv.bestOf_queue (h : b.Inv) (hocc : b.Occupied) (s : Side) :
    BestOf s.noWorse (fun p => b.queue s p ≠ []) (b.best s) := by
  have hiff : ∀ p, (b.side s).Occupies p ↔ b.queue s p ≠ [] := by
    intro p
    obtain ⟨-, hlen⟩ := h.aggregates s p
    rw [LevelIndex.Occupies, ← length_pos_iff, ← hlen]
    cases hlv : (b.side s).level? p with
    | none => simp
    | some lv => simpa using hocc s p lv hlv
  have hbest := bestOf_best h.index s
  rwa [funext fun p => propext (hiff p)] at hbest

/-- **Maintaining a level shows nowhere.** It leaves the live orders of every level, the aggregates,
the index of ids and the other levels as they are. It takes only dead slots out of the queue, each
of which goes to the free list once. If no other level has just run empty, it restores the
representation invariant, and the best prices are those of the live orders. -/
theorem maintain_unobservable (b : OrderBook) (h : b.Inv) (s : Side) (p : ℕ) :
    ∃ b', b.maintain s p = some b' ∧ b'.Inv ∧ b.Maintained b' s p ∧
      (∀ s' q, ((b'.side s').level? q).elim 0 Level.qty = ((b.side s').level? q).elim 0 Level.qty ∧
        ((b'.side s').level? q).elim 0 Level.live = ((b.side s').level? q).elim 0 Level.live) ∧
      (∃ freed, freed.Nodup ∧ (∀ i ∈ freed, i ∉ b.pool.free ∧ i ∉ b'.queueSlots s p ∧
          ∃ o, b.pool.get i = some o ∧ o.remaining = 0) ∧
        (b.queueSlots s p).Perm (freed ++ b'.queueSlots s p) ∧
        b'.pool.free.Perm (freed ++ b.pool.free)) ∧
      (b.OccupiedExcept s p → b'.RepInv ∧
        ∀ s', BestOf s'.noWorse (fun q => b.queue s' q ≠ []) (b'.best s')) := by
  obtain ⟨b', hmt, h', hocc', hm⟩ := h.maintain s p
  refine ⟨b', hmt, h', hm, fun s' q => ?_, ?_, fun hocc => ⟨h'.repInv (hocc' hocc), fun s' => ?_⟩⟩
  · rw [(h'.aggregates s' q).1, (h'.aggregates s' q).2, (h.aggregates s' q).1,
      (h.aggregates s' q).2, hm.queue]
    exact ⟨rfl, rfl⟩
  · obtain ⟨freed, hperm, hfree⟩ := hm.freed
    obtain ⟨hnodup, -, hdisj⟩ := nodup_append.mp (hperm.nodup_iff.mp (h.nodup s p))
    refine ⟨freed, hnodup, fun i hi => ?_, hperm, hfree⟩
    have hqueued : i ∈ b.queueSlots s p := hperm.mem_iff.mpr (mem_append_left _ hi)
    have hout : i ∉ b'.queueSlots s p := fun hi' => hdisj i hi i hi' rfl
    obtain ⟨o, hget, rfl, rfl⟩ := h.queued s p i hqueued
    refine ⟨fun hmem => ((h.free_iff i).mp hmem).2 _ _ hqueued, hout, o, hget, ?_⟩
    -- a live record would still be queued
    by_contra hrem
    rw [← OrderPool.get_congr hm.slots] at hget
    exact hout (h'.live_queued i o hget (pos_of_ne_zero hrem))
  · have hbest := h'.bestOf_queue (hocc' hocc) s'
    simpa only [hm.queue] using hbest

/-- The only order of a level is filled, and its slot is still queued when maintenance begins. -/
theorem maintain_unobservable_filled : ∃ b b₁ b',
    (withCapacity 2 true).run [.tryInsert (Order.limit 1 .sell 100 5)] = some b ∧
      b.applyFill .sell 100 (1, 5) = some b₁ ∧ b₁.queueSlots .sell 100 = [0] ∧
      b₁.maintain .sell 100 = some b' ∧ b'.RepInv := by
  have hslots : (((withCapacity 2 true).run [.tryInsert (Order.limit 1 .sell 100 5)]).bind fun b =>
      (b.applyFill .sell 100 (1, 5)).map fun b₁ => (b.pool.slots.length, b₁.queueSlots .sell 100)) =
        some (1, [0]) := by decide +kernel
  obtain ⟨b, hb, hfill⟩ := bind_eq_some_iff.mp hslots
  obtain ⟨b₁, hb₁, heq⟩ := map_eq_some_iff.mp hfill
  obtain ⟨hlen, hqueued⟩ := Prod.mk.inj heq
  obtain ⟨h, hocc⟩ := (Inv.withCapacity 2 true).run (Occupied.withCapacity 2 true) (by decide)
    (by omega) hb
  obtain ⟨h₁, hocc₁, -⟩ := h.applyFill (hocc.except .sell 100) hb₁
  obtain ⟨b', hmt, -, -, -, -, hrestored⟩ := maintain_unobservable b₁ h₁ .sell 100
  exact ⟨b, b₁, b', hb, hb₁, hqueued, hmt, (hrestored hocc₁).1⟩

end OrderBook

end TradeCore
