import TradeCore.Book
import TradeCore.IndexSpec

/-!
# The Representation Invariant of the Book

Six structures describe the same resting orders: the slab, the free list, the id index,
the two price-level indexes and the per-user counters; a filled or cancelled order stays
in its queue as a tombstone until the queue is reclaimed. `OrderBook.Inv` is the relation
between them that every operation keeps.

Every mutation of the book is one of three primitive steps:

* **insert** a live order into a fresh slot at the back of one queue;
* **shrink** the remaining quantity of one live order, possibly to zero;
* **maintain** one level, which reclaims tombstones and drops an empty level.

Each step is specified by its effect on `OrderBook.queue`, the live orders of a level in
time order, and this is all that the matching engine can observe.
-/

namespace TradeCore

open Std List Option
open OrderBook (liveOrders)


/-! ### Reclaiming -/

namespace OrderPool

/-- A released slot is on top of the free list. -/
@[simp] theorem release_free (pool : OrderPool) (slot : ℕ) :
    (pool.release slot).free = slot :: pool.free := rfl

/-- Pools with the same slab have the same records. -/
theorem get_congr {pool pool' : OrderPool} (h : pool'.slots = pool.slots) (i : ℕ) :
    pool'.get i = pool.get i := by
  rw [get, get, h]

/-- A record exists exactly below the length of the slab. -/
theorem get_eq_some_lt {pool : OrderPool} {i : ℕ} {o : Order} (h : pool.get i = some o) :
    i < pool.slots.length :=
  (List.getElem?_eq_some_iff.mp h).1

/-- The records after one remaining quantity was overwritten. -/
theorem get_setRemaining (pool : OrderPool) (i j r : ℕ) :
    (pool.setRemaining i r).get j =
      (pool.get j).map fun o => if i = j then { o with remaining := r } else o := by
  rw [get, get, setRemaining, getElem?_modify]
  rfl

end OrderPool

namespace Level

variable {q : List ℕ} {pool pool' : OrderPool}

/-- What `trimFront` pops: a dead prefix of the queue, which goes to the free list. -/
theorem trimFront_spec {q' : List ℕ} (h : trimFront pool q = some (q', pool')) :
    pool'.slots = pool.slots ∧ ∃ freed, q = freed ++ q' ∧
      pool'.free = freed.reverse ++ pool.free ∧
      ∀ i ∈ freed, ∃ o, pool.get i = some o ∧ o.remaining = 0 := by
  induction q generalizing pool with
  | nil =>
    obtain ⟨rfl, rfl⟩ : [] = q' ∧ pool = pool' := by simpa [trimFront] using h
    exact ⟨rfl, [], rfl, rfl, by simp⟩
  | cons front rest ih =>
    simp only [trimFront, bind, bind_eq_some_iff] at h
    obtain ⟨o, ho, h⟩ := h
    split at h
    · cases h
      exact ⟨rfl, [], rfl, rfl, by simp⟩
    · rename_i hdead
      obtain ⟨hslots, freed, rfl, hfree, hall⟩ := ih h
      refine ⟨hslots, front :: freed, rfl, ?_, ?_⟩
      · rw [hfree, OrderPool.release_free, reverse_cons, append_assoc, singleton_append]
      · intro i hi
        rcases mem_cons.mp hi with rfl | hi
        · exact ⟨o, ho, not_not.mp hdead⟩
        · exact hall i hi

/-- What `compact` removes: the dead slots of the queue. -/
theorem compact_spec {kept : List ℕ} (h : compact pool q = some (kept, pool')) :
    pool'.slots = pool.slots ∧ kept.Sublist q ∧ ∃ freed,
      q.Perm (freed ++ kept) ∧ pool'.free.Perm (freed ++ pool.free) ∧
      (∀ i ∈ freed, ∃ o, pool.get i = some o ∧ o.remaining = 0) ∧
      liveOrders pool kept = liveOrders pool q := by
  induction q generalizing pool kept with
  | nil =>
    obtain ⟨rfl, rfl⟩ : [] = kept ∧ pool = pool' := by simpa [compact] using h
    exact ⟨rfl, .refl _, [], .refl _, .refl _, by simp, rfl⟩
  | cons slot rest ih =>
    simp only [compact, bind, bind_eq_some_iff] at h
    obtain ⟨o, ho, h⟩ := h
    split at h
    · rename_i hdead
      obtain ⟨hslots, hsub, freed, hperm, hfree, hall, hlive⟩ := ih h
      refine ⟨hslots, hsub.cons slot, slot :: freed, hperm.cons slot, ?_, ?_, ?_⟩
      · exact hfree.trans perm_middle
      · intro i hi
        rcases mem_cons.mp hi with rfl | hi
        · exact ⟨o, ho, hdead⟩
        · exact hall i hi
      · have hcons : liveOrders pool (slot :: rest) =
            liveOrders pool rest := by
          simp [liveOrders, ho, hdead]
        rw [hcons]
        exact hlive
    · rename_i hlv
      simp only [bind_eq_some_iff, Prod.exists, Option.pure_def, some.injEq, Prod.mk.injEq] at h
      obtain ⟨kept', pool₁, hrec, rfl, rfl⟩ := h
      obtain ⟨hslots, hsub, freed, hperm, hfree, hall, hlive⟩ := ih hrec
      refine ⟨hslots, hsub.cons_cons slot, freed, ?_, hfree, hall, ?_⟩
      · exact (hperm.cons slot).trans perm_middle.symm
      · simp only [liveOrders, filterMap_cons] at hlive ⊢
        rw [hlive]

/-- Draining a queue releases all of it. -/
theorem foldl_release (q : List ℕ) (pool : OrderPool) :
    (q.foldl OrderPool.release pool).slots = pool.slots ∧
      (q.foldl OrderPool.release pool).free = q.reverse ++ pool.free := by
  induction q generalizing pool with
  | nil => exact ⟨rfl, rfl⟩
  | cons slot rest ih =>
    obtain ⟨hslots, hfree⟩ := ih (pool.release slot)
    refine ⟨hslots, ?_⟩
    rw [foldl_cons, hfree, OrderPool.release_free, reverse_cons, append_assoc, singleton_append]

/-- **What `reclaim` does.** The freed slots leave the queue for the free list; a level
with live orders keeps its aggregates and its live orders, in order, and a level without
is drained. -/
theorem reclaim_spec {lv lv' : Level} (h : lv.reclaim pool = some (lv', pool')) :
    pool'.slots = pool.slots ∧ lv'.live = lv.live ∧ lv'.orders.Sublist lv.orders ∧
      ∃ freed, lv.orders.Perm (freed ++ lv'.orders) ∧
        pool'.free.Perm (freed ++ pool.free) ∧
        (lv.live = 0 ∧ lv'.orders = [] ∨
          lv.live ≠ 0 ∧ lv'.qty = lv.qty ∧
            liveOrders pool lv'.orders = liveOrders pool lv.orders ∧
            ∀ i ∈ freed, ∃ o, pool.get i = some o ∧ o.remaining = 0) := by
  simp only [reclaim, bind, bind_eq_some_iff, Prod.exists] at h
  obtain ⟨orders, pool₁, htrim, h⟩ := h
  obtain ⟨hslots, freed, hq, hfree, hdead⟩ := trimFront_spec htrim
  have hfreed : pool₁.free.Perm (freed ++ pool.free) := by
    rw [hfree]
    exact (reverse_perm freed).append_right _
  have hlive : liveOrders pool orders = liveOrders pool lv.orders := by
    have hnil : liveOrders pool freed = [] := by
      rw [liveOrders, filterMap_eq_nil_iff]
      intro i hi
      obtain ⟨o, ho, hrem⟩ := hdead i hi
      simp [ho, hrem]
    rw [hq, liveOrders, liveOrders, filterMap_append]
    rw [liveOrders] at hnil
    rw [hnil, nil_append]
  have hsub : orders.Sublist lv.orders := hq ▸ sublist_append_right freed orders
  split at h
  · rename_i hl0
    cases h
    obtain ⟨hslots', hfree'⟩ := foldl_release orders pool₁
    refine ⟨hslots'.trans hslots, rfl, nil_sublist _, orders ++ freed, ?_, ?_, .inl ⟨hl0, rfl⟩⟩
    · rw [append_nil, hq]
      exact perm_append_comm
    · rw [hfree', append_assoc]
      exact (reverse_perm orders).append hfreed
  · rename_i hl0
    split at h
    · simp only [bind_eq_some_iff, Prod.exists, Option.pure_def, some.injEq, Prod.mk.injEq] at h
      obtain ⟨kept, pool₂, hcompact, rfl, rfl⟩ := h
      obtain ⟨hslots₂, hsub₂, freed₂, hperm, hfree₂, hdead₂, hlive₂⟩ := compact_spec hcompact
      have hget : ∀ i, pool₁.get i = pool.get i := OrderPool.get_congr hslots
      refine ⟨hslots₂.trans hslots, rfl, hsub₂.trans hsub, freed ++ freed₂, ?_, ?_,
        .inr ⟨hl0, rfl, ?_, ?_⟩⟩
      · rw [hq, append_assoc]
        exact hperm.append_left freed
      · refine hfree₂.trans ((hfreed.append_left freed₂).trans ?_)
        rw [← append_assoc]
        exact perm_append_comm.append_right _
      · rw [← hlive]
        simpa only [liveOrders, hget] using hlive₂
      · intro i hi
        rcases mem_append.mp hi with hi | hi
        · exact hdead i hi
        · rw [← hget]
          exact hdead₂ i hi
    · cases h
      refine ⟨hslots, rfl, hsub, freed, ?_, hfreed, .inr ⟨hl0, rfl, hlive, hdead⟩⟩
      rw [hq]

/-- `trimFront` aborts only on a slot outside the slab. -/
theorem exists_trimFront (h : ∀ i ∈ q, i < pool.slots.length) : ∃ r, trimFront pool q = some r := by
  induction q generalizing pool with
  | nil => exact ⟨_, rfl⟩
  | cons front rest ih =>
    have ho : pool.get front = some _ :=
      getElem?_eq_getElem (h front mem_cons_self)
    simp only [trimFront, ho, bind, bind_some]
    split
    · exact ⟨_, rfl⟩
    · exact ih fun i hi => h i (mem_cons_of_mem _ hi)

/-- `compact` aborts only on a slot outside the slab. -/
theorem exists_compact (h : ∀ i ∈ q, i < pool.slots.length) : ∃ r, compact pool q = some r := by
  induction q generalizing pool with
  | nil => exact ⟨_, rfl⟩
  | cons slot rest ih =>
    have ho : pool.get slot = some _ :=
      getElem?_eq_getElem (h slot mem_cons_self)
    have hrest : ∀ i ∈ rest, i < pool.slots.length :=
      fun i hi => h i (mem_cons_of_mem _ hi)
    simp only [compact, ho, bind, bind_some]
    split
    · exact @ih (pool.release slot) hrest
    · obtain ⟨⟨kept, pool'⟩, hr⟩ := ih hrest
      rw [hr]
      exact ⟨_, rfl⟩

/-- `reclaim` aborts only on a slot outside the slab. -/
theorem exists_reclaim {lv : Level} (h : ∀ i ∈ lv.orders, i < pool.slots.length) :
    ∃ r, lv.reclaim pool = some r := by
  obtain ⟨⟨orders, pool₁⟩, htrim⟩ := exists_trimFront h
  obtain ⟨hslots, freed, hq, -⟩ := trimFront_spec htrim
  simp only [reclaim, htrim, bind, bind_some]
  split
  · exact ⟨_, rfl⟩
  · split
    · have hvalid : ∀ i ∈ orders, i < pool₁.slots.length := by
        intro i hi
        rw [hslots]
        exact h i (by rw [hq]; exact mem_append_right _ hi)
      obtain ⟨⟨kept, pool₂⟩, hr⟩ := exists_compact hvalid
      rw [hr]
      exact ⟨_, rfl⟩
    · exact ⟨_, rfl⟩

end Level

/-! ### The invariant -/

/-- A price that is at least as good for the side that takes. -/
def Side.noWorse : Side → ℕ → ℕ → Prop
  | .buy => (· ≥ ·)
  | .sell => (· ≤ ·)

namespace OrderBook

variable {q : List Order} {o order : Order} {b : OrderBook} {i : ℕ}

/-- The slots queued at a price, tombstones included. -/
def queueSlots (b : OrderBook) (s : Side) (p : ℕ) : List ℕ :=
  ((b.side s).level? p).elim [] Level.orders

/-- The live orders at a price, in time order. -/
def queue (b : OrderBook) (s : Side) (p : ℕ) : List Order :=
  liveOrders b.pool (b.queueSlots s p)

/-- Number of live orders of `user` in the slab. -/
def liveCount (slots : List Order) (user : ℕ) : ℕ :=
  slots.countP fun o => decide (0 < o.remaining ∧ o.user = user)

/-- The per-user counters hold the counts `n`, without zero entries and without user 0. -/
def CountsOf (counts : ExtTreeMap ℕ ℕ) (n : ℕ → ℕ) : Prop :=
  ∀ u : ℕ, counts[u]? = if u = 0 ∨ n u = 0 then none else some (n u)

/-- **The representation invariant**, up to levels that have just run empty. -/
structure Inv (b : OrderBook) : Prop where
  /-- Slot numbers fit their 32-bit type. -/
  bounded : b.pool.slots.length < 2 ^ 32
  /-- The bitmaps of both sides describe their levels. -/
  index : ∀ s, (b.side s).WF
  /-- A queued slot holds a record of that side and price. -/
  queued : ∀ s p i, i ∈ b.queueSlots s p →
    ∃ o, b.pool.get i = some o ∧ o.side = s ∧ o.price = p
  /-- No slot is queued twice. -/
  nodup : ∀ s p, (b.queueSlots s p).Nodup
  /-- A live record is queued under its side and price. -/
  live_queued : ∀ i o, b.pool.get i = some o → 0 < o.remaining →
    i ∈ b.queueSlots o.side o.price
  /-- The id index finds exactly the live records. -/
  located : ∀ id i : ℕ, b.locate[id]? = some i ↔
    ∃ o, b.pool.get i = some o ∧ 0 < o.remaining ∧ o.id = id
  /-- The quantity aggregate. -/
  qty : ∀ s p lv, (b.side s).level? p = some lv →
    lv.qty = ((b.queue s p).map Order.remaining).sum ∧ lv.qty < 2 ^ 64
  /-- The count aggregate. -/
  live : ∀ s p lv, (b.side s).level? p = some lv → lv.live = (b.queue s p).length
  /-- No slot is free twice. -/
  free_nodup : b.pool.free.Nodup
  /-- The free slots are exactly the slots in no queue. -/
  free_iff : ∀ i, i ∈ b.pool.free ↔
    i < b.pool.slots.length ∧ ∀ s p, i ∉ b.queueSlots s p
  /-- The per-user counters, without zero entries. -/
  counts : CountsOf b.userCounts (liveCount b.pool.slots)

/-- **The best price of a side.** -/
theorem bestOf_best (hidx : ∀ s, (b.side s).WF) (s : Side) :
    BestOf s.noWorse (b.side s).Occupies (b.best s) := by
  cases s with
  | buy => exact (hidx .buy).bestOf_maxPrice
  | sell => exact (hidx .sell).bestOf_minPrice

/-- Every stored level has a live order, except possibly the one at `(s, p)`. -/
def OccupiedExcept (b : OrderBook) (s : Side) (p : ℕ) : Prop :=
  ∀ s' p' lv, (b.side s').level? p' = some lv → (s' = s ∧ p' = p) ∨ 0 < lv.live

/-- Every stored level has a live order. -/
def Occupied (b : OrderBook) : Prop :=
  ∀ s p lv, (b.side s).level? p = some lv → 0 < lv.live

/-- A fully occupied book is occupied up to any level. -/
theorem Occupied.except (h : b.Occupied) (s : Side) (p : ℕ) :
    b.OccupiedExcept s p :=
  fun s' p' lv hlv => .inr (h s' p' lv hlv)

section

variable (b : OrderBook) (s : Side)

/-- The sides of a book assembled from one with a replaced side. -/
theorem side_update (s' : Side) (x : LevelIndex) (pool : OrderPool)
    (locate userCounts : ExtTreeMap ℕ ℕ) :
    ({ b.setSide s x with pool := pool, locate := locate, userCounts := userCounts } :
      OrderBook).side s' = if s' = s then x else b.side s' := by
  cases s <;> cases s' <;> rfl

/-- The sides of a book do not depend on its pool. -/
@[simp] theorem side_withPool (pool : OrderPool) :
    ({ b with pool := pool } : OrderBook).side s = b.side s := by
  cases s <;> rfl

/-- Putting a side back changes nothing. -/
theorem setSide_side : b.setSide s (b.side s) = b := by
  cases s <;> rfl

@[simp] theorem setSide_locate (x : LevelIndex) : (b.setSide s x).locate = b.locate := by
  cases s <;> rfl

@[simp] theorem setSide_userCounts (x : LevelIndex) :
    (b.setSide s x).userCounts = b.userCounts := by
  cases s <;> rfl

end

/-- A live order of a queue is a live record of one of its slots. -/
theorem mem_queue {s : Side} {p : ℕ} :
    o ∈ b.queue s p ↔ ∃ i ∈ b.queueSlots s p, b.pool.get i = some o ∧ 0 < o.remaining := by
  simp only [queue, liveOrders, mem_filterMap, filter_eq_some_iff, decide_eq_true_eq]

section Inv

variable {b : OrderBook} {s s' : Side} {p p' i j : ℕ} {o o' : Order}

/-- The orders of a queue are live, on its side and at its price. -/
theorem Inv.of_mem_queue (h : b.Inv) (ho : o ∈ b.queue s p) :
    0 < o.remaining ∧ o.side = s ∧ o.price = p := by
  obtain ⟨i, hi, hget, hrem⟩ := mem_queue.mp ho
  obtain ⟨o', hget', hplace⟩ := h.queued s p i hi
  obtain rfl := mem_unique hget hget'
  exact ⟨hrem, hplace⟩

/-- A slot is queued under one side and price only. -/
theorem Inv.queueSlots_unique (h : b.Inv) (hi : i ∈ b.queueSlots s p)
    (hi' : i ∈ b.queueSlots s' p') : s' = s ∧ p' = p := by
  obtain ⟨o, hget, rfl, rfl⟩ := h.queued s p i hi
  obtain ⟨o', hget', rfl, rfl⟩ := h.queued s' p' i hi'
  obtain rfl := mem_unique hget hget'
  exact ⟨rfl, rfl⟩

/-- Queued slots lie inside the slab. -/
theorem Inv.queueSlots_lt (h : b.Inv) (hi : i ∈ b.queueSlots s p) : i < b.pool.slots.length := by
  obtain ⟨o, hget, -⟩ := h.queued s p i hi
  exact OrderPool.get_eq_some_lt hget

/-- The live records of one id share a slot. -/
theorem Inv.slot_unique (h : b.Inv) (hi : b.pool.get i = some o) (hj : b.pool.get j = some o')
    (ho : 0 < o.remaining) (ho' : 0 < o'.remaining) (hid : o.id = o'.id) : i = j :=
  mem_unique ((h.located o.id i).mpr ⟨o, hi, ho, rfl⟩)
    ((h.located o.id j).mpr ⟨o', hj, ho', hid.symm⟩)

/-- The ids of a queue are distinct. -/
theorem Inv.nodup_ids (h : b.Inv) (s : Side) (p : ℕ) : ((b.queue s p).map Order.id).Nodup := by
  rw [List.Nodup, pairwise_map, queue, liveOrders, pairwise_filterMap]
  refine (h.nodup s p).imp ?_
  intro i j hij o ho o' ho' hid
  simp only [filter_eq_some_iff, decide_eq_true_eq] at ho ho'
  exact hij (h.slot_unique ho.1 ho'.1 ho.2 ho'.2 hid)

/-- One id rests at one price of one side. -/
theorem Inv.eq_of_mem_queue (h : b.Inv) (ho : o ∈ b.queue s p) (ho' : o' ∈ b.queue s' p')
    (hid : o.id = o'.id) : o = o' ∧ s = s' ∧ p = p' := by
  obtain ⟨i, hi, hget, hrem⟩ := mem_queue.mp ho
  obtain ⟨j, hj, hget', hrem'⟩ := mem_queue.mp ho'
  obtain rfl := h.slot_unique hget hget' hrem hrem' hid
  obtain ⟨rfl, rfl⟩ := h.queueSlots_unique hi hj
  exact ⟨mem_unique hget hget', rfl, rfl⟩

/-- **The id index and the queues agree**: an id is located exactly when an order with
that id is in some queue. -/
theorem Inv.get_eq_some (h : b.Inv) {id : ℕ} :
    b.get id = some o ↔ o.id = id ∧ o ∈ b.queue o.side o.price := by
  rw [get, bind_eq_some_iff]
  constructor
  · rintro ⟨i, hloc, hget⟩
    obtain ⟨o', hget', hrem, hid⟩ := (h.located id i).mp hloc
    obtain rfl := mem_unique hget hget'
    exact ⟨hid, mem_queue.mpr ⟨i, h.live_queued i o hget hrem, hget, hrem⟩⟩
  · rintro ⟨rfl, ho⟩
    obtain ⟨i, -, hget, hrem⟩ := mem_queue.mp ho
    exact ⟨i, (h.located o.id i).mpr ⟨o, hget, hrem, rfl⟩, hget⟩

end Inv

/-! ### Replacing one level -/

/-- Replacing the level at `(s, p)` by `v` in a book. -/
structure Relevels (b b' : OrderBook) (s : Side) (p : ℕ) (v : Option Level) : Prop where
  index : ∀ s', (b'.side s').WF
  level? : ∀ s' p', (b'.side s').level? p' =
    if s' = s ∧ p' = p then v else (b.side s').level? p'

section Relevels

variable {b b' : OrderBook} {s : Side} {p : ℕ} {v : Option Level}

/-- A book that differs in one side, where one level was replaced. -/
theorem Relevels.of_side {x : LevelIndex} (hidx : ∀ s', (b.side s').WF) (hwf : x.WF)
    (hlevel : ∀ q, x.level? q = if q = p then v else (b.side s).level? q)
    (hside : ∀ s', b'.side s' = if s' = s then x else b.side s') : b.Relevels b' s p v where
  index := by
    intro s'
    rw [hside]
    split
    · exact hwf
    · exact hidx s'
  level? := by
    intro s' p'
    rw [hside]
    by_cases hs : s' = s
    · subst hs
      simp only [if_true, true_and]
      exact hlevel p'
    · rw [if_neg hs, if_neg fun hc => hs hc.1]

/-- The slots queued after a level was replaced. -/
theorem Relevels.queueSlots (h : b.Relevels b' s p v) (s' : Side) (p' : ℕ) :
    b'.queueSlots s' p' =
      if s' = s ∧ p' = p then v.elim [] Level.orders else b.queueSlots s' p' := by
  rw [OrderBook.queueSlots, h.level?, OrderBook.queueSlots]
  split <;> rfl

/-- Replacing a level leaves at most that level empty. -/
theorem Relevels.occupiedExcept (h : b.Relevels b' s p v) (hocc : b.OccupiedExcept s p) :
    b'.OccupiedExcept s p := by
  intro s' p' lv hlv
  rw [h.level?] at hlv
  split at hlv
  · exact .inl ‹_›
  · exact hocc s' p' lv hlv

/-- Dropping a level, or replacing it by one with live orders, leaves no level empty. -/
theorem Relevels.occupied (h : b.Relevels b' s p v) (hocc : b.OccupiedExcept s p)
    (hv : ∀ lv, v = some lv → 0 < lv.live) : b'.Occupied := by
  intro s' p' lv hlv
  rw [h.level?] at hlv
  split at hlv
  · exact hv lv hlv
  · exact (hocc s' p' lv hlv).resolve_left ‹_›

/-- Writing a level back. -/
theorem relevels_setLevel {lv lv' : Level} (hidx : ∀ s', (b.side s').WF)
    (hlv : (b.side s).level? p = some lv)
    (hside : ∀ s', b'.side s' = if s' = s then (b.side s).setLevel p lv' else b.side s') :
    b.Relevels b' s p (some lv') :=
  have h := (hidx s).setLevel hlv lv'
  .of_side hidx h.1 h.2 hside

end Relevels

/-! ### Maintaining one level -/

/-- Maintain the level at `(s, p)`. -/
def maintain (b : OrderBook) (s : Side) (p : ℕ) : Option OrderBook := do
  let (x, pool) ← (b.side s).maintainLevel p b.pool
  pure { b.setSide s x with pool := pool }

/-- What maintenance makes of a book whose level at `(s, p)` is `lv`. -/
structure Reclaims (b b' : OrderBook) (s : Side) (p : ℕ) (lv lv' : Level) : Prop where
  reclaim : lv.reclaim b.pool = some (lv', b'.pool)
  relevels : b.Relevels b' s p (if lv'.live = 0 then none else some lv')
  locate : b'.locate = b.locate
  userCounts : b'.userCounts = b.userCounts

section Maintain

variable {b b' : OrderBook} {s : Side} {p : ℕ} {lv lv' : Level} {pool' : OrderPool}

/-- A level that can be reclaimed can be maintained. -/
theorem maintain_of_reclaim (hidx : ∀ s', (b.side s').WF) (hlv : (b.side s).level? p = some lv)
    (hrec : lv.reclaim b.pool = some (lv', pool')) :
    ∃ b', b.maintain s p = some b' ∧ b.Reclaims b' s p lv lv' := by
  obtain ⟨x, hmt, hwf, hlevel⟩ := (hidx s).maintainLevel hlv hrec
  refine ⟨{ b.setSide s x with pool := pool' }, ?_, hrec, ?_, setSide_locate ..,
    setSide_userCounts ..⟩
  · simp only [maintain, hmt, bind, bind_some, Option.pure_def]
  · exact .of_side hidx hwf hlevel fun s' => side_update b s s' x pool' _ _

/-- **What maintenance does**, whatever the slots of the level refer to. -/
theorem maintain_eq_some (hidx : ∀ s', (b.side s').WF) (h : b.maintain s p = some b') :
    ((b.side s).level? p = none ∧ b' = b) ∨
      ∃ lv lv', (b.side s).level? p = some lv ∧ b.Reclaims b' s p lv lv' := by
  cases hlv : (b.side s).level? p with
  | none =>
    simp only [maintain, (hidx s).maintainLevel_none hlv, bind, bind_some,
      Option.pure_def, setSide_side, some.injEq] at h
    exact .inl ⟨rfl, h.symm⟩
  | some lv =>
    cases hrec : lv.reclaim b.pool with
    | none =>
      simp only [maintain, LevelIndex.maintainLevel_abort hlv hrec, bind, bind_none] at h
      cases h
    | some r =>
      obtain ⟨b₁, hb₁, hr⟩ := maintain_of_reclaim hidx hlv hrec
      obtain rfl := mem_unique h hb₁
      exact .inr ⟨lv, r.1, rfl, hr⟩

/-- Slots leave a queue for the free list, and with them no live order. -/
theorem Inv.dequeue {freed slots : List ℕ} (h : b.Inv) (hslots : b'.pool.slots = b.pool.slots)
    (hlocate : b'.locate = b.locate) (hcounts : b'.userCounts = b.userCounts)
    (hindex : ∀ s, (b'.side s).WF) (hqueue : ∀ s p, b'.queue s p = b.queue s p)
    (hlevel : ∀ s p lv', (b'.side s).level? p = some lv' →
      ∃ lv, (b.side s).level? p = some lv ∧ lv'.qty = lv.qty ∧ lv'.live = lv.live)
    (hqs : ∀ s' p', b'.queueSlots s' p' =
      if s' = s ∧ p' = p then slots else b.queueSlots s' p')
    (hperm : (b.queueSlots s p).Perm (freed ++ slots))
    (hfree : b'.pool.free.Perm (freed ++ b.pool.free)) : b'.Inv := by
  have hget := OrderPool.get_congr hslots
  have hnodup := hperm.nodup_iff.mp (h.nodup s p)
  have hmem : ∀ i, i ∈ b.queueSlots s p ↔ i ∈ freed ∨ i ∈ slots := by
    intro i
    rw [hperm.mem_iff, mem_append]
  have hsub : ∀ s' p' i, i ∈ b'.queueSlots s' p' → i ∈ b.queueSlots s' p' := by grind
  refine
    { bounded := hslots ▸ h.bounded
      index := hindex
      queued := fun s' p' i hi => hget i ▸ h.queued s' p' i (hsub s' p' i hi)
      nodup := ?_
      live_queued := ?_
      located := fun id i => by rw [hlocate, hget]; exact h.located id i
      qty := ?_
      live := ?_
      free_nodup := ?_
      free_iff := ?_
      counts := by rw [hcounts, hslots]; exact h.counts }
  · intro s' p'
    rw [hqs]
    split
    · exact (nodup_append.mp hnodup).2.1
    · exact h.nodup s' p'
  · intro i o ho hrem
    rw [hget] at ho
    -- the queues still list the order, and it has one slot only
    have hq : o ∈ b'.queue o.side o.price :=
      hqueue .. ▸ mem_queue.mpr ⟨i, h.live_queued i o ho hrem, ho, hrem⟩
    obtain ⟨j, hj, hget', -⟩ := mem_queue.mp hq
    rw [hget] at hget'
    exact h.slot_unique ho hget' hrem hrem rfl ▸ hj
  · intro s' p' lv' hlv'
    obtain ⟨lv, hlv, hqty, -⟩ := hlevel s' p' lv' hlv'
    rw [hqueue, hqty]
    exact h.qty s' p' lv hlv
  · intro s' p' lv' hlv'
    obtain ⟨lv, hlv, -, hlive⟩ := hlevel s' p' lv' hlv'
    rw [hqueue, hlive]
    exact h.live s' p' lv hlv
  · rw [hfree.nodup_iff, nodup_append]
    refine ⟨(nodup_append.mp hnodup).1, h.free_nodup, ?_⟩
    rintro i hi j hj rfl
    exact ((h.free_iff i).mp hj).2 s p ((hmem i).mpr (.inl hi))
  · intro i
    have hdisj : i ∈ freed → i ∉ slots := fun hi hi' =>
      (nodup_append.mp hnodup).2.2 i hi i hi' rfl
    have hold := h.free_iff i
    have hlt : i ∈ b.queueSlots s p → i < b.pool.slots.length := h.queueSlots_lt
    have huniq : ∀ s' p', i ∈ b.queueSlots s p → i ∈ b.queueSlots s' p' → s' = s ∧ p' = p :=
      fun s' p' => h.queueSlots_unique
    rw [hfree.mem_iff, mem_append, hslots]
    grind

/-- What maintaining the level at `(s, p)` leaves as it is, and where the slots go that it takes
out of the queue. -/
structure Maintained (b b' : OrderBook) (s : Side) (p : ℕ) : Prop where
  queue : ∀ s' p', b'.queue s' p' = b.queue s' p'
  locate : b'.locate = b.locate
  userCounts : b'.userCounts = b.userCounts
  slots : b'.pool.slots = b.pool.slots
  others : ∀ s' p', ¬ (s' = s ∧ p' = p) → (b'.side s').level? p' = (b.side s').level? p'
  sublist : (b'.queueSlots s p).Sublist (b.queueSlots s p)
  freed : ∃ freed, (b.queueSlots s p).Perm (freed ++ b'.queueSlots s p) ∧
    b'.pool.free.Perm (freed ++ b.pool.free)

/-- **Maintaining a level** keeps the invariant, leaves every queue of live orders as it
is, and drops the level if nothing in it is live. -/
theorem Inv.maintain (h : b.Inv) (s : Side) (p : ℕ) :
    ∃ b', b.maintain s p = some b' ∧ b'.Inv ∧ (b.OccupiedExcept s p → b'.Occupied) ∧
      b.Maintained b' s p := by
  cases hlv : (b.side s).level? p with
  | none =>
    have hmt := (h.index s).maintainLevel_none hlv b.pool
    refine ⟨b, ?_, h, ?_, fun _ _ => rfl, rfl, rfl, rfl, fun _ _ _ => rfl, .refl _, [], .refl _,
      .refl _⟩
    · simp only [OrderBook.maintain, hmt, bind, bind_some, Option.pure_def, setSide_side]
    · intro hocc s' p' lv hlv'
      refine (hocc s' p' lv hlv').resolve_left ?_
      rintro ⟨rfl, rfl⟩
      exact some_ne_none lv (hlv'.symm.trans hlv)
  | some lv =>
    have hslotsEq : b.queueSlots s p = lv.orders := by rw [queueSlots, hlv]; rfl
    obtain ⟨⟨lv', pool'⟩, hrec⟩ := Level.exists_reclaim fun i hi =>
      h.queueSlots_lt (hslotsEq.symm ▸ hi)
    obtain ⟨b', hmt, hr⟩ := maintain_of_reclaim h.index hlv hrec
    obtain ⟨hslots, hlive, hsub, freed, hperm, hfree, hcase⟩ := Level.reclaim_spec hr.reclaim
    have hqs : ∀ s' p', b'.queueSlots s' p' =
        if s' = s ∧ p' = p then lv'.orders else b.queueSlots s' p' := by
      intro s' p'
      rw [hr.relevels.queueSlots]
      congr 1
      rcases hcase with ⟨hl0, hnil⟩ | ⟨hl0, -⟩
      · rw [hlive, if_pos hl0, hnil]
        rfl
      · rw [hlive, if_neg hl0]
        rfl
    have hlo : ∀ l, liveOrders b'.pool l = liveOrders b.pool l := by
      intro l
      simp only [liveOrders, OrderPool.get_congr hslots]
    have hqueue : ∀ s' p', b'.queue s' p' = b.queue s' p' := by
      intro s' p'
      rw [queue, hqs, hlo, queue]
      split
      · obtain ⟨rfl, rfl⟩ := ‹s' = s ∧ p' = p›
        rcases hcase with ⟨hl0, hnil⟩ | ⟨-, -, hsame, -⟩
        · have hz := h.live s' p' lv hlv
          rw [hl0, eq_comm, length_eq_zero_iff, queue] at hz
          rw [hnil, hz]
          rfl
        · rw [hsame, hslotsEq]
      · rfl
    refine ⟨b', hmt, h.dequeue hslots hr.locate hr.userCounts hr.relevels.index hqueue ?_ hqs
      (hslotsEq ▸ hperm) hfree, fun hocc => hr.relevels.occupied hocc ?_, hqueue, hr.locate,
      hr.userCounts, hslots, fun s' p' hc => ?_, ?_, freed, ?_, hfree⟩
    · intro s' p' lv₁ hlv₁
      rw [hr.relevels.level?] at hlv₁
      grind
    · intro lv₁ hlv₁
      split at hlv₁
      · cases hlv₁
      · cases hlv₁
        omega
    · rw [hr.relevels.level?, if_neg hc]
    · rwa [hqs, if_pos ⟨rfl, rfl⟩, hslotsEq]
    · rwa [hqs, if_pos ⟨rfl, rfl⟩, hslotsEq]

end Maintain

/-! ### Counters -/

/-- `count_user` with delta `-1` subtracts one. -/
theorem CountsOf.down {counts : ExtTreeMap ℕ ℕ} {n : ℕ → ℕ} (h : CountsOf counts n) {u : ℕ}
    (hpos : 0 < n u) :
    ∃ counts', countUserDown counts u = some counts' ∧
      CountsOf counts' fun v => if v = u then n v - 1 else n v := by
  by_cases hu : u = 0
  · refine ⟨counts, by simp [countUserDown, hu], fun v => ?_⟩
    rw [h v]
    grind
  · have hget : counts[u]? = some (n u) := by
      rw [h u, if_neg (by omega)]
    have hsub : checkedSub (n u) 1 = some (n u - 1) := checkedSub_eq_some.mpr ⟨hpos, rfl⟩
    refine ⟨if n u - 1 = 0 then counts.erase u else counts.insert u (n u - 1), ?_, fun v => ?_⟩
    · simp [countUserDown, hu, hget, hsub]
    · have hold := h v
      split
      · rw [getElem?_erase_nat]
        grind
      · rw [getElem?_insert_nat]
        grind

/-- `count_user` with delta `+1` adds one. -/
theorem CountsOf.up {counts : ExtTreeMap ℕ ℕ} {n : ℕ → ℕ} (h : CountsOf counts n) {u : ℕ}
    (hlt : n u + 1 < 2 ^ 32) :
    ∃ counts', countUserUp counts u = some counts' ∧
      CountsOf counts' fun v => if v = u then n v + 1 else n v := by
  by_cases hu : u = 0
  · refine ⟨counts, by simp [countUserUp, hu], fun v => ?_⟩
    rw [h v]
    grind
  · have hget : counts[u]?.getD 0 = n u := by
      rw [h u]
      grind
    have hadd : checkedAdd 32 (n u) 1 = some (n u + 1) := checkedAdd_eq_some.mpr ⟨hlt, rfl⟩
    refine ⟨counts.insert u (n u + 1), by simp [countUserUp, hu, hget, hadd], fun v => ?_⟩
    rw [getElem?_insert_nat, h v]
    grind

/-- The live orders of a user after one record was overwritten. -/
theorem liveCount_set {slots : List Order} {o' : Order} (h : slots[i]? = some o) (u : ℕ) :
    liveCount (slots.set i o') u = liveCount slots u -
      (if 0 < o.remaining ∧ o.user = u then 1 else 0) +
      (if 0 < o'.remaining ∧ o'.user = u then 1 else 0) := by
  obtain ⟨hlt, rfl⟩ := List.getElem?_eq_some_iff.mp h
  rw [liveCount, countP_set hlt]
  simp only [liveCount, decide_eq_true_eq]

/-- A live record counts for its user. -/
theorem liveCount_pos {slots : List Order} (h : slots[i]? = some o) (hrem : 0 < o.remaining) :
    0 < liveCount slots o.user := by
  rw [liveCount, countP_pos_iff]
  exact ⟨o, mem_of_getElem? h, by simp [hrem]⟩

/-! ### Shrinking one order -/

/-- What becomes of a live order when the order `id` is shrunk to `r` lots. -/
def shrunk (id r : ℕ) (o : Order) : Option Order :=
  if o.id = id then (if r = 0 then none else some { o with remaining := r }) else some o

/-- Shrinking an absent id changes nothing. -/
theorem filterMap_shrunk_of_notMem {id : ℕ} (h : id ∉ q.map Order.id) (r : ℕ) :
    q.filterMap (shrunk id r) = q := by
  induction q with
  | nil => rfl
  | cons o q ih =>
    rw [map_cons, mem_cons, not_or] at h
    rw [filterMap_cons, shrunk, if_neg (Ne.symm h.1), ih h.2]

/-- Where a shrunk order stands: the orders around it stay. -/
theorem filterMap_shrunk_split (hnd : (q.map Order.id).Nodup) (ho : o ∈ q) (r : ℕ) :
    ∃ before after, q = before ++ o :: after ∧ q.filterMap (shrunk o.id r) =
      before ++ (if r = 0 then [] else [{ o with remaining := r }]) ++ after := by
  obtain ⟨before, after, rfl⟩ := append_of_mem ho
  have hout : o.id ∉ before.map Order.id ∧ o.id ∉ after.map Order.id := by
    rw [map_append, map_cons, nodup_middle, nodup_cons, mem_append, not_or] at hnd
    exact hnd.1
  refine ⟨before, after, rfl, ?_⟩
  rw [filterMap_append, filterMap_cons, filterMap_shrunk_of_notMem hout.1,
    filterMap_shrunk_of_notMem hout.2]
  by_cases hz : r = 0 <;> simp [shrunk, hz]

/-- Shrinking takes the difference off the total. -/
theorem sum_filterMap_shrunk {r : ℕ} (hnd : (q.map Order.id).Nodup) (ho : o ∈ q)
    (hr : r ≤ o.remaining) :
    ((q.filterMap (shrunk o.id r)).map Order.remaining).sum + (o.remaining - r) =
      (q.map Order.remaining).sum := by
  obtain ⟨before, after, hq, hshrunk⟩ := filterMap_shrunk_split hnd ho r
  rw [hshrunk, hq]
  split <;> simp <;> omega

/-- Shrinking to zero takes one order away. -/
theorem length_filterMap_shrunk (r : ℕ) (hnd : (q.map Order.id).Nodup) (ho : o ∈ q) :
    (q.filterMap (shrunk o.id r)).length + (if r = 0 then 1 else 0) = q.length := by
  obtain ⟨before, after, hq, hshrunk⟩ := filterMap_shrunk_split hnd ho r
  rw [hshrunk, hq]
  split <;> (simp; try omega)

/-- The book after the order `o` in slot `i`, at a level `lv`, was shrunk to `r` lots. -/
def shrink (b : OrderBook) (i : ℕ) (o : Order) (lv : Level) (r : ℕ)
    (counts : ExtTreeMap ℕ ℕ) : OrderBook :=
  { b.setSide o.side ((b.side o.side).setLevel o.price
      { lv with qty := lv.qty - (o.remaining - r)
                live := if r = 0 then lv.live - 1 else lv.live }) with
    pool := b.pool.setRemaining i r
    locate := if r = 0 then b.locate.erase o.id else b.locate
    userCounts := if r = 0 then counts else b.userCounts }

/-- A live record has a level, whose aggregates include it. -/
theorem Inv.exists_level (h : b.Inv) (hget : b.pool.get i = some o) (hrem : 0 < o.remaining) :
    ∃ lv, (b.side o.side).level? o.price = some lv ∧ 0 < lv.live ∧ o.remaining ≤ lv.qty := by
  have hi := h.live_queued i o hget hrem
  cases hlv : (b.side o.side).level? o.price with
  | none =>
    rw [queueSlots, hlv] at hi
    cases hi
  | some lv =>
    have ho : o ∈ b.queue o.side o.price := mem_queue.mpr ⟨i, hi, hget, hrem⟩
    refine ⟨lv, rfl, ?_, ?_⟩
    · rw [h.live _ _ lv hlv]
      exact length_pos_of_mem ho
    · rw [(h.qty _ _ lv hlv).1]
      exact single_le_sum (by simp) _ (List.mem_map_of_mem ho)

section Shrink

variable {b : OrderBook} {i r : ℕ} {o : Order} {lv : Level} {counts : ExtTreeMap ℕ ℕ}

/-- The records after a shrink. -/
theorem shrink_get (hget : b.pool.get i = some o) (j : ℕ) :
    (b.shrink i o lv r counts).pool.get j =
      if j = i then some { o with remaining := r } else b.pool.get j := by
  rw [shrink, OrderPool.get_setRemaining]
  by_cases hj : j = i
  · subst hj
    simp [hget]
  · simp [hj, Ne.symm hj]

/-- The slab after a shrink. -/
theorem shrink_slots (hget : b.pool.get i = some o) :
    (b.shrink i o lv r counts).pool.slots = b.pool.slots.set i { o with remaining := r } := by
  have hi : b.pool.slots[i]? = some o := hget
  rw [shrink, OrderPool.setRemaining, modify_eq_set_getElem?, hi]
  rfl

/-- A shrink gives one level new aggregates. -/
theorem relevels_shrink (hidx : ∀ s, (b.side s).WF)
    (hlv : (b.side o.side).level? o.price = some lv) :
    b.Relevels (b.shrink i o lv r counts) o.side o.price
      (some { lv with qty := lv.qty - (o.remaining - r)
                      live := if r = 0 then lv.live - 1 else lv.live }) :=
  relevels_setLevel hidx hlv fun s => side_update b o.side s _ _ _ _

/-- A shrink moves no slot. -/
theorem shrink_queueSlots (hidx : ∀ s, (b.side s).WF)
    (hlv : (b.side o.side).level? o.price = some lv) (s : Side) (p : ℕ) :
    (b.shrink i o lv r counts).queueSlots s p = b.queueSlots s p := by
  rw [(relevels_shrink hidx hlv).queueSlots]
  split
  · obtain ⟨rfl, rfl⟩ := ‹s = o.side ∧ p = o.price›
    rw [queueSlots, hlv]
    rfl
  · rfl

/-- **The effect of a shrink on the queues**: the order is shrunk wherever it stands. -/
theorem shrink_queue (h : b.Inv) (hget : b.pool.get i = some o) (hrem : 0 < o.remaining)
    (hlv : (b.side o.side).level? o.price = some lv) (s : Side) (p : ℕ) :
    (b.shrink i o lv r counts).queue s p = (b.queue s p).filterMap (shrunk o.id r) := by
  rw [queue, shrink_queueSlots h.index hlv, queue, liveOrders, liveOrders, filterMap_filterMap]
  refine filterMap_congr ?_
  intro j _
  rw [shrink_get hget]
  by_cases hj : j = i
  · subst hj
    by_cases hz : r = 0
    · simp [hget, filter_some, hrem, shrunk, hz]
    · simp [hget, filter_some, hrem, shrunk, hz, pos_of_ne_zero hz]
  · rw [if_neg hj]
    cases hf : (b.pool.get j).filter fun o => decide (0 < o.remaining) with
    | none => rfl
    | some a =>
      simp only [filter_eq_some_iff, decide_eq_true_eq] at hf
      have hne : a.id ≠ o.id := fun he => hj (h.slot_unique hf.1 hget hf.2 hrem he)
      simp [shrunk, hne]

/-- Queues other than the one of the order are left alone. -/
theorem shrink_queue_of_ne (h : b.Inv) (hget : b.pool.get i = some o) (hrem : 0 < o.remaining)
    (hlv : (b.side o.side).level? o.price = some lv) {s : Side} {p : ℕ}
    (hne : ¬ (s = o.side ∧ p = o.price)) :
    (b.shrink i o lv r counts).queue s p = b.queue s p := by
  rw [shrink_queue h hget hrem hlv]
  apply filterMap_shrunk_of_notMem
  intro hmem
  obtain ⟨a, ha, hid⟩ := List.mem_map.mp hmem
  have ho : o ∈ b.queue o.side o.price :=
    mem_queue.mpr ⟨i, h.live_queued i o hget hrem, hget, hrem⟩
  exact hne (h.eq_of_mem_queue ha ho hid).2

/-- The live orders of a user after a live record was shrunk. -/
theorem liveCount_shrink (hget : b.pool.get i = some o) (hrem : 0 < o.remaining) (user : ℕ) :
    liveCount b.pool.slots user = liveCount (b.shrink i o lv r counts).pool.slots user +
      if r = 0 ∧ user = o.user then 1 else 0 := by
  have hpos := liveCount_pos hget hrem
  rw [shrink_slots hget, liveCount_set hget]
  grind

/-- **Shrinking a live order keeps the invariant.** -/
theorem Inv.shrink (h : b.Inv) (hget : b.pool.get i = some o) (hrem : 0 < o.remaining)
    (hr : r ≤ o.remaining) (hlv : (b.side o.side).level? o.price = some lv)
    (hcounts : r = 0 → countUserDown b.userCounts o.user = some counts) :
    (b.shrink i o lv r counts).Inv := by
  have hi := h.live_queued i o hget hrem
  have ho : o ∈ b.queue o.side o.price := mem_queue.mpr ⟨i, hi, hget, hrem⟩
  have hrel := @relevels_shrink b i r o lv counts h.index hlv
  have hqs := @shrink_queueSlots b i r o lv counts h.index hlv
  have hg := @shrink_get b i r o lv counts hget
  have hlen : (b.shrink i o lv r counts).pool.slots.length = b.pool.slots.length := by
    rw [shrink_slots hget, length_set]
  refine
    { bounded := hlen ▸ h.bounded
      index := hrel.index
      queued := ?_
      nodup := fun s p => hqs s p ▸ h.nodup s p
      live_queued := ?_
      located := ?_
      qty := ?_
      live := ?_
      free_nodup := h.free_nodup
      free_iff := fun j => by simp only [hqs, hlen]; exact h.free_iff j
      counts := ?_ }
  · intro s p j hj
    rw [hqs] at hj
    obtain ⟨o', ho', hplace⟩ := h.queued s p j hj
    grind
  · intro j a ha hpos
    have hold := h.live_queued j a
    rw [hqs]
    grind
  · intro id j
    have hloc : (b.shrink i o lv r counts).locate =
        if r = 0 then b.locate.erase o.id else b.locate := rfl
    have hself := (h.located o.id i).mpr ⟨o, hget, hrem, rfl⟩
    have hold := h.located id j
    rw [hloc, hg]
    by_cases hz : r = 0
    · rw [if_pos hz, getElem?_erase_nat]
      grind
    · grind
  · intro s p lv' hlv'
    rw [hrel.level?] at hlv'
    split at hlv'
    · obtain ⟨rfl, rfl⟩ := ‹s = o.side ∧ p = o.price›
      cases hlv'
      rw [shrink_queue h hget hrem hlv]
      have hsum := @sum_filterMap_shrunk _ o r (h.nodup_ids o.side o.price) ho hr
      have hold := h.qty _ _ lv hlv
      simp only
      omega
    · rw [shrink_queue_of_ne h hget hrem hlv ‹_›]
      exact h.qty s p lv' hlv'
  · intro s p lv' hlv'
    rw [hrel.level?] at hlv'
    split at hlv'
    · obtain ⟨rfl, rfl⟩ := ‹s = o.side ∧ p = o.price›
      cases hlv'
      rw [shrink_queue h hget hrem hlv]
      have hlen := length_filterMap_shrunk r (h.nodup_ids o.side o.price) ho
      have hold := h.live _ _ lv hlv
      by_cases hz : r = 0
      · simp only [hz, if_true] at hlen ⊢
        omega
      · simp only [hz, if_false] at hlen ⊢
        omega
    · rw [shrink_queue_of_ne h hget hrem hlv ‹_›]
      exact h.live s p lv' hlv'
  · have hcnt := @liveCount_shrink b i r o lv counts hget hrem
    have hc' : (b.shrink i o lv r counts).userCounts = if r = 0 then counts else b.userCounts := rfl
    obtain ⟨counts', hdown, hof⟩ := h.counts.down (liveCount_pos hget hrem)
    intro u
    have hold := h.counts u
    have hnew := hof u
    have hu := hcnt u
    rw [hc']
    grind

end Shrink

/-! ### Inserting one order -/

/-- The next order gets a slot number that fits its 32-bit type: a recycled slot, or a
new one of a slab that stays below `2 ^ 32` slots. -/
def HasRoom (b : OrderBook) : Prop :=
  b.pool.free ≠ [] ∨ b.pool.slots.length + 1 < 2 ^ 32

/-- Freeing slots keeps the room. -/
theorem HasRoom.mono {b' : OrderBook} (h : b.HasRoom)
    (hlen : b'.pool.slots.length = b.pool.slots.length) {freed : List ℕ}
    (hfree : b'.pool.free.Perm (freed ++ b.pool.free)) : b'.HasRoom := by
  refine h.imp (fun hne hnil => hne ?_) (fun hlt => by rw [hlen]; exact hlt)
  rw [hnil] at hfree
  exact (append_eq_nil_iff.mp hfree.nil_eq.symm).2

/-- Where an allocated record goes: over a recycled one, or behind the others. -/
theorem alloc_eq_some {pool pool' : OrderPool} {slot : ℕ}
    (h : pool.alloc order = some (slot, pool')) :
    (slot < pool.slots.length ∧ pool.free = slot :: pool'.free ∧
      pool'.slots = pool.slots.set slot order) ∨
    (pool.free = [] ∧ slot = pool.slots.length % 2 ^ 32 ∧
      pool'.slots = pool.slots ++ [order] ∧ pool'.free = pool.free) := by
  unfold OrderPool.alloc at h
  split at h
  · rename_i i free hfree
    split at h
    · cases h
      exact .inl ⟨‹_›, hfree, rfl⟩
    · cases h
  · cases h
    exact .inr ⟨‹_›, rfl, rfl, rfl⟩

/-- **Allocating a slot**: it is in no queue, its old record is dead, and it leaves the
free list. -/
theorem Inv.alloc (h : b.Inv) (hroom : b.HasRoom) (order : Order) :
    ∃ slot pool, b.pool.alloc order = some (slot, pool) ∧
      (∀ s p, slot ∉ b.queueSlots s p) ∧
      (∀ j, pool.get j = if j = slot then some order else b.pool.get j) ∧
      pool.slots.length < 2 ^ 32 ∧ slot < pool.slots.length ∧
      (∀ j, j < pool.slots.length ↔ j = slot ∨ j < b.pool.slots.length) ∧
      pool.free.Nodup ∧ (∀ j, j ∈ pool.free ↔ j ∈ b.pool.free ∧ j ≠ slot) ∧
      ∀ u, liveCount pool.slots u = liveCount b.pool.slots u +
        if 0 < order.remaining ∧ order.user = u then 1 else 0 := by
  cases hfree : b.pool.free with
  | nil =>
    have hlt : b.pool.slots.length + 1 < 2 ^ 32 := hroom.resolve_left fun hc => hc hfree
    have hmod : b.pool.slots.length % 2 ^ 32 = b.pool.slots.length :=
      Nat.mod_eq_of_lt (by omega)
    refine ⟨b.pool.slots.length, { b.pool with slots := b.pool.slots ++ [order] }, ?_, ?_, ?_,
      ?_, ?_, ?_, h.free_nodup, ?_, ?_⟩
    · simp only [OrderPool.alloc, hfree, hmod]
    · intro s p hi
      exact lt_irrefl _ (h.queueSlots_lt hi)
    · intro j
      simp only [OrderPool.get]
      grind
    · simpa using hlt
    · simp
    · intro j
      rw [length_append, length_singleton]
      omega
    · simp [hfree]
    · intro u
      simp [liveCount, countP_append, countP_cons]
  | cons i free =>
    have hnd := h.free_nodup
    rw [hfree, nodup_cons] at hnd
    obtain ⟨hlt, hnot⟩ := (h.free_iff i).mp (by rw [hfree]; exact mem_cons_self)
    have hi : b.pool.slots[i]? = some (b.pool.slots.get ⟨i, hlt⟩) :=
      getElem?_eq_getElem hlt
    have hdead : ¬ 0 < (b.pool.slots.get ⟨i, hlt⟩).remaining := fun hrem =>
      hnot _ _ (h.live_queued i _ hi hrem)
    refine ⟨i, { slots := b.pool.slots.set i order, free := free }, ?_, hnot, ?_, ?_, ?_, ?_,
      hnd.2, ?_, ?_⟩
    · simp only [OrderPool.alloc, hfree, if_pos hlt]
    · intro j
      simp only [OrderPool.get]
      grind
    · simpa using h.bounded
    · simpa using hlt
    · intro j
      rw [length_set]
      grind
    · grind
    · intro u
      rw [liveCount_set hi, if_neg fun hc => hdead hc.1, Nat.sub_zero]

/-- A duplicate-free list of numbers below `n` has at most `n` elements. -/
theorem length_le_of_nodup_of_lt {l : List ℕ} {n : ℕ} (hnd : l.Nodup) (hlt : ∀ i ∈ l, i < n) :
    l.length ≤ n := by
  have hsub : l ⊆ List.range n := fun i hi => mem_range.mpr (hlt i hi)
  simpa using (hnd.subperm hsub).length_le

/-- The stored aggregates of a level, zero where there is none. -/
theorem Inv.level_getD (h : b.Inv) (s : Side) (p : ℕ) :
    (((b.side s).level? p).getD Level.empty).orders = b.queueSlots s p ∧
      (((b.side s).level? p).getD Level.empty).qty =
        ((b.queue s p).map Order.remaining).sum ∧
      (((b.side s).level? p).getD Level.empty).live = (b.queue s p).length := by
  cases hlv : (b.side s).level? p with
  | none => simp [queue, queueSlots, hlv, Level.empty, liveOrders]
  | some lv =>
    refine ⟨by rw [queueSlots, hlv]; rfl, (h.qty s p lv hlv).1, h.live s p lv hlv⟩

/-- A queue is no longer than its slots. -/
theorem length_queue_le (b : OrderBook) (s : Side) (p : ℕ) :
    (b.queue s p).length ≤ (b.queueSlots s p).length := by
  rw [queue, liveOrders]
  exact length_filterMap_le _ _

/-- **Inserting a fresh order** keeps the invariant and puts the order at the back of its
queue, provided the level total stays a 64-bit value. -/
theorem Inv.tryInsert (h : b.Inv) (hocc : b.Occupied) (hroom : b.HasRoom)
    (hprice : order.price < 2 ^ 64) (hrem : 0 < order.remaining) (hid : b.locate[order.id]? = none)
    (hsum : ((b.queue order.side order.price).map Order.remaining).sum + order.remaining < 2 ^ 64) :
    ∃ b', b.tryInsert order = some (true, b') ∧ b'.Inv ∧ b'.Occupied ∧
      ∀ s p, b'.queue s p = if s = order.side ∧ p = order.price then b.queue s p ++ [order]
        else b.queue s p := by
  obtain ⟨slot, pool, halloc, hnew, hget, hlen, hslot, hlt, hfnd, hfree, hcnt⟩ :=
    h.alloc hroom order
  obtain ⟨horders, hqty, hlive⟩ := h.level_getD order.side order.price
  -- both 32-bit counters stay below the size of the slab
  have hlive32 : (b.queue order.side order.price).length + 1 < 2 ^ 32 := by
    have hnd : (slot :: b.queueSlots order.side order.price).Nodup :=
      nodup_cons.mpr ⟨hnew _ _, h.nodup _ _⟩
    have hle := length_le_of_nodup_of_lt hnd (n := pool.slots.length)
      (forall_mem_cons.mpr ⟨hslot, fun j hj => (hlt j).mpr (.inr (h.queueSlots_lt hj))⟩)
    have hq := b.length_queue_le order.side order.price
    rw [length_cons] at hle
    omega
  have hcnt32 : liveCount b.pool.slots order.user + 1 < 2 ^ 32 := by
    have hle : liveCount pool.slots order.user ≤ pool.slots.length := countP_le_length
    rw [hcnt, if_pos ⟨hrem, rfl⟩] at hle
    omega
  obtain ⟨lv, hlv⟩ : ∃ lv : Level, lv = { orders := b.queueSlots order.side order.price ++ [slot]
                                          qty := ((b.queue order.side order.price).map
                                            Order.remaining).sum + order.remaining
                                          live := (b.queue order.side order.price).length + 1 } :=
    ⟨_, rfl⟩
  have happ : (((b.side order.side).level? order.price).getD Level.empty).append slot
      order.remaining = some lv := by
    have hadd := checkedAdd_eq_some.mpr ⟨hsum, rfl⟩
    have hadd' := checkedAdd_eq_some.mpr ⟨hlive32, rfl⟩
    simp only [Level.append, hqty, hlive, horders, hadd, hadd', bind, bind_some,
      Option.pure_def, hlv]
  obtain ⟨x, hpush, hwf, hlevel⟩ := (h.index order.side).push hprice
    (fun lv hlv => hocc _ _ lv hlv) hrem happ
  obtain ⟨counts, hup, hcounts⟩ := h.counts.up hcnt32
  obtain ⟨b', hb'⟩ : ∃ b' : OrderBook, b' = { b.setSide order.side x with
      pool := pool, locate := b.locate.insert order.id slot, userCounts := counts } := ⟨_, rfl⟩
  have hrel : b.Relevels b' order.side order.price (some lv) :=
    .of_side h.index hwf hlevel fun s => by rw [hb']; exact side_update b order.side s _ _ _ _
  have hpool : b'.pool = pool := by rw [hb']
  have hqs : ∀ s p, b'.queueSlots s p = if s = order.side ∧ p = order.price then
      b.queueSlots s p ++ [slot] else b.queueSlots s p := by
    intro s p
    rw [hrel.queueSlots]
    split
    · obtain ⟨rfl, rfl⟩ := ‹s = order.side ∧ p = order.price›
      rw [hlv]
      rfl
    · rfl
  have hold : ∀ s p, liveOrders pool (b.queueSlots s p) = b.queue s p := by
    intro s p
    rw [queue, liveOrders, liveOrders]
    refine filterMap_congr ?_
    intro j hj
    rw [hget, if_neg fun he : j = slot => hnew s p (he ▸ hj)]
  have hqueue : ∀ s p, b'.queue s p = if s = order.side ∧ p = order.price then
      b.queue s p ++ [order] else b.queue s p := by
    intro s p
    rw [queue, hqs, hpool]
    split
    · rw [liveOrders, filterMap_append, ← liveOrders, hold]
      simp [hget, filter_some, hrem]
    · exact hold s p
  refine ⟨b', ?_, ?_, hrel.occupied (hocc.except _ _) ?_, hqueue⟩
  · have hmem : ¬ (order.remaining = 0 ∨ order.id ∈ b.locate) := by
      rw [ExtTreeMap.mem_iff_isSome_getElem?, hid]
      simp [hrem.ne']
    simp only [OrderBook.tryInsert, if_neg hmem, halloc, hpush, hup, bind, bind_some,
      Option.pure_def, hb']
  · refine
      { bounded := hpool ▸ hlen
        index := hrel.index
        queued := ?_
        nodup := ?_
        live_queued := ?_
        located := ?_
        qty := ?_
        live := ?_
        free_nodup := hpool ▸ hfnd
        free_iff := ?_
        counts := ?_ }
    · intro s p j hj
      have hold := h.queued s p j
      grind
    · intro s p
      have hnd := h.nodup s p
      have hnot := hnew s p
      rw [hqs]
      grind
    · intro j o ho hpos
      have hold := h.live_queued j o
      grind
    · intro id j
      have hloc : b'.locate = b.locate.insert order.id slot := by rw [hb']
      have hdead : ∀ o, b.pool.get slot = some o → ¬ 0 < o.remaining := fun o ho hpos =>
        hnew _ _ (h.live_queued slot o ho hpos)
      have hold := h.located id j
      rw [hloc, hpool, hget, getElem?_insert_nat]
      grind
    · intro s p lv' hlv'
      have hold := h.qty s p lv'
      rw [hrel.level?] at hlv'
      rw [hqueue]
      grind
    · intro s p lv' hlv'
      have hold := h.live s p lv'
      rw [hrel.level?] at hlv'
      rw [hqueue]
      grind
    · intro j
      rw [hpool, hfree, h.free_iff, hlt]
      grind
    · have hc' : b'.userCounts = counts := by rw [hb']
      intro u
      have hnew := hcounts u
      have hu := hcnt u
      rw [hc', hpool]
      grind
  · intro lv' hlv'
    grind

/-- An insertion that would push the level total out of range aborts. -/
theorem Inv.tryInsert_abort (h : b.Inv) (hprice : order.price < 2 ^ 64) (hrem : 0 < order.remaining)
    (hid : b.locate[order.id]? = none)
    (hsum : ¬ ((b.queue order.side order.price).map Order.remaining).sum + order.remaining <
      2 ^ 64) :
    b.tryInsert order = none := by
  obtain ⟨-, hqty, -⟩ := h.level_getD order.side order.price
  have happ : ∀ slot, (((b.side order.side).level? order.price).getD Level.empty).append slot
      order.remaining = none := by
    intro slot
    simp only [Level.append, hqty, checkedAdd, if_neg hsum, bind, bind_none]
  have hmem : ¬ (order.remaining = 0 ∨ order.id ∈ b.locate) := by
    rw [ExtTreeMap.mem_iff_isSome_getElem?, hid]
    simp [hrem.ne']
  rw [OrderBook.tryInsert, if_neg hmem]
  cases halloc : b.pool.alloc order with
  | none => rfl
  | some r =>
    simp only [bind, bind_some, (h.index order.side).push_eq_none hprice (happ r.1), bind_none]

end OrderBook

end TradeCore
