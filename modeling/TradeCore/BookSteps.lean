import TradeCore.BookInv
import TradeCore.CrossSpec

/-!
# The Steps of the Book in Any State

The representation invariant assumes that slot numbers fit their 32-bit type. Some facts need no
such assumption. Cancelling, reducing and filling shrink records found through the id index and
maintain levels, whatever the slots of a queue refer to; this is said once for each operation
(`OrderBook.cancel_eq_some`, `OrderBook.reduce_eq_some`, `OrderBook.applyFill_eq_some`), and
everything else follows from what one shrink and one maintenance do.

Such steps **thin** a book (`OrderBook.Thins`): records keep all but their remaining quantity,
which falls, and the per-user counters fall with the live records; entries of the id index and
queued slots only go; resting orders that no step names rest as before; and both price-level
indexes stay well formed, without an empty level.
-/

namespace TradeCore

open Std List
open Option hiding guard_true

namespace OrderBook

/-! ### Relations between books -/

/-- Both indexes are well formed and store no empty level. -/
structure Tidy (b : OrderBook) : Prop where
  index : ∀ s, (b.side s).WF
  occupied : b.Occupied

/-- The id index finds every live record whose slot number fits its type. -/
def Indexed (b : OrderBook) : Prop :=
  ∀ i o, i < 2 ^ 32 → b.pool.get i = some o → 0 < o.remaining → b.locate[o.id]? = some i

/-- The records of `b'` are those of `b`, some with less left; the counters and the id index
follow. -/
structure Worn (b b' : OrderBook) : Prop where
  record : ∀ i o', b'.pool.get i = some o' →
    ∃ o, b.pool.get i = some o ∧ SameOrder o o' ∧ o'.remaining ≤ o.remaining
  counts : ∀ user, user ≠ 0 → b'.userOpenOrders user + liveCount b.pool.slots user =
    b.userOpenOrders user + liveCount b'.pool.slots user
  indexed : b.Indexed → b'.Indexed

/-- The queues of `b'` are thinned queues of `b`, and freed slots come from a queue. -/
structure Requeues (b b' : OrderBook) : Prop where
  level : ∀ s p lv', (b'.side s).level? p = some lv' →
    ∃ lv, (b.side s).level? p = some lv ∧ lv'.orders ⊆ lv.orders
  free : ∀ i ∈ b'.pool.free, i ∈ b.pool.free ∨
    ∃ s p lv, (b.side s).level? p = some lv ∧ i ∈ lv.orders

/-- `b'` is a tidy book whose records and queues are what is left of those of `b`. -/
structure Wears (b b' : OrderBook) : Prop extends Worn b b', Requeues b b' where
  tidy : b'.Tidy

/-- The book finds this live record under its id. -/
def Rests (b : OrderBook) (o : Order) : Prop :=
  ∃ i < 2 ^ 32, b.locate[o.id]? = some i ∧ b.pool.get i = some o ∧ 0 < o.remaining

/-- The id leads to its own resting order, or nowhere. -/
def Known (b : OrderBook) (id : ℕ) : Prop :=
  (∃ o, b.Rests o ∧ o.id = id) ∨ b.locate[id]? = none

/-- The resting orders of `b` but those of the given ids rest in `b'` as they were. -/
structure Spares (b b' : OrderBook) (ids : List ℕ) : Prop where
  rests : ∀ o, b.Rests o → o.id ∉ ids → b'.Rests o
  known : ∀ id, b.Known id → b'.Known id

/-- `b'` is what shrinking the records found under `ids` leaves of `b`. -/
structure Thinned (b b' : OrderBook) (ids : List ℕ) : Prop extends Worn b b', Requeues b b' where
  length : b'.pool.slots.length = b.pool.slots.length
  located : ∀ id slot : ℕ, b'.locate[id]? = some slot → b.locate[id]? = some slot
  spares : (∀ id ∈ ids, b.Known id) → b.Spares b' ids

/-- A thinned book without an empty level. -/
structure Thins (b b' : OrderBook) (ids : List ℕ) : Prop extends Thinned b b' ids where
  tidy : b'.Tidy

section Relations

variable {a b c : OrderBook} {ids ids' : List ℕ}

theorem Worn.trans (h : a.Worn b) (h' : b.Worn c) : a.Worn c where
  record := by
    intro i o' ho'
    obtain ⟨o, ho, hsame, hle⟩ := h'.record i o' ho'
    obtain ⟨o₀, ho₀, hsame₀, hle₀⟩ := h.record i o ho
    exact ⟨o₀, ho₀, hsame₀.trans hsame, hle.trans hle₀⟩
  counts := by
    intro user huser
    have h₁ := h.counts user huser
    have h₂ := h'.counts user huser
    omega
  indexed := fun hi => h'.indexed (h.indexed hi)

theorem Requeues.trans (h : a.Requeues b) (h' : b.Requeues c) : a.Requeues c where
  level := by
    intro s p lv' hlv'
    obtain ⟨lv, hlv, hsub⟩ := h'.level s p lv' hlv'
    obtain ⟨lv₀, hlv₀, hsub₀⟩ := h.level s p lv hlv
    exact ⟨lv₀, hlv₀, fun i hi => hsub₀ (hsub hi)⟩
  free := by
    intro i hi
    rcases h'.free i hi with hi | ⟨s, p, lv, hlv, hi⟩
    · exact h.free i hi
    · obtain ⟨lv₀, hlv₀, hsub₀⟩ := h.level s p lv hlv
      exact .inr ⟨s, p, lv₀, hlv₀, hsub₀ hi⟩

theorem Wears.trans (h : a.Wears b) (h' : b.Wears c) : a.Wears c :=
  ⟨h.toWorn.trans h'.toWorn, h.toRequeues.trans h'.toRequeues, h'.tidy⟩

theorem Spares.trans (h : a.Spares b ids) (h' : b.Spares c ids') : a.Spares c (ids ++ ids') where
  rests := by
    intro o ho hid
    rw [mem_append, not_or] at hid
    exact h'.rests o (h.rests o ho hid.1) hid.2
  known := fun id hid => h'.known id (h.known id hid)

theorem Thinned.trans (h : a.Thinned b ids) (h' : b.Thinned c ids') :
    a.Thinned c (ids ++ ids') where
  toWorn := h.toWorn.trans h'.toWorn
  toRequeues := h.toRequeues.trans h'.toRequeues
  length := h'.length.trans h.length
  located := fun id slot hslot => h.located id slot (h'.located id slot hslot)
  spares := by
    intro hknown
    have hs := h.spares fun id hid => hknown id (mem_append_left _ hid)
    exact hs.trans (h'.spares fun id hid => hs.known id (hknown id (mem_append_right _ hid)))

theorem Thins.trans (h : a.Thins b ids) (h' : b.Thins c ids') : a.Thins c (ids ++ ids') :=
  ⟨h.toThinned.trans h'.toThinned, h'.tidy⟩

/-- Thinning wears a book. -/
theorem Thins.wears (h : a.Thins b ids) : a.Wears b := ⟨h.toWorn, h.toRequeues, h.tidy⟩

/-- Records, counters and id index as they were. -/
theorem Thinned.of_eq (hslots : b.pool.slots = a.pool.slots) (hloc : b.locate = a.locate)
    (hcounts : b.userCounts = a.userCounts) (hreq : a.Requeues b) : a.Thinned b [] := by
  have hget := OrderPool.get_congr hslots
  have hrests : ∀ o, a.Rests o → b.Rests o := by
    intro o
    rw [Rests, Rests]
    simp only [hloc, hget, imp_self]
  refine { toRequeues := hreq, record := ?_, counts := ?_, indexed := ?_, length := ?_,
           located := ?_, spares := ?_ }
  · exact fun i o' ho' => ⟨o', by rwa [hget] at ho', rfl, le_rfl⟩
  · exact fun user _ => by rw [userOpenOrders, userOpenOrders, hslots, hcounts]
  · intro h i o hi ho
    rw [hget] at ho
    rw [hloc]
    exact h i o hi ho
  · rw [hslots]
  · exact fun id slot hslot => hloc ▸ hslot
  · refine fun _ => ⟨fun o ho _ => hrests o ho, fun id hid => ?_⟩
    rcases hid with ⟨o, ho, hid⟩ | hnone
    · exact .inl ⟨o, hrests o ho, hid⟩
    · exact .inr (by rw [hloc, hnone])

theorem Thinned.refl (b : OrderBook) : b.Thinned b [] :=
  .of_eq rfl rfl rfl ⟨fun _ _ lv hlv => ⟨lv, hlv, List.Subset.refl _⟩, fun _ hi => .inl hi⟩

theorem Tidy.thins (h : b.Tidy) : b.Thins b [] := ⟨.refl b, h⟩

/-- A book that nothing happened to, whatever ids were to be shrunk. -/
theorem Tidy.thins_any (h : b.Tidy) (ids : List ℕ) : b.Thins b ids :=
  { h.thins with spares := fun _ => ⟨fun _ ho _ => ho, fun _ hid => hid⟩ }

theorem Tidy.wears (h : b.Tidy) : b.Wears b := h.thins.wears

end Relations

/-! ### Counters -/

/-- A counter that goes down. -/
theorem getD_countUserDown {counts counts' : ExtTreeMap ℕ ℕ} {user : ℕ}
    (h : countUserDown counts user = some counts') {v : ℕ} (hv : v ≠ 0) :
    counts[v]?.getD 0 = counts'[v]?.getD 0 + if v = user then 1 else 0 := by
  unfold countUserDown at h
  split at h
  · grind
  · simp only [bind, bind_eq_some_iff, checkedSub_eq_some, Option.pure_def, some.injEq] at h
    obtain ⟨k, hk, n, ⟨hle, rfl⟩, rfl⟩ := h
    split
    · rw [getElem?_erase_nat]
      grind
    · rw [getElem?_insert_nat]
      grind

/-- A counter that goes up. -/
theorem getD_countUserUp {counts counts' : ExtTreeMap ℕ ℕ} {user : ℕ}
    (h : countUserUp counts user = some counts') {v : ℕ} (hv : v ≠ 0) :
    counts'[v]?.getD 0 = counts[v]?.getD 0 + if v = user then 1 else 0 := by
  unfold countUserUp at h
  split at h
  · grind
  · simp only [bind, bind_eq_some_iff, checkedAdd_eq_some, Option.pure_def, some.injEq] at h
    obtain ⟨n, ⟨-, rfl⟩, rfl⟩ := h
    rw [getElem?_insert_nat]
    grind

/-! ### Shrinking one record -/

/-- The book after the record `o` in `slot`, found under `id`, was shrunk to `r` lots. -/
def shrinkAs (b : OrderBook) (id slot : ℕ) (o : Order) (lv : Level) (r : ℕ)
    (counts : ExtTreeMap ℕ ℕ) : OrderBook :=
  { b.shrink slot o lv r counts with locate := if r = 0 then b.locate.erase id else b.locate }

/-- The record `o` in `slot` is found under `id`, and its level and the counter of its user can
give up what a shrink to `r` lots takes from them. -/
structure Shrinkable (b : OrderBook) (id slot : ℕ) (o : Order) (lv : Level) (r : ℕ)
    (counts : ExtTreeMap ℕ ℕ) : Prop where
  located : b.locate[id]? = some slot
  record : b.pool.get slot = some o
  pos : 0 < o.remaining
  le : r ≤ o.remaining
  level : (b.side o.side).get o.price = some lv
  qty : o.remaining - r ≤ lv.qty
  live : r = 0 → 0 < lv.live
  counted : r = 0 → countUserDown b.userCounts o.user = some counts

section Shrink

variable {b b' : OrderBook} {id slot r : ℕ} {o : Order} {lv : Level} {counts : ExtTreeMap ℕ ℕ}

/-- The sides of a shrunk book. -/
theorem shrinkAs_side (s : Side) : (b.shrinkAs id slot o lv r counts).side s =
    (b.shrink slot o lv r counts).side s := by
  cases s <;> rfl

/-- The level behind `LevelIndex::get`. -/
theorem level?_of_get {x : LevelIndex} {p : ℕ} {lv : Level} (h : x.get p = some lv) :
    x.level? p = some lv := by
  rw [LevelIndex.get, filter_eq_some_iff] at h
  exact h.1

/-- **Shrinking one record**: the order found under `id` keeps `r` lots, and disappears from
the id index and the counters when nothing is left. -/
theorem thinned_shrink (hloc : b.locate[id]? = some slot) (hget : b.pool.get slot = some o)
    (hlive : 0 < o.remaining) (hr : r ≤ o.remaining)
    (hslots : b'.pool.slots = b.pool.slots.set slot { o with remaining := r })
    (hzero : r = 0 → b'.locate = b.locate.erase id ∧
      countUserDown b.userCounts o.user = some b'.userCounts)
    (hpos : r ≠ 0 → b'.locate = b.locate ∧ b'.userCounts = b.userCounts)
    (hreq : b.Requeues b') : b.Thinned b' [id] := by
  have hrecord : ∀ i, b'.pool.get i =
      if i = slot then some { o with remaining := r } else b.pool.get i := by
    intro i
    have hlt := OrderPool.get_eq_some_lt hget
    simp only [OrderPool.get, hslots]
    grind
  have hlocate : ∀ id' : ℕ,
      b'.locate[id']? = if r = 0 ∧ id' = id then none else b.locate[id']? := by
    intro id'
    by_cases hz : r = 0
    · rw [(hzero hz).1, getElem?_erase_nat]
      simp only [hz, true_and]
    · rw [(hpos hz).1]
      simp only [hz, false_and, if_false]
  refine { toRequeues := hreq, record := ?_, counts := ?_, indexed := ?_, length := ?_,
           located := ?_, spares := ?_ }
  · intro i o' ho'
    rw [hrecord] at ho'
    split at ho'
    · cases ho'
      exact ⟨o, by rwa [‹i = slot›], rfl, hr⟩
    · exact ⟨o', ho', rfl, le_rfl⟩
  · intro user huser
    have hcount := liveCount_pos hget hlive
    rw [hslots, liveCount_set hget]
    by_cases hz : r = 0
    · have hdown := getD_countUserDown (hzero hz).2 huser
      simp only [userOpenOrders] at hdown ⊢
      grind
    · simp only [userOpenOrders, (hpos hz).2]
      grind
  · intro hind i o' hi ho' hlive'
    have hfound := hind i
    rw [hrecord] at ho'
    rw [hlocate]
    grind
  · rw [hslots, length_set]
  · intro id' slot' hslot'
    rw [hlocate] at hslot'
    grind
  · intro hknown
    -- the id leads to its own order, so that the other orders are in other slots
    obtain ⟨o₁, ⟨i₁, hi₁, hl₁, hget₁, -⟩, rfl⟩ :=
      (hknown id mem_cons_self).resolve_right (by rw [hloc]; simp)
    obtain rfl := mem_unique hloc hl₁
    obtain rfl := mem_unique hget hget₁
    have hrests : ∀ o', b.Rests o' → o'.id ≠ o.id → b'.Rests o' := by
      rintro o' ⟨i, hi, hl, hget', hlive'⟩ hne
      refine ⟨i, hi, by rw [hlocate, if_neg fun hc => hne hc.2, hl], ?_, hlive'⟩
      rw [hrecord, if_neg, hget']
      rintro rfl
      exact hne (congrArg Order.id (mem_unique hget' hget))
    refine ⟨fun o' ho' hid => hrests o' ho' (by simpa using hid), fun id' hid' => ?_⟩
    by_cases hne : id' = o.id
    · subst hne
      by_cases hz : r = 0
      · exact .inr (by rw [hlocate, if_pos ⟨hz, rfl⟩])
      · refine .inl ⟨{ o with remaining := r }, ⟨slot, hi₁, ?_, ?_, pos_of_ne_zero hz⟩, rfl⟩
        · rw [hlocate, if_neg fun hc => hz hc.1]
          exact hloc
        · rw [hrecord, if_pos rfl]
    · rcases hid' with ⟨o', ho', rfl⟩ | hnone
      · exact .inl ⟨o', hrests o' ho' hne, rfl⟩
      · exact .inr (by rw [hlocate, if_neg fun hc => hne hc.2, hnone])

/-- A shrink gives one level new aggregates. -/
theorem Shrinkable.relevels (h : b.Shrinkable id slot o lv r counts) (hidx : ∀ s, (b.side s).WF) :
    b.Relevels (b.shrinkAs id slot o lv r counts) o.side o.price
      (some { lv with qty := lv.qty - (o.remaining - r)
                      live := if r = 0 then lv.live - 1 else lv.live }) :=
  relevels_setLevel hidx (level?_of_get h.level) fun s => by
    rw [shrinkAs_side]
    exact side_update b o.side s _ _ _ _

/-- A shrink thins the book and leaves at most the level of its order empty. -/
theorem Shrinkable.thinned (h : b.Shrinkable id slot o lv r counts) (hidx : ∀ s, (b.side s).WF) :
    b.Thinned (b.shrinkAs id slot o lv r counts) [id] ∧
      ∃ lv', b.Relevels (b.shrinkAs id slot o lv r counts) o.side o.price (some lv') ∧
        (r ≠ 0 → lv'.live = lv.live) := by
  have hlv := level?_of_get h.level
  have hrel := h.relevels hidx
  refine ⟨thinned_shrink h.located h.record h.pos h.le (@shrink_slots b slot r o lv counts h.record)
    (fun hz => ?_) (fun hz => ?_) ⟨?_, fun i hi => .inl hi⟩, _, hrel, fun hz => if_neg hz⟩
  · simp only [shrinkAs, shrink, hz, if_true]
    exact ⟨trivial, h.counted hz⟩
  · simp only [shrinkAs, shrink, hz, if_false]
    exact ⟨trivial, trivial⟩
  · intro s p lv₁ hlv₁
    rw [hrel.level?] at hlv₁
    split at hlv₁
    · obtain ⟨rfl, rfl⟩ := ‹s = o.side ∧ p = o.price›
      cases hlv₁
      exact ⟨lv, hlv, List.Subset.refl _⟩
    · exact ⟨lv₁, hlv₁, List.Subset.refl _⟩

end Shrink

/-! ### Maintaining one level -/

section Maintain

variable {b b' : OrderBook} {s : Side} {p : ℕ}

/-- **Maintenance** moves slots from a queue to the free list and tidies the book. -/
theorem thins_maintain (hidx : ∀ s, (b.side s).WF) (hocc : b.OccupiedExcept s p)
    (h : b.maintain s p = some b') :
    b.Thins b' [] ∧ b'.locate = b.locate ∧ b'.pool.slots = b.pool.slots := by
  rcases maintain_eq_some hidx h with ⟨hlv, rfl⟩ | ⟨lv, lv', hlv, hr⟩
  · refine ⟨⟨.refl b', hidx, fun s' p' lv hlv' => (hocc s' p' lv hlv').resolve_left ?_⟩, rfl, rfl⟩
    rintro ⟨rfl, rfl⟩
    exact some_ne_none lv (hlv'.symm.trans hlv)
  · obtain ⟨hslots, -, hsub, freed, hperm, hfree, -⟩ := Level.reclaim_spec hr.reclaim
    refine ⟨⟨.of_eq hslots hr.locate hr.userCounts ⟨fun s' p' lv₁ hlv₁ => ?_, fun i hi => ?_⟩,
      hr.relevels.index, hr.relevels.occupied hocc fun lv₁ hlv₁ => ?_⟩, hr.locate, hslots⟩
    · rw [hr.relevels.level?] at hlv₁
      split at hlv₁
      · obtain ⟨rfl, rfl⟩ := ‹s' = s ∧ p' = p›
        split at hlv₁
        · cases hlv₁
        · cases hlv₁
          exact ⟨lv, hlv, hsub.subset⟩
      · exact ⟨lv₁, hlv₁, List.Subset.refl _⟩
    · rcases mem_append.mp (hfree.subset hi) with hi | hi
      · exact .inr ⟨s, p, lv, hlv, hperm.symm.subset (mem_append_left _ hi)⟩
      · exact .inl hi
    · split at hlv₁
      · cases hlv₁
      · cases hlv₁
        omega

end Maintain

/-! ### The operations -/

section Operations

variable {b b' : OrderBook} {id slot r : ℕ} {o : Order} {lv : Level} {counts : ExtTreeMap ℕ ℕ}

/-- Cancelling a located order: a shrink to zero, then maintenance. -/
theorem Shrinkable.cancel_eq (h : b.Shrinkable id slot o lv 0 counts) :
    b.cancel id = ((b.shrinkAs id slot o lv 0 counts).maintain o.side o.price).map (some o, ·) := by
  have hqty : checkedSub lv.qty o.remaining = some (lv.qty - o.remaining) :=
    checkedSub_eq_some.mpr ⟨h.qty, rfl⟩
  have hlive : checkedSub lv.live 1 = some (lv.live - 1) :=
    checkedSub_eq_some.mpr ⟨h.live rfl, rfl⟩
  have hside : (b.shrinkAs id slot o lv 0 counts).side o.side = (b.side o.side).setLevel o.price
      { lv with qty := lv.qty - o.remaining, live := lv.live - 1 } := by
    cases hs : o.side <;> simp [shrinkAs, OrderBook.shrink, hs, side, setSide]
  simp only [OrderBook.cancel, h.located, h.record, h.pos, guard_true, h.level, hqty, hlive,
    h.counted rfl, OrderBook.maintain, bind, bind_some, Option.pure_def, hside]
  rw [show (b.shrinkAs id slot o lv 0 counts).pool = b.pool.setRemaining slot 0 from rfl]
  cases ((b.side o.side).setLevel o.price
      { lv with qty := lv.qty - o.remaining, live := lv.live - 1 }).maintainLevel o.price
      (b.pool.setRemaining slot 0) with
  | none => rfl
  | some r =>
    simp only [bind_some, map_some, shrinkAs, OrderBook.shrink]
    cases o.side <;> rfl

/-- **What a cancellation does**: nothing, or a shrink to zero and maintenance. -/
theorem cancel_eq_some {removed : Option Order} (h : b.cancel id = some (removed, b')) :
    (b.locate[id]? = none ∧ removed = none ∧ b' = b) ∨
    ∃ slot o lv counts, b.Shrinkable id slot o lv 0 counts ∧ removed = some o ∧
      (b.shrinkAs id slot o lv 0 counts).maintain o.side o.price = some b' := by
  have hc := h
  rw [OrderBook.cancel] at h
  split at h
  · cases h
    exact .inl ⟨‹_›, rfl, rfl⟩
  · rename_i slot hloc
    simp only [bind, bind_eq_some_iff, Prod.exists, Option.pure_def, some.injEq,
      Prod.mk.injEq, guard_eq_some', checkedSub_eq_some] at h
    obtain ⟨o, hget, -, hlive, lv, hlv, -, ⟨hqty, -⟩, -, ⟨hcount, -⟩, -, -, -, counts, hcounts, -,
      -⟩ := h
    have hs : b.Shrinkable id slot o lv 0 counts :=
      ⟨hloc, hget, hlive, Nat.zero_le _, hlv, hqty, fun _ => hcount, fun _ => hcounts⟩
    rw [hs.cancel_eq, map_eq_some_iff] at hc
    obtain ⟨b₁, hb₁, heq⟩ := hc
    cases heq
    exact .inr ⟨slot, o, lv, counts, hs, rfl, hb₁⟩

/-- Filling a located order: a shrink. -/
theorem Shrinkable.applyFill_eq (h : b.Shrinkable id slot o lv r counts) (hr : r < o.remaining) :
    b.applyFill o.side o.price (id, o.remaining - r) = some (b.shrinkAs id slot o lv r counts) := by
  have hqty : checkedSub lv.qty (o.remaining - r) = some (lv.qty - (o.remaining - r)) :=
    checkedSub_eq_some.mpr ⟨h.qty, rfl⟩
  have hback : o.remaining - (o.remaining - r) = r := by omega
  by_cases hz : r = 0
  · subst hz
    have hlive : checkedSub lv.live 1 = some (lv.live - 1) :=
      checkedSub_eq_some.mpr ⟨h.live rfl, rfl⟩
    rw [Nat.sub_zero] at hqty
    simp [OrderBook.applyFill, h.located, h.record, h.level, hlive, hqty, h.pos, h.counted rfl,
      shrinkAs, OrderBook.shrink]
  · have hne : o.remaining - r ≠ o.remaining := by omega
    have hpos : 0 < o.remaining - r := by omega
    simp [OrderBook.applyFill, h.located, h.record, h.level, hqty, hpos, hne, hback, hz, shrinkAs,
      OrderBook.shrink]

/-- **What a fill does**: a shrink of the order that it names. -/
theorem applyFill_eq_some {side : Side} {price : ℕ} {fill : ℕ × ℕ}
    (h : b.applyFill side price fill = some b') :
    ∃ slot o lv counts, b.Shrinkable fill.1 slot o lv (o.remaining - fill.2) counts ∧
      o.side = side ∧ o.price = price ∧ 0 < fill.2 ∧ fill.2 ≤ o.remaining ∧
      b' = b.shrinkAs fill.1 slot o lv (o.remaining - fill.2) counts := by
  have hf := h
  simp only [OrderBook.applyFill, bind, bind_eq_some_iff, guard_eq_some', checkedSub_eq_some] at h
  obtain ⟨-, hpos, slot, hloc, o, hget, -, ⟨rfl, rfl⟩, -, hle, lv, hlv, qty, ⟨hqty, -⟩, h⟩ := h
  have hback : o.remaining - (o.remaining - fill.2) = fill.2 := by omega
  obtain ⟨hlive, counts, hcounts⟩ : (o.remaining - fill.2 = 0 → 0 < lv.live) ∧
      ∃ counts, o.remaining - fill.2 = 0 → countUserDown b.userCounts o.user = some counts := by
    by_cases hz : fill.2 = o.remaining
    · simp only [hz, if_true, Nat.sub_self, bind_eq_some_iff, checkedSub_eq_some,
        setSide_userCounts] at h
      obtain ⟨-, ⟨hlive, -⟩, counts, hcounts, -⟩ := h
      exact ⟨fun _ => hlive, counts, fun _ => hcounts⟩
    · have hne : o.remaining - fill.2 ≠ 0 := by omega
      exact ⟨fun hc => absurd hc hne, b.userCounts, fun hc => absurd hc hne⟩
  have hs : b.Shrinkable fill.1 slot o lv (o.remaining - fill.2) counts :=
    ⟨hloc, hget, by omega, Nat.sub_le _ _, hlv, by omega, hlive, hcounts⟩
  have heq := hs.applyFill_eq (by omega)
  rw [hback] at heq
  exact ⟨slot, o, lv, counts, hs, rfl, rfl, hpos, hle, mem_unique hf heq⟩

/-- **What a reduction does**: nothing, a cancellation, or a shrink; the record alone shrinks
when its price has no level. -/
theorem reduce_eq_some {n : ℕ} {done : Bool} (h : b.reduce id n = some (done, b')) :
    b' = b ∨ (n = 0 ∧ ∃ removed, b.cancel id = some (removed, b')) ∨
    n ≠ 0 ∧ ∃ slot o, b.locate[id]? = some slot ∧ b.pool.get slot = some o ∧ n ≤ o.remaining ∧
      ((∃ lv, b.Shrinkable id slot o lv n b.userCounts ∧
        b' = b.shrinkAs id slot o lv n b.userCounts) ∨
      b' = { b with pool := b.pool.setRemaining slot n }) := by
  rw [OrderBook.reduce] at h
  split at h
  · exact .inl (Prod.mk.inj (some.inj h)).2.symm
  · rename_i slot hloc
    split at h
    · simp only [bind, bind_eq_some_iff, Prod.exists, Option.pure_def, some.injEq,
        Prod.mk.injEq] at h
      obtain ⟨removed, b₁, hc, -, rfl⟩ := h
      exact .inr (.inl ⟨‹_›, removed, hc⟩)
    · rename_i hn
      simp only [bind, bind_eq_some_iff] at h
      obtain ⟨o, hget, h⟩ := h
      split at h
      · exact .inl (Prod.mk.inj (some.inj h)).2.symm
      · have hle : n ≤ o.remaining := by omega
        refine .inr (.inr ⟨hn, slot, o, hloc, hget, hle, ?_⟩)
        simp only [bind_eq_some_iff, checkedSub_eq_some] at h
        obtain ⟨delta, ⟨-, rfl⟩, h⟩ := h
        split at h
        · rename_i lv hlv
          simp only [bind_eq_some_iff, checkedSub_eq_some, Option.pure_def,
            some.injEq, Prod.mk.injEq] at h
          obtain ⟨qty, ⟨hqty, rfl⟩, -, rfl⟩ := h
          refine .inl ⟨lv, ⟨hloc, hget, by omega, hle, hlv, hqty, fun hz => absurd hz hn,
            fun hz => absurd hz hn⟩, ?_⟩
          simp only [shrinkAs, OrderBook.shrink, if_neg hn]
          cases o.side <;> rfl
        · exact .inr (Prod.mk.inj (some.inj h)).2.symm

/-- Reducing a located order: a shrink. -/
theorem Shrinkable.reduce_eq (h : b.Shrinkable id slot o lv r counts) (hr : r ≠ 0) :
    b.reduce id r = some (true, b.shrinkAs id slot o lv r counts) := by
  have hsub : checkedSub o.remaining r = some (o.remaining - r) :=
    checkedSub_eq_some.mpr ⟨h.le, rfl⟩
  have hqty : checkedSub lv.qty (o.remaining - r) = some (lv.qty - (o.remaining - r)) :=
    checkedSub_eq_some.mpr ⟨h.qty, rfl⟩
  simp only [OrderBook.reduce, h.located, hr, if_false, h.record, Nat.not_lt.mpr h.le, hsub,
    h.level, hqty, bind, bind_some, Option.pure_def, shrinkAs, OrderBook.shrink,
    setSide_locate, setSide_userCounts]

/-- A level view is maintenance, then the listing of the level. -/
theorem levelViewCapped_eq (b : OrderBook) (s : Side) (p cap : ℕ) :
    b.levelViewCapped s p cap = (b.maintain s p).bind fun b' =>
      match (b'.side s).get p with
      | some lv => (viewCapped b'.pool cap 0 lv.orders).map (·, b')
      | none => some ([], b') := by
  simp only [levelViewCapped, maintain, bind, Option.pure_def]
  cases (b.side s).maintainLevel p b.pool with
  | none => rfl
  | some r =>
    have hside : ({ b.setSide s r.1 with pool := r.2 } : OrderBook).side s = r.1 := by
      cases s <;> rfl
    simp only [bind_some, hside]
    cases r.1.get p with
    | none => rfl
    | some lv => cases hv : viewCapped r.2 cap 0 lv.orders <;> simp [hv]

/-- **A cancellation thins the book.** -/
theorem Tidy.cancel (h : b.Tidy) {removed : Option Order}
    (hc : b.cancel id = some (removed, b')) : b.Thins b' [id] := by
  rcases cancel_eq_some hc with ⟨-, -, rfl⟩ | ⟨slot, o, lv, counts, hs, -, hmt⟩
  · exact h.thins_any [id]
  · obtain ⟨hthin, lv', hrel, -⟩ := hs.thinned h.index
    obtain ⟨hthin', -⟩ := thins_maintain hrel.index
      (hrel.occupiedExcept (h.occupied.except _ _)) hmt
    exact ⟨hthin.trans hthin'.toThinned, hthin'.tidy⟩

/-- **A reduction thins the book.** -/
theorem Tidy.reduce (h : b.Tidy) {n : ℕ} {done : Bool} (hr : b.reduce id n = some (done, b')) :
    b.Thins b' [id] := by
  rcases reduce_eq_some hr with rfl | ⟨-, removed, hc⟩ | ⟨hn, slot, o, hloc, hget, hle, hb⟩
  · exact h.thins_any [id]
  · exact h.cancel hc
  · rcases hb with ⟨lv, hs, rfl⟩ | rfl
    · obtain ⟨hthin, lv', hrel, hlive⟩ := hs.thinned h.index
      refine ⟨hthin, hrel.index, hrel.occupied (h.occupied.except _ _) fun lv₁ hlv₁ => ?_⟩
      rw [← some.inj hlv₁, hlive hn]
      exact h.occupied _ _ lv (level?_of_get hs.level)
    · have hslots : (b.pool.setRemaining slot n).slots =
          b.pool.slots.set slot { o with remaining := n } := by
        have hi : b.pool.slots[slot]? = some o := hget
        rw [OrderPool.setRemaining, modify_eq_set_getElem?, hi]
        rfl
      refine ⟨thinned_shrink hloc hget (by omega) hle hslots (fun hz => absurd hz hn)
        (fun _ => ⟨rfl, rfl⟩) ⟨fun s p lv hlv => ⟨lv, ?_, List.Subset.refl _⟩,
          fun i hi => .inl hi⟩, fun s => ?_, fun s p lv hlv => ?_⟩
      · rwa [side_withPool] at hlv
      · rw [side_withPool]
        exact h.index s
      · rw [side_withPool] at hlv
        exact h.occupied s p lv hlv

/-- The loop of `apply_fills` thins the book and leaves at most one level empty. -/
theorem thinned_foldlM_applyFill {fills : List (ℕ × ℕ)} {side : Side} {price : ℕ}
    (hidx : ∀ s, (b.side s).WF) (hocc : b.OccupiedExcept side price)
    (h : fills.foldlM (fun b fill => b.applyFill side price fill) b = some b') :
    b.Thinned b' (fills.map Prod.fst) ∧ (∀ s, (b'.side s).WF) ∧ b'.OccupiedExcept side price := by
  induction fills generalizing b with
  | nil =>
    obtain rfl : b = b' := by simpa using h
    exact ⟨.refl b, hidx, hocc⟩
  | cons fill fills ih =>
    rw [foldlM_cons] at h
    obtain ⟨b₁, hf, h⟩ := bind_eq_some_iff.mp h
    obtain ⟨slot, o, lv, counts, hs, rfl, rfl, -, -, rfl⟩ := applyFill_eq_some hf
    obtain ⟨hthin, lv', hrel, -⟩ := hs.thinned hidx
    obtain ⟨hthin', hidx', hocc'⟩ := ih hrel.index (hrel.occupiedExcept hocc) h
    exact ⟨hthin.trans hthin', hidx', hocc'⟩

/-- **Applying fills thins the book.** -/
theorem Tidy.applyFills (h : b.Tidy) {side : Side} {price : ℕ} {fills : List (ℕ × ℕ)}
    (hf : b.applyFills side price fills = some b') : b.Thins b' (fills.map Prod.fst) := by
  rw [OrderBook.applyFills] at hf
  split at hf
  · cases hf
    rw [‹fills = []›]
    exact h.thins
  · simp only [bind, bind_eq_some_iff] at hf
    obtain ⟨-, -, b₁, hfold, hmt⟩ := hf
    obtain ⟨hthin, hidx, hocc⟩ := thinned_foldlM_applyFill h.index (h.occupied.except _ _) hfold
    obtain ⟨hthin', -⟩ := thins_maintain hidx hocc
      (by simpa only [maintain, bind, bind_eq_some_iff] using hmt)
    have hall := hthin.trans hthin'.toThinned
    rw [append_nil] at hall
    exact ⟨hall, hthin'.tidy⟩

/-- The copied orders are live records of the slots, and their total is a 64-bit value. -/
theorem viewCapped_spec {pool : OrderPool} {cap covered : ℕ} {slots : List ℕ}
    {view : List RestingOrder} (h : viewCapped pool cap covered slots = some view) :
    (∀ r ∈ view, ∃ i ∈ slots, ∃ o, pool.get i = some o ∧ 0 < o.remaining ∧ r = o.toResting) ∧
      (covered < 2 ^ 64 → covered + viewTotal view < 2 ^ 64) := by
  induction slots generalizing covered view with
  | nil =>
    obtain rfl : [] = view := by simpa [viewCapped] using h
    exact ⟨nofun, id⟩
  | cons i rest ih =>
    simp only [viewCapped, bind, bind_eq_some_iff] at h
    obtain ⟨o, ho, h⟩ := h
    split at h
    · obtain ⟨hmem, hsum⟩ := ih h
      exact ⟨fun r hr => (hmem r hr).imp fun j hj => ⟨mem_cons_of_mem _ hj.1, hj.2⟩, hsum⟩
    · rename_i hlive
      have hhead : ∃ j ∈ i :: rest, ∃ o', pool.get j = some o' ∧ 0 < o'.remaining ∧
          o.toResting = o'.toResting :=
        ⟨i, mem_cons_self, o, ho, pos_of_ne_zero hlive, rfl⟩
      simp only [bind_eq_some_iff, checkedAdd_eq_some] at h
      obtain ⟨covered', ⟨hlt, rfl⟩, h⟩ := h
      have hrem : o.toResting.remaining = o.remaining := rfl
      split at h
      · simp only [Option.pure_def, some.injEq] at h
        subst h
        exact ⟨forall_mem_singleton.mpr hhead, fun _ => by simpa [hrem] using hlt⟩
      · simp only [bind_eq_some_iff, Option.pure_def, some.injEq] at h
        obtain ⟨out, hout, rfl⟩ := h
        obtain ⟨hmem, hsum⟩ := ih hout
        refine ⟨forall_mem_cons.mpr ⟨hhead, fun r hr => ?_⟩, fun _ => ?_⟩
        · exact (hmem r hr).imp fun j hj => ⟨mem_cons_of_mem _ hj.1, hj.2⟩
        · have := hsum hlt
          rw [viewTotal_cons]
          omega

/-- **A level view** thins the book, shrinks nothing and lists live records of queued slots. -/
theorem Tidy.levelViewCapped (h : b.Tidy) {s : Side} {p cap : ℕ} {view : List RestingOrder}
    (hv : b.levelViewCapped s p cap = some (view, b')) :
    b.Thins b' [] ∧ b'.locate = b.locate ∧ b'.pool.slots = b.pool.slots ∧
      viewTotal view < 2 ^ 64 ∧
      ∀ r ∈ view, ∃ i lv o, (b'.side s).level? p = some lv ∧ i ∈ lv.orders ∧
        b'.pool.get i = some o ∧ 0 < o.remaining ∧ r = o.toResting := by
  rw [levelViewCapped_eq, bind_eq_some_iff] at hv
  obtain ⟨b₁, hmt, hv⟩ := hv
  obtain ⟨hthin, hlocate, hslots⟩ := thins_maintain h.index (h.occupied.except _ _) hmt
  split at hv
  · rename_i lv hlv
    obtain ⟨out, hout, heq⟩ := map_eq_some_iff.mp hv
    cases heq
    obtain ⟨hmem, hsum⟩ := viewCapped_spec hout
    have := hsum (Nat.two_pow_pos 64)
    refine ⟨hthin, hlocate, hslots, by omega, fun r hr => ?_⟩
    obtain ⟨i, hi, o, hrest⟩ := hmem r hr
    exact ⟨i, lv, o, level?_of_get hlv, hi, hrest⟩
  · cases hv
    exact ⟨hthin, hlocate, hslots, Nat.two_pow_pos 64, nofun⟩

end Operations

/-! ### Inserting -/

section Insert

variable {b b' : OrderBook} {order : Order}

/-- A live order under a new id gets a new slot at the back of its queue. -/
def Inserts (b : OrderBook) (order : Order) (b' : OrderBook) : Prop :=
  ∃ slot pool x counts, 0 < order.remaining ∧ order.id ∉ b.locate ∧
    b.pool.alloc order = some (slot, pool) ∧
    (b.side order.side).push order.price slot order.remaining = some x ∧
    countUserUp b.userCounts order.user = some counts ∧
    b' = { b.setSide order.side x with
      pool := pool, locate := b.locate.insert order.id slot, userCounts := counts }

/-- **What an insertion does**: nothing, or a record in a new slot at the back of a queue. -/
theorem tryInsert_eq_some {inserted : Bool} (h : b.tryInsert order = some (inserted, b')) :
    (inserted = false ∧ b' = b ∧ (order.remaining = 0 ∨ order.id ∈ b.locate)) ∨
    (inserted = true ∧ b.Inserts order b') := by
  rw [tryInsert] at h
  split at h
  · cases h
    exact .inl ⟨rfl, rfl, ‹_›⟩
  · rename_i hnew
    simp only [bind, bind_eq_some_iff, Prod.exists, Option.pure_def, some.injEq, Prod.mk.injEq] at h
    obtain ⟨slot, pool, halloc, x, hpush, counts, hcounts, hr, hb⟩ := h
    rw [not_or] at hnew
    exact .inr ⟨hr.symm, slot, pool, x, counts, pos_of_ne_zero hnew.1, hnew.2, halloc, hpush,
      hcounts, hb.symm⟩

/-- What an insertion that must succeed does. -/
theorem insert_eq_some (h : b.insert order = some b') : b.Inserts order b' := by
  simp only [insert, bind, bind_eq_some_iff, Prod.exists, guard_eq_some',
    Option.pure_def, some.injEq] at h
  obtain ⟨r, b₁, h, -, rfl, rfl⟩ := h
  rcases tryInsert_eq_some h with ⟨hf, -⟩ | ⟨-, hins⟩
  · cases hf
  · exact hins

/-- An insertion gives the price of its order a level with a live order. -/
theorem Tidy.relevels_push (h : b.Tidy) (hprice : order.price < 2 ^ 64) {slot : ℕ}
    {x : LevelIndex} (hpush : (b.side order.side).push order.price slot order.remaining = some x)
    (pool : OrderPool) (locate counts : ExtTreeMap ℕ ℕ) :
    ∃ lv, lv.orders = (((b.side order.side).level? order.price).elim [] Level.orders) ++ [slot] ∧
      0 < lv.live ∧ b.Relevels { b.setSide order.side x with
        pool := pool, locate := locate, userCounts := counts }
          order.side order.price (some lv) := by
  obtain ⟨-, lv, happ, hwf, hlevel⟩ := (h.index order.side).of_push hprice
    (fun lv hlv => h.occupied _ _ lv hlv) hpush
  simp only [Level.append, bind, bind_eq_some_iff, checkedAdd_eq_some, Option.pure_def,
    some.injEq] at happ
  obtain ⟨qty, -, live, ⟨-, rfl⟩, rfl⟩ := happ
  refine ⟨_, ?_, Nat.succ_pos _, .of_side h.index hwf hlevel fun s => side_update b order.side s ..⟩
  cases (b.side order.side).level? order.price <;> rfl

/-- **An insertion** keeps the book tidy and grows the slab by at most one slot. -/
theorem Tidy.tryInsert (h : b.Tidy) (hprice : order.price < 2 ^ 64) {inserted : Bool}
    (hi : b.tryInsert order = some (inserted, b')) :
    b'.Tidy ∧ b.pool.slots.length ≤ b'.pool.slots.length ∧
      b'.pool.slots.length ≤ b.pool.slots.length + 1 ∧
      (inserted = true → b.pool.free = [] →
        b'.pool.slots.length = b.pool.slots.length + 1) := by
  rcases tryInsert_eq_some hi with ⟨rfl, rfl, -⟩ | ⟨rfl, slot, pool, x, counts, -, -, halloc, hpush,
    -, rfl⟩
  · exact ⟨h, le_rfl, Nat.le_succ _, nofun⟩
  · obtain ⟨lv, -, hlive, hrel⟩ := h.relevels_push hprice hpush pool _ counts
    refine ⟨⟨hrel.index, hrel.occupied (h.occupied.except _ _) fun lv' hlv' => ?_⟩, ?_⟩
    · rw [← some.inj hlv']
      exact hlive
    · rcases alloc_eq_some halloc with ⟨-, hfree, hslots⟩ | ⟨-, -, hslots, -⟩
      · simp [hslots, hfree]
      · simp [hslots]

/-- The same for an insertion that must succeed; only the price of the order is new. -/
theorem Tidy.insert (h : b.Tidy) (hprice : order.price < 2 ^ 64) (hi : b.insert order = some b') :
    b'.Tidy ∧ (∀ s p lv', (b'.side s).level? p = some lv' →
      (s = order.side ∧ p = order.price) ∨ (b.side s).level? p = some lv') ∧
      b'.pool.slots.length ≤ b.pool.slots.length + 1 := by
  obtain ⟨slot, pool, x, counts, -, -, halloc, hpush, -, rfl⟩ := insert_eq_some hi
  obtain ⟨lv, -, hlive, hrel⟩ := h.relevels_push hprice hpush pool
    (b.locate.insert order.id slot) counts
  refine ⟨⟨hrel.index, hrel.occupied (h.occupied.except _ _) fun lv' hlv' => ?_⟩,
    fun s p lv' hlv' => ?_, ?_⟩
  · rw [← some.inj hlv']
    exact hlive
  · rw [hrel.level?] at hlv'
    split at hlv'
    · exact .inl ‹_›
    · exact .inr hlv'
  · rcases alloc_eq_some halloc with ⟨-, -, hslots⟩ | ⟨-, -, hslots, -⟩ <;> simp [hslots]

end Insert

end OrderBook

end TradeCore
