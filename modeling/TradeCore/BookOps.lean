import TradeCore.BookSteps

/-!
# The Operations of the Book Keep the Invariant

Each operation of `OrderBook` is decomposed into the primitive steps of `BookInv`, which
gives its effect on the queues of live orders and shows that none of its assertions can
fail on the arguments the engine passes.

## Main results

* `OrderBook.Inv.applyFills`, `OrderBook.Inv.cancel`, `OrderBook.Inv.reduce`,
  `OrderBook.Inv.levelViewCapped` — the effect of each operation on the queues;
* `OrderBook.run_repInv` — the representation invariant after every sequence of
  operations on an empty book.
-/

namespace TradeCore

open Std List
open Option hiding guard_true

/-- The lots that a list of fills takes from the order `id`. -/
def taken (fills : List (ℕ × ℕ)) (id : ℕ) : ℕ :=
  (fills.map fun fill => if fill.1 = id then fill.2 else 0).sum

/-- What a list of fills leaves of a live order. -/
def settle (fills : List (ℕ × ℕ)) (o : Order) : Option Order :=
  if o.remaining - taken fills o.id = 0 then none
  else some { o with remaining := o.remaining - taken fills o.id }

@[simp] theorem taken_nil (id : ℕ) : taken [] id = 0 := rfl

@[simp] theorem taken_cons (fill : ℕ × ℕ) (fills : List (ℕ × ℕ)) (id : ℕ) :
    taken (fill :: fills) id = (if fill.1 = id then fill.2 else 0) + taken fills id := by
  simp [taken]

/-- A `filterMap` that keeps every element changes nothing. -/
theorem filterMap_eq_self {α : Type} {f : α → Option α} {l : List α}
    (h : ∀ a ∈ l, f a = some a) : l.filterMap f = l := by
  rw [filterMap_congr h, filterMap_some]

/-- Fills that name other orders take nothing. -/
theorem taken_of_notMem {fills : List (ℕ × ℕ)} {id : ℕ} (h : id ∉ fills.map Prod.fst) :
    taken fills id = 0 := by
  induction fills with
  | nil => rfl
  | cons fill fills ih =>
    rw [map_cons, mem_cons, not_or] at h
    rw [taken_cons, if_neg (Ne.symm h.1), ih h.2]

/-- A live order that no fill names is left as it is. -/
theorem settle_of_taken_eq_zero {fills : List (ℕ × ℕ)} {o : Order} (hrem : 0 < o.remaining)
    (h : taken fills o.id = 0) : settle fills o = some o := by
  rw [settle, h, Nat.sub_zero, if_neg hrem.ne']

namespace OrderBook

variable {fills : List (ℕ × ℕ)} {o : Order} {b b' : OrderBook} {side : Side} {id price : ℕ}

/-! ### Reading a level -/

/-- `LevelIndex::get` under the invariant: the stored level, if its queue is not empty. -/
theorem Inv.index_get (h : b.Inv) {s : Side} {p : ℕ} {lv : Level} :
    (b.side s).get p = some lv ↔ (b.side s).level? p = some lv ∧ b.queue s p ≠ [] := by
  rw [LevelIndex.get, filter_eq_some_iff, decide_eq_true_eq]
  refine and_congr_right fun hlv => ?_
  rw [h.live s p lv hlv, length_pos_iff]

/-- A queue with an order in it is stored. -/
theorem Inv.exists_get (h : b.Inv) {s : Side} {p : ℕ} (ho : o ∈ b.queue s p) :
    ∃ lv, (b.side s).get p = some lv := by
  obtain ⟨i, hi, -, -⟩ := mem_queue.mp ho
  cases hlv : (b.side s).level? p with
  | none =>
    rw [queueSlots, hlv] at hi
    cases hi
  | some lv => exact ⟨lv, h.index_get.mpr ⟨hlv, ne_nil_of_mem ho⟩⟩

/-! ### Shrinking -/

/-- A live order can be shrunk. -/
theorem Inv.shrinkable (h : b.Inv) {i r : ℕ} (hget : b.pool.get i = some o) (hrem : 0 < o.remaining)
    (hr : r ≤ o.remaining) :
    ∃ lv counts, b.Shrinkable o.id i o lv r counts := by
  have ho : o ∈ b.queue o.side o.price :=
    mem_queue.mpr ⟨i, h.live_queued i o hget hrem, hget, hrem⟩
  obtain ⟨lv, hlv, hlive, hle⟩ := h.exists_level hget hrem
  obtain ⟨counts, hcounts, -⟩ := h.counts.down (liveCount_pos hget hrem)
  exact ⟨lv, counts, (h.located o.id i).mpr ⟨o, hget, hrem, rfl⟩, hget, hrem, hr,
    h.index_get.mpr ⟨hlv, ne_nil_of_mem ho⟩, by omega, fun _ => hlive, fun _ => hcounts⟩

/-- **A shrink under the invariant**: the order found is the one that was asked for, and it is
shrunk in its queue. -/
theorem Shrinkable.shrinks {slot r : ℕ} {lv : Level} {counts : ExtTreeMap ℕ ℕ}
    (hs : b.Shrinkable id slot o lv r counts) (h : b.Inv) :
    o.id = id ∧ o ∈ b.queue o.side o.price ∧ (b.shrinkAs id slot o lv r counts).Inv ∧
      (b.OccupiedExcept o.side o.price →
        (b.shrinkAs id slot o lv r counts).OccupiedExcept o.side o.price) ∧
      (b.shrinkAs id slot o lv r counts).pool.slots.length = b.pool.slots.length ∧
      ∀ s p, (b.shrinkAs id slot o lv r counts).queue s p =
        (b.queue s p).filterMap (shrunk id r) := by
  obtain ⟨o', hget', -, rfl⟩ := (h.located id slot).mp hs.located
  obtain rfl := mem_unique hs.record hget'
  have hlv := level?_of_get hs.level
  obtain ⟨hthin, lv', hrel, -⟩ := hs.thinned h.index
  exact ⟨rfl, mem_queue.mpr ⟨slot, h.live_queued slot o hs.record hs.pos, hs.record, hs.pos⟩,
    h.shrink hs.record hs.pos hs.le hlv hs.counted, hrel.occupiedExcept, hthin.length,
    shrink_queue h hs.record hs.pos hlv⟩

/-! ### Fills -/

/-- One accepted fill keeps the invariant. -/
theorem Inv.applyFill (h : b.Inv) (hocc : b.OccupiedExcept side price) {fill : ℕ × ℕ}
    (hfill : b.applyFill side price fill = some b') :
    b'.Inv ∧ b'.OccupiedExcept side price ∧ b'.pool.free = b.pool.free ∧
      b'.pool.slots.length = b.pool.slots.length ∧
      ∃ o ∈ b.queue side price, o.id = fill.1 ∧ 0 < fill.2 ∧ fill.2 ≤ o.remaining ∧
        ∀ s p, b'.queue s p = (b.queue s p).filterMap (shrunk fill.1 (o.remaining - fill.2)) := by
  obtain ⟨slot, o, lv, counts, hs, rfl, rfl, hq, hqo, rfl⟩ := applyFill_eq_some hfill
  obtain ⟨hid, ho, hinv, hocc', hlen, hqueue⟩ := hs.shrinks h
  exact ⟨hinv, hocc' hocc, rfl, hlen, o, ho, hid, hq, hqo, hqueue⟩

/-- A fill of a live order is accepted. -/
theorem Inv.exists_applyFill (h : b.Inv) {q : ℕ} (ho : o ∈ b.queue side price) (hq : 0 < q)
    (hqo : q ≤ o.remaining) :
    ∃ b', b.applyFill side price (o.id, q) = some b' := by
  obtain ⟨hrem, rfl, rfl⟩ := h.of_mem_queue ho
  obtain ⟨i, -, hget, -⟩ := mem_queue.mp ho
  obtain ⟨lv, counts, hs⟩ := h.shrinkable hget hrem (Nat.sub_le o.remaining q)
  have heq := hs.applyFill_eq (by omega)
  rw [Nat.sub_sub_self hqo] at heq
  exact ⟨_, heq⟩

/-- Shrinking by one fill and settling the rest is settling all of them. -/
theorem bind_shrunk_settle {a : Order} (hid : a.id = o.id → a = o) (n : ℕ) (fills : List (ℕ × ℕ)) :
    (shrunk o.id (o.remaining - n) a).bind (settle fills) = settle ((o.id, n) :: fills) a := by
  by_cases hae : a.id = o.id
  · obtain rfl := hid hae
    by_cases hz : a.remaining - n = 0
    · have hz' : a.remaining - (n + taken fills a.id) = 0 := by omega
      simp [shrunk, settle, hz, hz']
    · simp only [shrunk, if_true, if_neg hz, bind_some, settle, taken_cons]
      rw [Nat.sub_sub]
  · simp [shrunk, hae, settle, Ne.symm hae]

section

variable (h : b.Inv)
include h

/-- The loop of `apply_fills` settles the fills. -/
theorem Inv.foldlM_applyFill (hocc : b.OccupiedExcept side price)
    (hfills : fills.foldlM (fun b fill => b.applyFill side price fill) b = some b') :
    b'.Inv ∧ b'.OccupiedExcept side price ∧ b'.pool.free = b.pool.free ∧
      b'.pool.slots.length = b.pool.slots.length ∧
      ∀ s p, b'.queue s p = (b.queue s p).filterMap (settle fills) := by
  induction fills generalizing b with
  | nil =>
    obtain rfl : b = b' := by simpa using hfills
    refine ⟨h, hocc, rfl, rfl, ?_⟩
    intro s p
    refine (filterMap_eq_self ?_).symm
    intro a ha
    exact settle_of_taken_eq_zero (h.of_mem_queue ha).1 rfl
  | cons fill fills ih =>
    rw [foldlM_cons] at hfills
    obtain ⟨b₁, hfill, hfills⟩ := bind_eq_some_iff.mp hfills
    obtain ⟨h₁, hocc₁, hfree₁, hlen₁, o, ho, hid, hq, hqo, hqueue₁⟩ := h.applyFill hocc hfill
    obtain ⟨h', hocc', hfree', hlen', hqueue'⟩ := ih h₁ hocc₁ hfills
    refine ⟨h', hocc', hfree'.trans hfree₁, hlen'.trans hlen₁, ?_⟩
    intro s p
    rw [hqueue', hqueue₁, filterMap_filterMap]
    refine filterMap_congr ?_
    intro a ha
    obtain ⟨id, n⟩ := fill
    simp only at hid ⊢
    subst hid
    exact bind_shrunk_settle (fun hae => (h.eq_of_mem_queue ha ho hae).1) n fills

/-- **Applying accepted fills** settles them against the queues. -/
theorem Inv.applyFills (hocc : b.Occupied) (hfills : b.applyFills side price fills = some b') :
    b'.Inv ∧ b'.Occupied ∧ b'.pool.slots.length = b.pool.slots.length ∧
      (b.HasRoom → b'.HasRoom) ∧
      ∀ s p, b'.queue s p = (b.queue s p).filterMap (settle fills) := by
  rw [OrderBook.applyFills] at hfills
  split at hfills
  · rename_i hnil
    cases hfills
    refine ⟨h, hocc, rfl, id, ?_⟩
    intro s p
    refine (filterMap_eq_self ?_).symm
    intro a ha
    exact settle_of_taken_eq_zero (h.of_mem_queue ha).1 (by rw [hnil]; rfl)
  · simp only [bind, bind_eq_some_iff] at hfills
    obtain ⟨-, -, b₁, hfold, hmt⟩ := hfills
    obtain ⟨h₁, hocc₁, hfree₁, hlen₁, hqueue₁⟩ :=
      h.foldlM_applyFill (hocc.except side price) hfold
    obtain ⟨b₂, hb₂, h₂, hocc₂, hm₂⟩ := h₁.maintain side price
    obtain ⟨freed, -, hfree₂⟩ := hm₂.freed
    have hmt' : b₁.maintain side price = some b' := by
      simpa only [OrderBook.maintain, bind, bind_eq_some_iff] using hmt
    rw [hb₂] at hmt'
    obtain rfl := some.inj hmt'
    have hlen : b₂.pool.slots.length = b.pool.slots.length := by rw [hm₂.slots, hlen₁]
    exact ⟨h₂, hocc₂ hocc₁, hlen, fun hroom => hroom.mono hlen (hfree₁ ▸ hfree₂),
      fun s p => by rw [hm₂.queue, hqueue₁]⟩

/-- Fills of distinct live orders of one level, none larger than its order, are accepted. -/
theorem Inv.exists_applyFills (hocc : b.Occupied) (hnd : (fills.map Prod.fst).Nodup)
    (hall : ∀ fill ∈ fills, ∃ o ∈ b.queue side price,
      o.id = fill.1 ∧ 0 < fill.2 ∧ fill.2 ≤ o.remaining) :
    ∃ b', b.applyFills side price fills = some b' := by
  have hfold : ∃ b', fills.foldlM (fun b fill => b.applyFill side price fill) b = some b' := by
    have hoe := hocc.except side price
    clear hocc
    induction fills generalizing b with
    | nil => exact ⟨b, rfl⟩
    | cons fill fills ih =>
      rw [map_cons, nodup_cons] at hnd
      obtain ⟨o, ho, hid, hq, hqo⟩ := hall fill mem_cons_self
      obtain ⟨b₁, hfill⟩ := h.exists_applyFill ho hq hqo
      rw [hid] at hfill
      obtain ⟨h₁, hoe₁, -, -, o', ho', hid', -, -, hqueue₁⟩ := h.applyFill hoe hfill
      -- the later fills name other orders, which the first one leaves alone
      obtain ⟨b', hb'⟩ := ih h₁ hnd.2 (by
        intro fill' hmem
        obtain ⟨a, ha, haid, hrest⟩ := hall fill' (mem_cons_of_mem _ hmem)
        refine ⟨a, ?_, haid, hrest⟩
        rw [hqueue₁, mem_filterMap]
        refine ⟨a, ha, ?_⟩
        have hne : a.id ≠ fill.1 := by
          rw [haid]
          exact fun he => hnd.1 (he ▸ List.mem_map_of_mem hmem)
        rw [shrunk, if_neg hne]) hoe₁
      refine ⟨b', ?_⟩
      rw [foldlM_cons]
      exact bind_eq_some_iff.mpr ⟨b₁, hfill, hb'⟩
  rw [OrderBook.applyFills]
  split
  · exact ⟨b, rfl⟩
  · rename_i hne
    obtain ⟨fill, rest, rfl⟩ := exists_cons_of_ne_nil hne
    obtain ⟨o, ho, -⟩ := hall fill mem_cons_self
    obtain ⟨lv, hlv⟩ := h.exists_get ho
    obtain ⟨b₁, hb₁⟩ := hfold
    obtain ⟨h₁, -⟩ := h.foldlM_applyFill (hocc.except side price) hb₁
    obtain ⟨b₂, hb₂, -⟩ := h₁.maintain side price
    refine ⟨b₂, ?_⟩
    simp only [hlv, isSome_some, guard_true, hb₁, bind, Option.pure_def, bind_some]
    exact hb₂

/-! ### Cancellation and reduction -/

/-- **Cancelling a resting order** removes it from its queue. -/
theorem Inv.cancel (hocc : b.Occupied) (ho : b.get id = some o) :
    ∃ b', b.cancel id = some (some o, b') ∧ b'.Inv ∧ b'.Occupied ∧
      b'.pool.slots.length = b.pool.slots.length ∧ (b.HasRoom → b'.HasRoom) ∧
      ∀ s p, b'.queue s p = (b.queue s p).filterMap (shrunk id 0) := by
  obtain ⟨rfl, hmem⟩ := h.get_eq_some.mp ho
  obtain ⟨i, -, hget, hrem⟩ := mem_queue.mp hmem
  obtain ⟨lv, counts, hs⟩ := h.shrinkable hget hrem (Nat.zero_le _)
  obtain ⟨-, -, h₁, hocc₁, hlen₁, hqueue₁⟩ := hs.shrinks h
  obtain ⟨b', hb', h', hocc', hm⟩ := h₁.maintain o.side o.price
  obtain ⟨freed, -, hfree'⟩ := hm.freed
  have hlen : b'.pool.slots.length = b.pool.slots.length := by rw [hm.slots, hlen₁]
  refine ⟨b', ?_, h', hocc' (hocc₁ (hocc.except _ _)), hlen,
    fun hroom => hroom.mono hlen hfree', fun s p => ?_⟩
  · rw [hs.cancel_eq, hb', map_some]
  · rw [hm.queue, hqueue₁]

/-- Nothing is found under an id that is not located. -/
theorem Inv.locate_eq_none : b.locate[id]? = none ↔ b.get id = none := by
  constructor
  · intro hloc
    rw [get, hloc]
    rfl
  · intro hget
    cases hloc : b.locate[id]? with
    | none => rfl
    | some i =>
      obtain ⟨o, ho, -⟩ := (h.located id i).mp hloc
      rw [get, hloc, bind_some, ho] at hget
      cases hget

/-- Cancelling an id that does not rest changes nothing. -/
theorem Inv.cancel_of_none (hget : b.get id = none) : b.cancel id = some (none, b) := by
  rw [OrderBook.cancel, h.locate_eq_none.mpr hget]

/-- A located order, with its slot. -/
theorem Inv.of_get (ho : b.get id = some o) :
    ∃ i, b.locate[id]? = some i ∧ b.pool.get i = some o ∧ 0 < o.remaining ∧ o.id = id := by
  obtain ⟨i, hloc, hget⟩ := bind_eq_some_iff.mp ho
  obtain ⟨o', hget', hrem, hid⟩ := (h.located id i).mp hloc
  rw [hget] at hget'
  cases hget'
  exact ⟨i, hloc, hget, hrem, hid⟩

/-- **Reducing a resting order** changes its remaining quantity and nothing else. -/
theorem Inv.reduce (hocc : b.Occupied) {n : ℕ} (ho : b.get id = some o) (hn : 0 < n)
    (hle : n ≤ o.remaining) :
    ∃ b', b.reduce id n = some (true, b') ∧ b'.Inv ∧ b'.Occupied ∧
      b'.pool.slots.length = b.pool.slots.length ∧ (b.HasRoom → b'.HasRoom) ∧
      ∀ s p, b'.queue s p = (b.queue s p).filterMap (shrunk id n) := by
  obtain ⟨i, -, hget, hrem, rfl⟩ := h.of_get ho
  obtain ⟨lv, counts, hs⟩ := h.shrinkable hget hrem hle
  obtain ⟨-, -, h', -, hlen, hqueue⟩ := hs.shrinks h
  obtain ⟨-, lv', hrel, hlive⟩ := hs.thinned h.index
  refine ⟨_, hs.reduce_eq hn.ne', h', hrel.occupied (hocc.except _ _) fun lv₁ hlv₁ => ?_, hlen,
    fun hroom => hroom.mono hlen (List.Perm.refl ([] ++ b.pool.free)), hqueue⟩
  rw [← some.inj hlv₁, hlive hn.ne']
  exact hocc _ _ lv (level?_of_get hs.level)

/-- A reduction above the current remaining quantity is refused. -/
theorem Inv.reduce_refused {n : ℕ} (ho : b.get id = some o) (hlt : o.remaining < n) :
    b.reduce id n = some (false, b) := by
  obtain ⟨i, hloc, hget, -, -⟩ := h.of_get ho
  have hn : n ≠ 0 := by omega
  simp only [OrderBook.reduce, hloc, hn, if_false, hget, hlt, if_true, bind, bind_some,
    Option.pure_def]

end

/-! ### Level views -/

/-- The shortest prefix of a level whose total, on top of `covered`, reaches `cap`; the
whole level if it does not. -/
def capped (cap : ℕ) : ℕ → List RestingOrder → List RestingOrder
  | _, [] => []
  | covered, r :: rest =>
    if cap ≤ covered + r.remaining then [r]
    else r :: capped cap (covered + r.remaining) rest

/-- A cap that the level does not exceed keeps all of it. -/
theorem capped_eq_self {cap covered : ℕ} {view : List RestingOrder}
    (hpos : ∀ r ∈ view, 0 < r.remaining)
    (hle : covered + (view.map RestingOrder.remaining).sum ≤ cap) :
    capped cap covered view = view := by
  induction view generalizing covered with
  | nil => rfl
  | cons r rest ih =>
    rw [map_cons, sum_cons] at hle
    have hrest : ∀ a ∈ rest, 0 < a.remaining := fun a ha => hpos a (mem_cons_of_mem _ ha)
    rw [capped]
    split
    · -- the cap is reached here, so nothing is left behind
      cases rest with
      | nil => rfl
      | cons a rest' =>
        have ha := hrest a mem_cons_self
        rw [map_cons, sum_cons] at hle
        omega
    · rw [ih hrest (by omega)]

/-- The copying loop produces the capped view of the live orders. -/
theorem viewCapped_eq {pool : OrderPool} {cap covered : ℕ} {slots : List ℕ}
    (hvalid : ∀ i ∈ slots, i < pool.slots.length)
    (hsum : covered + ((liveOrders pool slots).map Order.remaining).sum < 2 ^ 64) :
    viewCapped pool cap covered slots =
      some (capped cap covered ((liveOrders pool slots).map Order.toResting)) := by
  induction slots generalizing covered with
  | nil => rfl
  | cons i rest ih =>
    have hrest : ∀ j ∈ rest, j < pool.slots.length :=
      fun j hj => hvalid j (mem_cons_of_mem _ hj)
    obtain ⟨o, ho⟩ : ∃ o, pool.get i = some o :=
      ⟨_, getElem?_eq_getElem (hvalid i mem_cons_self)⟩
    by_cases hz : o.remaining = 0
    · have hcons : liveOrders pool (i :: rest) = liveOrders pool rest := by
        simp [liveOrders, ho, hz]
      rw [hcons] at hsum ⊢
      simp only [viewCapped, ho, hz, if_true, bind, bind_some]
      exact ih hrest hsum
    · have hcons : liveOrders pool (i :: rest) = o :: liveOrders pool rest := by
        simp [liveOrders, ho, filter_some, pos_of_ne_zero hz]
      rw [hcons, map_cons, sum_cons] at hsum
      have hadd : checkedAdd 64 covered o.remaining = some (covered + o.remaining) :=
        checkedAdd_eq_some.mpr ⟨by omega, rfl⟩
      rw [hcons, map_cons, capped]
      simp only [viewCapped, ho, hz, if_false, hadd, bind, bind_some, Option.pure_def]
      by_cases hcap : cap ≤ covered + o.remaining
      · simp [hcap, Order.toResting]
      · have htail := ih hrest (show covered + o.remaining +
          ((liveOrders pool rest).map Order.remaining).sum < 2 ^ 64 by omega)
        simp [hcap, Order.toResting, htail]

/-- **The engine's view of a level** is the capped queue, and reading it changes no
queue. -/
theorem Inv.levelViewCapped (h : b.Inv) (hocc : b.Occupied) (s : Side) (p cap : ℕ) :
    ∃ b', b.levelViewCapped s p cap =
        some (capped cap 0 ((b.queue s p).map Order.toResting), b') ∧
      b'.Inv ∧ b'.Occupied ∧ b'.pool.slots.length = b.pool.slots.length ∧
      (b.HasRoom → b'.HasRoom) ∧ ∀ s p, b'.queue s p = b.queue s p := by
  obtain ⟨b', hb', h', hocc', hm⟩ := h.maintain s p
  obtain ⟨freed, -, hfree'⟩ := hm.freed
  have hlen : b'.pool.slots.length = b.pool.slots.length := by rw [hm.slots]
  refine ⟨b', ?_, h', hocc' (hocc.except s p), hlen, fun hroom => hroom.mono hlen hfree', hm.queue⟩
  rw [levelViewCapped_eq, hb', bind_some, ← hm.queue]
  cases hget : (b'.side s).get p with
  | none =>
    have hnil : b'.queue s p = [] := by
      by_contra hne
      obtain ⟨o, ho⟩ := exists_mem_of_ne_nil _ hne
      obtain ⟨lv, hlv⟩ := h'.exists_get ho
      exact some_ne_none lv (hlv.symm.trans hget)
    simp [hnil, capped]
  | some lv =>
    have hlv := (h'.index_get.mp hget).1
    have hqs : b'.queueSlots s p = lv.orders := by rw [queueSlots, hlv]; rfl
    have hq : liveOrders b'.pool lv.orders = b'.queue s p := by rw [queue, hqs]
    have hsum := h'.qty s p lv hlv
    have hview := @viewCapped_eq b'.pool cap 0 lv.orders
      (fun i hi => h'.queueSlots_lt (hqs.symm ▸ hi)) (by rw [hq]; omega)
    simp only [hview, hq, map_some]

end OrderBook

end TradeCore
