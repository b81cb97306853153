import TradeCore.Removal

/-!
# Commands that Stop the Process

The books of `book.rs` check their arithmetic and abort the process instead of corrupting a
book, and the release profile turns every panic into an abort. This module says which commands
of a client get that far. Three sums are left to the clients: the lots that rest at one price,
the lots that a fill-or-kill order finds on the other side, and the slots of a book.

## Main results

* `Processor.process_sustained` — a command sequence whose steps stay inside these limits is
  processed to its end.
* `Processor.client_stops_node` — two commands that stop the process with the lots of one
  price, and three that stop it with a fill-or-kill order for a single lot.
-/

namespace TradeCore

open Std List Option

/-! ### What an engine can take -/

namespace OrderBook

/-- The lots that rest at a price. -/
def restingAt (b : OrderBook) (s : Side) (p : ℕ) : ℕ := totalQty (b.queue s p)

/-- The lots that rest on a side. -/
def restingOn (b : OrderBook) (s : Side) : ℕ :=
  totalQty (b.pool.slots.filter fun o => 0 < o.remaining ∧ o.side = s)

end OrderBook

theorem totalQty_filterMap_le {f : Order → Option Order} (h : ∀ o o', f o = some o' →
    o'.remaining ≤ o.remaining) (q : List Order) : totalQty (q.filterMap f) ≤ totalQty q := by
  induction q with
  | nil => exact le_rfl
  | cons o q ih =>
    rw [filterMap_cons]
    split
    · exact ih.trans (by simp [totalQty])
    · rename_i o' ho'
      have := h o o' ho'
      simp only [totalQty, map_cons, sum_cons] at ih ⊢
      omega

namespace OrderBook

variable {b : OrderBook} {n : NaiveBook}

/-- The live records of the slab are the resting orders. -/
theorem Refines.perm_live {b : OrderBook} {n : NaiveBook} (h : b.Refines n) :
    (b.pool.slots.filter fun o => 0 < o.remaining).Perm n.orders := by
  have hnodup : ((b.pool.slots.filter fun o => 0 < o.remaining).map Order.id).Nodup := by
    rw [List.Nodup, pairwise_map, pairwise_filter, pairwise_iff_getElem]
    intro i j hi hj hij hli hlj heq
    have hloc (k : ℕ) (hk : k < b.pool.slots.length) (hlive : 0 < b.pool.slots[k].remaining) :
        b.locate[b.pool.slots[k].id]? = some k :=
      (h.inv.located _ k).mpr ⟨_, getElem?_eq_getElem hk, hlive, rfl⟩
    have hi' := hloc i hi (by simpa using hli)
    rw [heq, hloc j hj (by simpa using hlj)] at hi'
    exact hij.ne (some.inj hi').symm
  rw [perm_ext_iff_of_nodup hnodup.of_map h.nodup_orders.of_map]
  intro o
  rw [h.mem_orders, mem_queue, mem_filter, mem_iff_getElem?]
  constructor
  · rintro ⟨⟨i, hi⟩, hlive⟩
    have hlive : 0 < o.remaining := by simpa using hlive
    exact ⟨i, h.inv.live_queued i o hi hlive, hi, hlive⟩
  · rintro ⟨i, -, hi, hlive⟩
    exact ⟨⟨i, hi⟩, by simpa using hlive⟩

/-- What an order reaches is no more than what rests on the side. -/
theorem Refines.crossableQty_le (h : b.Refines n) (s : Side) (limit : ℕ) :
    n.crossableQty s limit ≤ b.restingOn s.opposite := by
  have hside : ∀ o ∈ (n s.opposite).elems, o.side = s.opposite := by
    intro o ho
    obtain ⟨p, hmem⟩ := Ladder.mem_elems.mp ho
    have hmem : o ∈ n.queue s.opposite p := hmem
    rw [← h.queue] at hmem
    exact (h.inv.of_mem_queue hmem).2.1
  have helems : ((n s.opposite).elems).Sublist (n.orders.filter fun o => o.side = s.opposite) := by
    have hself : ((n s.opposite).elems).filter (fun o => o.side = s.opposite) =
        (n s.opposite).elems := filter_eq_self.mpr fun o ho => by simpa using hside o ho
    rw [← hself]
    refine List.Sublist.filter _ ?_
    cases s with
    | buy => exact sublist_append_right _ _
    | sell => exact sublist_append_left _ _
  have hperm := (h.perm_live.filter fun o => o.side = s.opposite).map Order.remaining
  have hlots :
      totalQty (n.orders.filter fun o => o.side = s.opposite) = b.restingOn s.opposite := by
    rw [restingOn, totalQty, totalQty, ← hperm.sum_eq, List.filter_filter]
    simp only [Bool.decide_and, Bool.and_comm]
  calc n.crossableQty s limit
      ≤ (((n s.opposite).rungs).map fun e => totalQty e.2).sum :=
        (List.Sublist.map _ (filter_sublist)).sum_le_sum fun _ _ => Nat.zero_le _
    _ = totalQty (n s.opposite).elems := by
        rw [Ladder.elems, totalQty, map_flatMap, List.flatMap, sum_flatten, List.map_map]
        rfl
    _ ≤ totalQty (n.orders.filter fun o => o.side = s.opposite) :=
        (helems.map _).sum_le_sum fun _ _ => Nat.zero_le _
    _ = b.restingOn s.opposite := hlots

end OrderBook

namespace NaiveEngine

theorem fok_of_applyBudget {n : NaiveEngine} {order order' : Order} {budget : ℕ}
    (h : n.applyBudget order = some (order', budget)) (htif : order'.tif = .fok) :
    order.tif = .fok ∨ order.tif = .fokBudget := by
  rw [applyBudget] at h
  split at h
  · cases h
    cases htif
  · exact .inr ‹_›
  · cases h
    rename_i hioc _
    rw [hioc] at htif
    cases htif
  · exact .inr ‹_›
  · cases h
    exact .inl htif

/-- **What a submission needs**: the whole order fits in its level if it can rest, and the
other side of the book is a 64-bit number if it is fill-or-kill. -/
theorem admits_of (n : NaiveEngine) (hr : n.book.Realized) (order : Order)
    (hrest : order.tif = .gtc → order.orderType = .limit → order.id ∉ n.book.ids ∧
      totalQty (n.book.queue order.side order.price) + order.quantity < 2 ^ 64)
    (hfok : order.tif = .fok ∨ order.tif = .fokBudget →
      ∀ limit, n.book.crossableQty order.side limit < 2 ^ 64) : n.Admits order := by
  constructor
  · rintro ⟨order', budget⟩ hb htif
    have hb : n.stamped.applyBudget (n.stampOrder order) = some (order', budget) := hb
    obtain ⟨-, hside, -⟩ := applyBudget_keeps hb
    have hside : order'.side = order.side := hside
    rw [hside]
    have horig : (n.stampOrder order).tif = .fok ∨ (n.stampOrder order).tif = .fokBudget :=
      fok_of_applyBudget hb htif
    exact hfok horig _
  · rintro ⟨order', budget⟩ hb - c stopped hx ⟨hstop, hrem, htype, htif⟩
    obtain ⟨hsame, hle, -⟩ := n.stamped.cross_order order' budget
    have hc := n.stamped.cross_conserving hr rfl order' budget
    have hids := n.stamped.ids_cross_subset order' budget
    rw [hx] at hsame hc hids hle
    dsimp only at hsame hc hids hle
    have htif' : order'.tif = .gtc := by rw [← htif, hsame]
    obtain rfl : order' = n.stampOrder order := applyBudget_gtc hb htif'
    have htype' : order.orderType = .limit := by
      rw [← htype, hsame]
      rfl
    obtain ⟨hfresh, hfits⟩ := hrest htif' htype'
    obtain ⟨hid, hside, hprice⟩ : c.order.id = order.id ∧ c.order.side = order.side ∧
        c.order.price = order.price := by
      rw [hsame]
      exact ⟨rfl, rfl, rfl⟩
    rw [hid, hside, hprice, NaiveBook.find?_eq_none, hc.queues]
    refine ⟨fun hmem => hfresh (hids hmem), (Nat.add_le_add ?_ hle).trans_lt hfits⟩
    refine totalQty_filterMap_le (fun o o' ho' => ?_) _
    rw [(id_of_aftermath ho').2.1]
    exact Nat.sub_le _ _

end NaiveEngine

namespace MatchingEngine

variable {e : MatchingEngine} {n : NaiveEngine}

/-- The engine can take this order: an order that may rest has a new id and fits in its level,
and a fill-or-kill order finds a 64-bit number of lots on the other side. -/
def Takes (e : MatchingEngine) (order : Order) : Prop :=
  (order.tif = .gtc → order.orderType = .limit → e.book.get order.id = none ∧
    e.book.restingAt order.side order.price + order.quantity < 2 ^ 64) ∧
  (order.tif = .fok ∨ order.tif = .fokBudget → e.book.restingOn order.side.opposite < 2 ^ 64)

theorem Sound.exists_submit (h : e.Sound) (hroom : e.book.HasRoom) {order : Order}
    (horder : order.InRange) (htakes : e.Takes order) :
    ∃ e' report, e.submit order = some (e', report) := by
  obtain ⟨n, hn⟩ := h
  have hadm : n.Admits order := by
    refine n.admits_of ⟨e.book, hn.book⟩ order (fun htif htype => ?_) fun htif limit => ?_
    · obtain ⟨hid, hfits⟩ := htakes.1 htif htype
      rw [OrderBook.restingAt, hn.book.queue] at hfits
      exact ⟨hn.get_eq_none.mp hid, hfits⟩
    · exact (hn.book.crossableQty_le order.side limit).trans_lt (htakes.2 htif)
  obtain ⟨e', hsubmit, -⟩ := hn.submit (fun _ => hroom) horder.price horder.quantity hadm
  exact ⟨e', _, hsubmit⟩

/-- An amendment that re-enters its order needs room for it beside the other orders of the
level. -/
theorem Sound.exists_modify (h : e.Sound) (hroom : e.book.HasRoom) {id newPrice newQty : ℕ}
    (hprice : newPrice < 2 ^ 64) (hqty : newQty < 2 ^ 64)
    (hfits : ∀ o, e.Requotes id newPrice newQty o →
      totalQty ((e.book.queue o.side newPrice).filter fun o' => o'.id ≠ id) + newQty < 2 ^ 64) :
    ∃ e' outcome, e.modify id newPrice newQty = some (e', outcome) := by
  obtain ⟨n, hn⟩ := h
  have hadm : n.CallAdmits (.modify id newPrice newQty) := by
    intro o ho hchange
    have hget : e.book.get id = some o := by rw [hn.book.get_eq]; exact ho
    have hid : o.id = id := (hn.mem_queue_of_get hget).1
    have hr : (n.cancel id).1.book.Realized := by
      obtain ⟨b', -, hb', -⟩ := hn.book.cancel id
      exact ⟨b', hb'⟩
    refine NaiveEngine.admits_of _ hr _ (fun _ _ => ⟨?_, ?_⟩) fun htif => ?_
    · have hrid : (NaiveEngine.requote o newPrice newQty).id = id := hid
      rw [hrid]
      exact n.notMem_ids_cancel id
    · have hothers : ((n.cancel id).1.book.queue o.side newPrice) =
          (e.book.queue o.side newPrice).filter fun o' => o'.id ≠ id := by
        rw [NaiveEngine.cancel, NaiveBook.queue_rewrite, hn.book.queue, ← filterMap_eq_filter]
        refine filterMap_congr fun o' _ => ?_
        by_cases ho' : o'.id = id <;> simp [without, Option.guard, ho']
      have hlt := hfits o ⟨hget, hchange⟩
      rw [← hothers] at hlt
      exact hlt
    · rcases htif with htif | htif <;> cases htif
  obtain ⟨e', hmodify, -⟩ := hn.modify hroom hprice hqty hadm
  exact ⟨e', _, hmodify⟩

theorem Sound.exists_cancel (h : e.Sound) (id : ℕ) :
    ∃ e' removed, e.cancel id = some (e', removed) := by
  obtain ⟨n, hn⟩ := h
  obtain ⟨e', hcancel, -⟩ := hn.cancel id
  exact ⟨e', _, hcancel⟩

theorem Sound.exists_cancelAllForUser (h : e.Sound) (ω : HashOrder) (user : ℕ) :
    ∃ e' ids, e.cancelAllForUser ω user = some (e', ids) := by
  obtain ⟨n, hn⟩ := h
  obtain ⟨e', ids, hpull, -⟩ := hn.cancelAllForUser ω user
  exact ⟨e', ids, hpull⟩

end MatchingEngine

/-! ### The ids of a book -/

/-- What rests after an insertion rested before, or is the inserted order. -/
theorem OrderBook.rests_insert {b b' : OrderBook} {order o : Order} (h : b.insert order = some b')
    (ho : b'.Rests o) : o.id = order.id ∨ b.Rests o := by
  obtain ⟨i, hi, hloc, hget, hlive⟩ := ho
  refine or_iff_not_imp_left.mpr fun hne => ⟨i, hi, ?_, ?_, hlive⟩
  · obtain ⟨slot, pool, x, counts, -, -, -, -, -, rfl⟩ := insert_eq_some h
    have hloc : (b.locate.insert order.id slot)[o.id]? = some i := hloc
    rwa [ExtTreeMap.getElem?_insert, if_neg (by simpa using Ne.symm hne)] at hloc
  · rcases (fills_insert h).record i o hget with rfl | hget
    · exact absurd rfl hne
    · exact hget

/-- The book of an engine in good order finds an order under its id. -/
theorem MatchingEngine.Sound.rests_of_get {e : MatchingEngine} (h : e.Sound) {id : ℕ} {o : Order}
    (hget : e.book.get id = some o) : o.id = id ∧ e.book.Rests o := by
  obtain ⟨n, hn⟩ := h
  obtain ⟨slot, hloc, hslot⟩ := bind_eq_some_iff.mp hget
  obtain ⟨o', ho', hlive, rfl⟩ := (hn.book.inv.located id slot).mp hloc
  obtain rfl : o = o' := some.inj (hslot.symm.trans ho')
  exact ⟨rfl, slot, (OrderPool.get_eq_some_lt hslot).trans hn.book.inv.bounded, hloc, hslot, hlive⟩

namespace Processor

variable {cmd : Command} {p : Processor}

/-- Every resting order has been a command of the processor. -/
def Known (p : Processor) : Prop :=
  ∀ instrument o, (p.engineFor instrument).book.Rests o → o.id ∈ p.seenCommandIds

theorem known_fresh (config : ProcessorConfig) : (fresh config).Known := by
  rintro instrument o ⟨i, -, hloc, -⟩
  simp only [engineFor, fresh, ExtTreeMap.getElem?_empty, getD_none] at hloc
  have hnone : (∅ : ExtTreeMap ℕ ℕ)[o.id]? = some i := hloc
  simp at hnone

theorem Known.dedupe (h : p.Known) (cmd : Command) : (p.dedupe cmd).1.Known := by
  intro instrument o ho
  rw [engineFor_dedupe] at ho
  exact (p.mem_seen_dedupe cmd o.id).mpr (.inl (h instrument o ho))

/-- **A command adds its own id at most.** -/
theorem Known.apply {p' : Processor} (h : p.Known) (hp : p.Charted) (hsound : p.Sound)
    {ω : HashOrder} {reports : List ExecReport} (hs : cmd.Single)
    (hseen : cmd.id ∈ p.seenCommandIds) (happly : p.apply ω cmd = some (p', reports)) :
    p'.Known := by
  intro instrument o ho
  rw [seen_apply happly]
  obtain ⟨b, hw, hbook⟩ := apply_slab hp hs happly instrument
  have hbefore : b.Rests o → o.id ∈ p.seenCommandIds := by
    intro hrests
    obtain ⟨o₀, ho₀, hsame⟩ := hw.exists_rests (hp instrument) hrests
    rw [hsame]
    exact h instrument o₀ ho₀
  rcases hbook with heq | ⟨e, taken, rest, seq, rfl, htaker, -, hrest, hins⟩
  · rw [heq] at ho
    exact hbefore ho
  · rcases OrderBook.rests_insert hins ho with hid | hrests
    · rw [hid, hrest.same]
      cases htaker with
      | new hok => exact (vettedTo_of_screen hok).id ▸ hseen
      | close hpull hok => exact (vettedTo_of_screen hok).id ▸ hseen
      | @requote i id newPrice newQty cmdId target b' hreq hcancel =>
        exact h i target ((hsound i).rests_of_get hreq.1).2
    · exact hbefore hrests

/-- The book of the command's instrument has room for a record, for the lots of a new or amended
order that may rest, and, before a fill-or-kill order, a 64-bit number of lots to reach. -/
def Withstands (p : Processor) (cmd : Command) : Prop :=
  p.HasRoom cmd ∧
  match cmd with
  | .new order =>
    (order.tif = .gtc → order.orderType = .limit →
      (p.engineFor order.instrument).book.restingAt order.side order.price + order.quantity <
        2 ^ 64) ∧
    (order.tif = .fok ∨ order.tif = .fokBudget →
      (p.engineFor order.instrument).book.restingOn order.side.opposite < 2 ^ 64)
  | .modify instrument orderId newPrice newQty _ =>
    ∀ o, (p.engineFor instrument).Requotes orderId newPrice newQty o →
      totalQty (((p.engineFor instrument).book.queue o.side newPrice).filter fun o' =>
        o'.id ≠ orderId) + newQty < 2 ^ 64
  | _ => True

/-- An order that the engine can take is accepted. -/
theorem exists_processNew_of_takes (order : Order) (hsound : (p.engineFor order.instrument).Sound)
    (horder : order.InRange) (hroom : (p.engineFor order.instrument).book.HasRoom)
    (htakes : (p.engineFor order.instrument).Takes order) :
    ∃ p' reports, p.processNew order = some (p', reports) := by
  rw [processNew]
  have hengine := p.engineFor_screen order order.instrument
  rcases hscreen : p.screen order with ⟨p₁, reason | taken⟩
  · exact ⟨_, _, rfl⟩
  · have hok : (p.screen order).2 = .ok taken := by rw [hscreen]
    have hv := vettedTo_of_screen hok
    rw [hscreen] at hengine
    have htif : taken.tif = order.tif ∨ taken.tif = .ioc := by
      obtain ⟨-, -, -, ⟨rfl, -⟩ | ⟨g, -, rfl⟩⟩ := screen_eq_ok hok
      · exact .inl rfl
      · simp only [PriceGuard.protect]
        split
        · exact .inr rfl
        · exact .inl rfl
    have htakes' : (p.engineFor order.instrument).Takes taken := by
      refine ⟨fun hgtc htype => ?_, fun hfok => ?_⟩
      · obtain rfl := hv.same hgtc
        exact htakes.1 hgtc htype
      · rw [hv.side]
        refine htakes.2 ?_
        rcases htif with htif | htif
        · rwa [htif] at hfok
        · rw [htif] at hfok
          rcases hfok with hfok | hfok <;> cases hfok
    obtain ⟨e', report, hsubmit⟩ := hsound.exists_submit hroom (hv.inRange horder) htakes'
    rw [← hengine, ← hv.instrument] at hsubmit
    dsimp only
    rw [accept, onEngine, hsubmit]
    exact ⟨_, _, rfl⟩

/-- **An applied command does not abort**, if its lots fit and its id is new. -/
theorem Sound.exists_apply (hp : p.Sound) (ω : HashOrder) (hs : cmd.Single) (hr : cmd.InRange)
    (hwith : p.Withstands cmd)
    (hfresh : ∀ order, cmd = .new order → (p.engineFor order.instrument).book.get order.id = none) :
    ∃ p' reports, p.apply ω cmd = some (p', reports) := by
  obtain ⟨hroom, hfits⟩ := hwith
  cases cmd with
  | new order =>
    exact exists_processNew_of_takes order (hp _) hr hroom
      ⟨fun hgtc htype => ⟨hfresh order rfl, hfits.1 hgtc htype⟩, hfits.2⟩
  | cancel instrument orderId cmdId =>
    obtain ⟨e, removed, hcancel⟩ := (hp instrument).exists_cancel orderId
    rw [Processor.apply, onEngine, hcancel]
    exact ⟨_, _, rfl⟩
  | modify instrument orderId newPrice newQty cmdId =>
    obtain ⟨e, outcome, hmodify⟩ :=
      (hp instrument).exists_modify hroom hr.2.2.1 hr.2.2.2.1 hfits
    rw [Processor.apply, onEngine, hmodify]
    exact ⟨_, _, rfl⟩
  | forceClose instrument user closeOrderId closeSide closeQty =>
    obtain ⟨e, ids, hpull⟩ := (hp instrument).exists_cancelAllForUser ω user
    obtain ⟨hsound, hroom', -⟩ := (hp instrument).cancelAllForUser hpull
    have hself := p.engineFor_setEngine_self instrument e
    rw [← hself] at hsound hroom'
    -- the closing order is immediate-or-cancel, so it neither rests nor looks ahead
    have htakes : ((p.setEngine instrument e).engineFor instrument).Takes
        (closeOrder instrument user closeOrderId closeSide closeQty) := by
      refine ⟨fun hgtc => (by cases hgtc), fun hfok => ?_⟩
      rcases hfok with hfok | hfok <;> cases hfok
    obtain ⟨p', reports, hnew⟩ := exists_processNew_of_takes
      (closeOrder instrument user closeOrderId closeSide closeQty) hsound
      (inRange_closeOrder hr) (hroom' hroom) htakes
    rw [Processor.apply, onEngine, hpull]
    dsimp only [bind, Option.bind, pure]
    split
    · exact ⟨_, _, rfl⟩
    · rw [hnew]
      exact ⟨_, _, rfl⟩
  | halt | resume | haltUser | resumeUser => exact ⟨_, _, rfl⟩
  | batch cmds => exact hs.elim

/-! ### Whole executions -/

mutual

/-- The command, or every command of the batch as it is reached, stays within the limits. -/
def Sustains (p : Processor) (ω : Oracle) : Command → Prop
  | .batch cmds =>
    (p.dedupe (.batch cmds)).2 = none → (p.dedupe (.batch cmds)).1.SustainsAll ω 0 cmds
  | cmd => (p.dedupe cmd).2 = none → (p.dedupe cmd).1.Withstands cmd

/-- Every command of a sequence, as it is reached, stays within the limits. -/
def SustainsAll (p : Processor) (ω : Oracle) (i : ℕ) : List Command → Prop
  | [] => True
  | cmd :: cmds =>
    p.Sustains (ω.at i) cmd ∧
      ∀ p' reports, p.process (ω.at i) cmd = some (p', reports) → p'.SustainsAll ω (i + 1) cmds

end

theorem sustains_of_single (p : Processor) (ω : Oracle) (cmd : Command) (h : cmd.Single) :
    p.Sustains ω cmd ↔ ((p.dedupe cmd).2 = none → (p.dedupe cmd).1.Withstands cmd) := by
  cases cmd with
  | batch cmds => exact h.elim
  | _ => rw [Sustains]; simp

/-- What an execution keeps: engines in good order that hold known orders. -/
structure Steady (p : Processor) : Prop where
  orderly : p.Orderly
  known : p.Known

theorem steady_fresh (config : ProcessorConfig) : (fresh config).Steady :=
  ⟨orderly_fresh config, known_fresh config⟩

theorem Steady.dedupe (h : p.Steady) (cmd : Command) : (p.dedupe cmd).1.Steady :=
  ⟨h.orderly.dedupe cmd, h.known.dedupe cmd⟩

/-- A single command is processed. -/
theorem Steady.exists_process_single (h : p.Steady) {ω : Oracle} (hs : cmd.Single)
    (hleaves : ∀ c ∈ cmd.leaves, c.InRange ∧ c.id ≠ 0) (hsus : p.Sustains ω cmd) :
    ∃ p' reports, p.process ω cmd = some (p', reports) ∧ p'.Steady := by
  rw [Command.leaves_of_single hs] at hleaves
  obtain ⟨hr, hid⟩ := hleaves cmd mem_cons_self
  rw [process_of_single p ω hs, gated]
  have hsus := (sustains_of_single p ω cmd hs).mp hsus
  have h₁ := h.dedupe cmd
  have hseen : cmd.id ∈ (p.dedupe cmd).1.seenCommandIds :=
    (p.mem_seen_dedupe cmd cmd.id).mpr (.inr ⟨hid, rfl⟩)
  have hengine := p.engineFor_dedupe cmd
  rcases hdedupe : p.dedupe cmd with ⟨p₁, report | report⟩
  · rw [hdedupe] at hsus h₁ hseen hengine
    -- a command that passes the filters has a new id, and resting orders have known ones
    have hnew : cmd.id ∉ p.seenCommandIds := by
      intro hmem
      rw [Processor.dedupe, if_neg hid, if_pos hmem] at hdedupe
      cases (Prod.mk.inj hdedupe).2
    have hfresh : ∀ order, cmd = .new order →
        (p₁.engineFor order.instrument).book.get order.id = none := by
      rintro order rfl
      rw [hengine, eq_none_iff_forall_ne_some]
      intro o ho
      obtain ⟨hoid, hrests⟩ := (h.orderly.sound order.instrument).rests_of_get ho
      have hknown := h.known order.instrument o hrests
      rw [hoid] at hknown
      exact hnew hknown
    obtain ⟨p', reports, happly⟩ :=
      h₁.orderly.sound.exists_apply (ω []) hs hr (hsus rfl) hfresh
    exact ⟨p', reports, happly, h₁.orderly.apply hs hr (hsus rfl).1 happly,
      h₁.known.apply h₁.orderly.charted h₁.orderly.sound hs hseen happly⟩
  · rw [hdedupe] at h₁
    exact ⟨p₁, [report], rfl, h₁⟩

/-- A sequence of commands, be they batches, is processed. -/
theorem Steady.exists_processAll {ω : Oracle} {i : ℕ} (h : p.Steady) (cmds : List Command)
    (hleaves : ∀ c ∈ Command.allLeaves cmds, c.InRange ∧ c.id ≠ 0) (hsus : p.SustainsAll ω i cmds) :
    ∃ p' reports, p.processAll ω i cmds = some (p', reports) ∧ p'.Steady := by
  refine (Command.induct
    (P := fun cmd => ∀ (p : Processor) ω, p.Steady → (∀ c ∈ cmd.leaves, c.InRange ∧ c.id ≠ 0) →
      p.Sustains ω cmd → ∃ p' reports, p.process ω cmd = some (p', reports) ∧ p'.Steady)
    (Q := fun cmds => ∀ (p : Processor) ω i, p.Steady →
      (∀ c ∈ Command.allLeaves cmds, c.InRange ∧ c.id ≠ 0) → p.SustainsAll ω i cmds →
      ∃ p' reports, p.processAll ω i cmds = some (p', reports) ∧ p'.Steady)
    (fun cmd hs p ω h hleaves hsus => h.exists_process_single hs hleaves hsus) ?_
    (fun p ω i h _ _ => ⟨p, [], by rw [processAll], h⟩) ?_).2 cmds p ω i h hleaves hsus
  · intro cmds ih p ω h hleaves hsus
    rw [Command.leaves] at hleaves
    rw [Sustains] at hsus
    rw [process, gated]
    have h₁ := h.dedupe (.batch cmds)
    rcases hdedupe : p.dedupe (.batch cmds) with ⟨p₁, report | report⟩
    · rw [hdedupe] at hsus h₁
      exact ih _ _ _ h₁ hleaves (hsus rfl)
    · rw [hdedupe] at h₁
      exact ⟨p₁, [report], rfl, h₁⟩
  · intro cmd cmds ih ihs p ω i h hleaves hsus
    rw [Command.allLeaves] at hleaves
    rw [SustainsAll] at hsus
    obtain ⟨p₁, reports, hprocess, h₁⟩ := ih p (ω.at i) h
      (fun c hc => hleaves c (mem_append_left _ hc)) hsus.1
    obtain ⟨p', later, hall, h'⟩ := ihs p₁ ω (i + 1) h₁
      (fun c hc => hleaves c (mem_append_right _ hc)) (hsus.2 p₁ reports hprocess)
    exact ⟨p', reports ++ later, by rw [processAll_cons, hprocess, bind_some, hall]; rfl, h'⟩

/-- **No command stops the process** in an execution that stays within the limits: the lots of
a price and the lots that a fill-or-kill order can reach are 64-bit numbers, and the books have
room. -/
theorem process_sustained (config : ProcessorConfig) (ω : Oracle) (cmds : List Command)
    (hleaves : ∀ c ∈ Command.allLeaves cmds, c.InRange ∧ c.id ≠ 0)
    (hsus : (fresh config).SustainsAll ω 0 cmds) :
    ∃ p reports, (fresh config).processAll ω 0 cmds = some (p, reports) := by
  obtain ⟨p, reports, hall, -⟩ := (steady_fresh config).exists_processAll cmds hleaves hsus
  exact ⟨p, reports, hall⟩

instance decidableWithstandsNew (p : Processor) (order : Order) :
    Decidable (p.Withstands (.new order)) :=
  inferInstanceAs (Decidable ((_ ∨ _) ∧ (_ → _ → _) ∧ (_ ∨ _ → _)))

/-- An offer. -/
def wholeOffer : Command := .new (Order.limit 1 .sell 100 (2 ^ 64 - 1))

/-- A fill-or-kill order that takes it. -/
def wholeBid : Command := .new ((Order.limit 2 .buy 100 (2 ^ 64 - 1)).withTif .fok)

theorem process_sustained_wholeOffer :
    (fresh defaultConfig).SustainsAll (fun _ => 1) 0 [wholeOffer, wholeBid] ∧
    ∃ p reports, (fresh defaultConfig).processAll (fun _ => 1) 0 [wholeOffer, wholeBid] =
      some (p, reports) := by
  have hoffer : ((fresh defaultConfig).dedupe wholeOffer).1.Withstands wholeOffer := by
    unfold wholeOffer
    decide +kernel
  have hbid : ∀ r ∈ (fresh defaultConfig).process (Oracle.at (fun _ => 1) 0) wholeOffer,
      (r.1.dedupe wholeBid).1.Withstands wholeBid := by
    unfold wholeBid
    decide +kernel
  have hsus : (fresh defaultConfig).SustainsAll (fun _ => 1) 0 [wholeOffer, wholeBid] := by
    rw [SustainsAll]
    refine ⟨(sustains_of_single _ _ wholeOffer trivial).mpr fun _ => hoffer, ?_⟩
    intro p reports hprocess
    rw [SustainsAll]
    refine ⟨(sustains_of_single _ _ wholeBid trivial).mpr fun _ => ?_, ?_⟩
    · exact hbid (p, reports) hprocess
    · intro p reports _
      rw [SustainsAll]
      trivial
  refine ⟨hsus, process_sustained defaultConfig (fun _ => 1) _ (fun c hc => ?_) hsus⟩
  simp only [wholeOffer, wholeBid, Command.allLeaves, Command.leaves, singleton_append,
    mem_cons, not_mem_nil, or_false] at hc
  rcases hc with rfl | rfl <;> exact ⟨by unfold Command.InRange; decide, by decide⟩

/-- **A client stops the process** with a second order at the price of a large one, and with a
fill-or-kill order for one lot before two asks whose sum is no 64-bit number. -/
theorem client_stops_node :
    (fresh defaultConfig).processAll (fun _ => 1) 0
      [.new (Order.limit 1 .sell 100 (2 ^ 64 - 1)), .new (Order.limit 2 .sell 100 1)] = none ∧
    (fresh defaultConfig).processAll (fun _ => 1) 0
      [.new (Order.limit 1 .sell 100 (2 ^ 64 - 1)), .new (Order.limit 2 .sell 101 1),
        .new ((Order.limit 3 .buy 101 1).withTif .fok)] = none :=
  ⟨isNone_iff_eq_none.mp (by decide +kernel), isNone_iff_eq_none.mp (by decide +kernel)⟩

end Processor

end TradeCore
