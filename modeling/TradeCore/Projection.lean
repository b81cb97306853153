import TradeCore.Slab
import TradeCore.ProcessorSpec
import TradeCore.Lib.Inbox

/-!
# The Order Projection

`order_api.rs` keeps a row for every order in MySQL. Two streams write it: commands, from the
order topic (`persist_mysql_shard`), and execution events, from the reports of the Raft groups
(`persist_execution_shard`). Both are delivered at least once and in batches, and an event may
come before the row of its order. So events go through an inbox: they wait in
`pending_execution_events` until their row exists, and are then folded into the row and recorded
in `processed_execution_events` (`apply_pending_execution_table`).

A database is one shard. Its tables are told apart by `route`, the table of an order id. The
columns that the statements here neither read nor compare are left out.

## Main results

* `OrderRow.after_append` — folding a stream in two parts is folding it at once, if no partial
  fill claims more than the trades before it.
* `Processor.backed_of_processAll` — the reports of a processor are such a stream.
* `ShardDb.projection_batching` — however the stream of an order is cut and redelivered, and
  whenever its row is created, the row ends as if the stream had come once in one batch.
-/

open List Option

namespace TradeCore

/-! ### Reports as events -/

/-- The type codes of report frames. -/
inductive ReportType
  | accepted
  | trade
  | filled
  | partiallyFilled
  | resting
  | cancelled
  | rejected
  | modified
  | notFound
  | depthLevel
  | depthEnd
  | halted
  | resumed
  | userHalted
  | userResumed
deriving DecidableEq, Repr

namespace ExecReport

/-- The type code of the frame of a report. -/
def typeCode : ExecReport → ReportType
  | .accepted .. => .accepted
  | .trade .. => .trade
  | .filled .. => .filled
  | .partiallyFilled .. => .partiallyFilled
  | .resting .. => .resting
  | .cancelled .. => .cancelled
  | .rejected .. => .rejected
  | .modified .. => .modified
  | .notFound .. => .notFound
  | .depthLevel .. => .depthLevel
  | .depthEnd .. => .depthEnd
  | .halted .. => .halted
  | .resumed .. => .resumed
  | .userHalted .. => .userHalted
  | .userResumed .. => .userResumed

/-- The order id of the frame of a report; zero where the report is not about an order. -/
def orderId : ExecReport → ℕ
  | .accepted _ id | .filled _ id | .partiallyFilled _ id _ | .resting _ id | .cancelled _ id
  | .rejected _ id _ | .modified _ id _ | .notFound _ id => id
  | .trade _ taker _ _ _ _ _ _ => taker
  | .depthLevel .. | .depthEnd .. | .halted _ | .resumed _ | .userHalted .. | .userResumed .. => 0

/-- The quantity of the frame of a report: trade size, filled or remaining lots. -/
def qty : ExecReport → ℕ
  | .trade _ _ _ _ _ lots _ _ => lots
  | .partiallyFilled _ _ lots => lots
  | .modified _ _ remaining => remaining
  | .depthLevel _ _ _ _ lots => lots
  | _ => 0

/-- One target for ordinary reports, two targets for a trade. -/
def targetOrderIds : ExecReport → List ℕ
  | .trade _ taker maker _ _ _ _ _ => if maker ≠ taker then [taker, maker] else [taker]
  | r => [r.orderId]

end ExecReport

/-- An execution event as the projection stores it. -/
structure ExecutionEvent where
  raftGroup : ℕ
  raftIndex : ℕ
  ordinal : ℕ
  targetOrderId : ℕ
  reportType : ReportType
  qty : ℕ
deriving DecidableEq, Repr

namespace ExecutionEvent

/-- The unique key of the event tables. -/
def key (e : ExecutionEvent) : ℕ × ℕ × ℕ × ℕ :=
  (e.raftGroup, e.raftIndex, e.ordinal, e.targetOrderId)

/-- The order of the events of one group. -/
def Before (e e' : ExecutionEvent) : Prop :=
  e.raftIndex < e'.raftIndex ∨ e.raftIndex = e'.raftIndex ∧ e.ordinal < e'.ordinal

instance : DecidableRel Before := fun e e' => by
  unfold Before
  infer_instance

end ExecutionEvent

/-- The events of the reports of a committed entry, the first with the ordinal `k`. Ordinals do
not go beyond their 32-bit type. -/
def executionEvents (group index : ℕ) (k : ℕ) (reports : List ExecReport) : List ExecutionEvent :=
  (reports.zipIdx k).flatMap fun r => r.1.targetOrderIds.map fun id =>
    ⟨group, index, min r.2 (2 ^ 32 - 1), id, r.1.typeCode, r.1.qty⟩

/-- The events of a group for one order: its entries are indices with reports. -/
def streamOf (group id : ℕ) (entries : List (ℕ × List ExecReport)) : List ExecutionEvent :=
  (entries.flatMap fun e => executionEvents group e.1 0 e.2).filter fun e => e.targetOrderId = id

/-! ### Rows -/

/-- The states of an order row. -/
inductive RowStatus
  | pending
  | opened
  | partlyFilled
  | filled
  | cancelled
  | rejected
  | cancelPending
  | modifyPending
deriving DecidableEq, Repr

/-- A row of `asset_orders`. -/
structure OrderRow where
  userId : ℕ
  qty : ℕ
  filledQty : ℕ
  status : RowStatus
deriving DecidableEq, Repr

/-- What the events of an order are folded into before they meet its row. -/
structure EventTotals where
  tradeQty : ℕ
  partialQty : ℕ
  hasFilled : Bool
  latestType : Option ReportType
deriving DecidableEq, Repr

/-- The quantity that an event trades. -/
def ExecutionEvent.traded (e : ExecutionEvent) : ℕ := if e.reportType = .trade then e.qty else 0

/-- The quantity that an event calls filled. -/
def ExecutionEvent.claimed (e : ExecutionEvent) : ℕ :=
  if e.reportType = .partiallyFilled then e.qty else 0

/-- The inner query of `apply_pending_execution_table` for the events of one order. -/
def eventTotals (events : List ExecutionEvent) : EventTotals where
  tradeQty := (events.map ExecutionEvent.traded).sum
  partialQty := (events.map ExecutionEvent.claimed).foldr max 0
  hasFilled := events.any fun e => e.reportType = .filled
  latestType := (events.find? fun e => events.all fun e' => ¬ e.Before e').map (·.reportType)

namespace OrderRow

/-- The `SET` of `apply_pending_execution_table`; every column is computed from the old row. -/
def update (row : OrderRow) (e : EventTotals) : OrderRow :=
  let reached := max (row.filledQty + e.tradeQty) e.partialQty
  { row with
    status :=
      if e.hasFilled ∨ row.qty ≤ reached then .filled
      else if e.latestType = some .cancelled then .cancelled
      else if e.latestType = some .rejected then .rejected
      else if 0 < reached then .partlyFilled
      else .opened
    filledQty := min row.qty (max reached (if e.hasFilled then row.qty else 0)) }

/-- A row with the events of its order folded in; it joins no totals if there are none. -/
def after (row : OrderRow) (events : List ExecutionEvent) : OrderRow :=
  if events = [] then row else row.update (eventTotals events)

end OrderRow

/-! ### Transactions -/

/-- A command of the order topic with the user of its record. -/
structure CommandRecord where
  user : ℕ
  command : Command

namespace CommandRecord

/-- The row that a command creates. -/
def creates (r : CommandRecord) : Option (ℕ × OrderRow) :=
  match r.command with
  | .new order => some (order.id, ⟨r.user, order.quantity, 0, .pending⟩)
  | .forceClose _ user closeOrderId _ closeQty =>
    if 0 < closeQty then some (closeOrderId, ⟨user, closeQty, 0, .pending⟩) else none
  | _ => none

/-- The order that a command cancels. -/
def cancels (r : CommandRecord) : Option ℕ :=
  match r.command with
  | .cancel _ orderId _ => some orderId
  | _ => none

/-- The order that a command amends, with its new quantity. -/
def modifies (r : CommandRecord) : Option (ℕ × ℕ) :=
  match r.command with
  | .modify _ orderId _ newQty _ => some (orderId, newQty)
  | _ => none

end CommandRecord

/-- A database of the projection. -/
structure ShardDb where
  orders : ℕ → Option OrderRow
  events : Inbox ExecutionEvent (ℕ × ℕ × ℕ × ℕ)
  /-- Every event that was folded into a row, each time it was. Not stored. -/
  counted : List ExecutionEvent

namespace ShardDb

/-- The database without rows. -/
def empty : ShardDb := ⟨fun _ => none, ⟨[], []⟩, []⟩

/-- The events that wait for an order. -/
def waiting (db : ShardDb) (id : ℕ) : List ExecutionEvent :=
  db.events.pending.filter fun e => e.targetOrderId = id

section

variable (route : ℕ → ℕ)

variable (db : ShardDb)

/-- Fold the events that wait for rows of a table into them. -/
def applyPendingExecutionTable (table : ℕ) : ShardDb where
  orders := fun id => (db.orders id).map fun row =>
    if route id = table then row.after (db.waiting id) else row
  events := db.events.settle ExecutionEvent.key (fun e => route e.targetOrderId = table)
    fun e => (db.orders e.targetOrderId).isSome
  counted := db.counted ++ db.events.pending.filter fun e =>
    route e.targetOrderId = table && (db.orders e.targetOrderId).isSome

/-- The tables of the given orders, each once, in ascending order. -/
def tablesOf (ids : List ℕ) : List ℕ := (ids.map route).dedup.mergeSort

/-- Insert a row unless there is one. -/
def insertOrder (row : ℕ × OrderRow) : ShardDb :=
  { db with
    orders := fun id => if id = row.1 then (db.orders id).or (some row.2) else db.orders id }

/-- Change the row of an order if it belongs to the user. -/
def updateOwn (orderId user : ℕ) (f : OrderRow → OrderRow) : ShardDb :=
  { db with orders := fun id => (db.orders id).map fun row =>
      if id = orderId ∧ row.userId = user then f row else row }

/-- Mark a cancelled order. -/
def cancelOrder (r : CommandRecord) : ShardDb :=
  match r.cancels with
  | none => db
  | some id => db.updateOwn id r.user fun row => { row with status := .cancelPending }

/-- Write an amended order. -/
def modifyOrder (r : CommandRecord) : ShardDb :=
  match r.modifies with
  | none => db
  | some (id, newQty) =>
    db.updateOwn id r.user fun row => { row with qty := newQty, status := .modifyPending }

/-- Project a batch of commands: the new rows first, then the cancellations, then the
amendments, then the events that waited for the new rows. -/
def persistMysqlShard (records : List CommandRecord) : ShardDb :=
  let rows := records.filterMap CommandRecord.creates
  let db := rows.foldl insertOrder db
  let db := records.foldl cancelOrder db
  let db := records.foldl modifyOrder db
  (tablesOf route (rows.map Prod.fst)).foldl (applyPendingExecutionTable route) db

/-- Project one transaction of execution events. -/
def persistExecutionShard (events : List ExecutionEvent) : ShardDb :=
  let db := { db with events := db.events.receive ExecutionEvent.key events }
  (tablesOf route (events.map (·.targetOrderId))).foldl (applyPendingExecutionTable route) db

/-- The transactions of the projection; the sweeper picks tables that events wait for. -/
inductive Transaction
  | commands (records : List CommandRecord)
  | executions (events : List ExecutionEvent)
  | sweep (tables : List ℕ)

/-- One transaction. -/
def commit : Transaction → ShardDb
  | .commands records => db.persistMysqlShard route records
  | .executions events => db.persistExecutionShard route events
  | .sweep tables => tables.foldl (applyPendingExecutionTable route) db

/-- Transactions one after the other. -/
def run (txs : List Transaction) : ShardDb := txs.foldl (commit route) db

end

end ShardDb

/-! ### Folding a stream in parts -/

variable {reports : List ExecReport} {events : List ExecutionEvent} {acc id : ℕ}

namespace ExecutionEvent

theorem before_asymm {e e' : ExecutionEvent} (h : e.Before e') : ¬ e'.Before e := by
  unfold Before at *
  omega

theorem before_irrefl (e : ExecutionEvent) : ¬ e.Before e := fun h => before_asymm h h

end ExecutionEvent

/-- No partial fill of the stream claims more than `acc` and what the events before it traded. -/
def Backed : ℕ → List ExecutionEvent → Prop
  | _, [] => True
  | acc, e :: events => e.claimed ≤ acc ∧ Backed (acc + e.traded) events

theorem Backed.mono {acc' : ℕ} (h : Backed acc events) (hle : acc ≤ acc') : Backed acc' events := by
  induction events generalizing acc acc' with
  | nil => trivial
  | cons e events ih => exact ⟨h.1.trans hle, ih h.2 (Nat.add_le_add_right hle _)⟩

theorem backed_append {a b : List ExecutionEvent} :
    Backed acc (a ++ b) ↔ Backed acc a ∧ Backed (acc + (a.map ExecutionEvent.traded).sum) b := by
  induction a generalizing acc with
  | nil => simp [Backed]
  | cons e a ih =>
    rw [cons_append, Backed, Backed, ih, map_cons, sum_cons, and_assoc, add_assoc]

theorem Backed.partialQty_le (h : Backed acc events) :
    (eventTotals events).partialQty ≤ acc + (eventTotals events).tradeQty := by
  induction events generalizing acc with
  | nil => exact Nat.zero_le _
  | cons e events ih =>
    have hle := ih h.2
    have hclaim := h.1
    simp only [eventTotals, map_cons, foldr_cons, sum_cons] at hle ⊢
    omega

/-- The last event of a group's stream is its latest, in whatever order the table holds it. -/
theorem latestType_of_perm {init : List ExecutionEvent} {last : ExecutionEvent}
    (hsorted : (init ++ [last]).Pairwise ExecutionEvent.Before)
    (hperm : events.Perm (init ++ [last])) :
    (eventTotals events).latestType = some last.reportType := by
  have hbefore : ∀ e ∈ init, e.Before last := fun e he =>
    (pairwise_append.mp hsorted).2.2 e he last mem_cons_self
  have hlatest : ∀ e ∈ events, (events.all fun e' => ¬ e.Before e') = true ↔ e = last := by
    intro e he
    rw [List.all_eq_true]
    constructor
    · intro hall
      by_contra hne
      have hinit : e ∈ init := by
        obtain he | he := mem_append.mp (hperm.mem_iff.mp he)
        · exact he
        · exact (hne (mem_singleton.mp he)).elim
      have hlast := hall last (hperm.mem_iff.mpr (mem_append_right _ mem_cons_self))
      exact (of_decide_eq_true hlast) (hbefore e hinit)
    · rintro rfl e' he'
      refine decide_eq_true ?_
      obtain he' | he' := mem_append.mp (hperm.mem_iff.mp he')
      · exact ExecutionEvent.before_asymm (hbefore e' he')
      · rw [mem_singleton.mp he']
        exact ExecutionEvent.before_irrefl _
  have hlast : last ∈ events := hperm.mem_iff.mpr (mem_append_right _ mem_cons_self)
  have hsome : (events.find? fun e => events.all fun e' => ¬ e.Before e').isSome :=
    find?_isSome.mpr ⟨last, hlast, (hlatest last hlast).mpr rfl⟩
  obtain ⟨e, he⟩ := isSome_iff_exists.mp hsome
  have hpred := find?_some he
  have heq : e = last := (hlatest e (mem_of_find?_eq_some he)).mp hpred
  rw [eventTotals, he, heq]
  rfl

theorem eventTotals_of_perm {stream : List ExecutionEvent}
    (hsorted : stream.Pairwise ExecutionEvent.Before) (hperm : events.Perm stream) :
    eventTotals events = eventTotals stream := by
  have hlatest : (eventTotals events).latestType = (eventTotals stream).latestType := by
    obtain rfl | ⟨init, last, rfl⟩ := eq_nil_or_concat' stream
    · rw [hperm.eq_nil]
    · rw [latestType_of_perm hsorted hperm, latestType_of_perm hsorted (List.Perm.refl _)]
  have htrade : (eventTotals events).tradeQty = (eventTotals stream).tradeQty :=
    (hperm.map _).sum_eq
  have hpartial : (eventTotals events).partialQty = (eventTotals stream).partialQty :=
    (hperm.map _).foldr_eq 0
  have hfilled : (eventTotals events).hasFilled = (eventTotals stream).hasFilled :=
    hperm.any_eq
  cases h : eventTotals events
  cases h' : eventTotals stream
  simp only [h, h'] at hlatest htrade hpartial hfilled
  simp only [hlatest, htrade, hpartial, hfilled]

theorem eventTotals_append {a b : List ExecutionEvent} (hb : b ≠ [])
    (hsorted : (a ++ b).Pairwise ExecutionEvent.Before) :
    eventTotals (a ++ b) =
      { tradeQty := (eventTotals a).tradeQty + (eventTotals b).tradeQty
        partialQty := max (eventTotals a).partialQty (eventTotals b).partialQty
        hasFilled := (eventTotals a).hasFilled || (eventTotals b).hasFilled
        latestType := (eventTotals b).latestType } := by
  have hlatest : (eventTotals (a ++ b)).latestType = (eventTotals b).latestType := by
    obtain rfl | ⟨init, last, rfl⟩ := eq_nil_or_concat' b
    · exact (hb rfl).elim
    · have hsorted' := (pairwise_append.mp hsorted).2.1
      rw [← append_assoc] at hsorted ⊢
      rw [latestType_of_perm hsorted (List.Perm.refl _),
        latestType_of_perm hsorted' (List.Perm.refl _)]
  have hmax : ∀ l : List ℕ, ∀ m, l.foldr max m = max (l.foldr max 0) m := by
    intro l m
    induction l with
    | nil => simp
    | cons x l ih => rw [foldr_cons, foldr_cons, ih, max_assoc]
  rw [← hlatest]
  simp only [eventTotals, map_append, sum_append, foldr_append, any_append,
    hmax _ (List.foldr _ _ _)]

/-- The two ways of folding, in numbers: `t`, `p` and `f` are the totals of the parts. -/
theorem fold_twice {q t p t' p' : ℕ} (hp : p ≤ t) (hp' : p' ≤ t + t') (f f' : Bool) :
    let filled := min q (max (max (0 + t) p) (if f then q else 0))
    let reached := max (filled + t') p'
    let total := max (0 + (t + t')) (max p p')
    ((f' ∨ q ≤ reached) ↔ ((f || f') = true ∨ q ≤ total)) ∧
      (¬ ((f || f') = true ∨ q ≤ total) → reached = total) ∧
      min q (max reached (if f' then q else 0)) = min q (max total (if f || f' then q else 0)) := by
  cases f with
  | true => cases f' <;> simp
  | false =>
    cases f' with
    | true => simp
    | false =>
      simp only [Bool.or_self, Bool.false_eq_true, false_or, if_false]
      omega

namespace OrderRow

/-- The order in which the table holds the events does not matter. -/
theorem after_of_perm (row : OrderRow) {events stream : List ExecutionEvent}
    (hsorted : stream.Pairwise ExecutionEvent.Before) (hperm : events.Perm stream) :
    row.after events = row.after stream := by
  rw [after, after, eventTotals_of_perm hsorted hperm]
  by_cases hnil : stream = []
  · rw [if_pos hnil, if_pos (perm_nil.mp (hnil ▸ hperm))]
  · rw [if_neg hnil, if_neg fun h : events = [] => hnil (nil_perm.mp (h ▸ hperm))]

/-- **Folding a stream in two parts is folding it at once**, whatever the order in which the
table holds the second part. -/
theorem after_append {row : OrderRow} {a b events : List ExecutionEvent}
    (hfresh : row.filledQty = 0) (hsorted : (a ++ b).Pairwise ExecutionEvent.Before)
    (hbacked : Backed 0 (a ++ b))
    (hperm : events.Perm b) : (row.after a).after events = row.after (a ++ b) := by
  obtain ⟨hbacked₁, hbacked₂⟩ := backed_append.mp hbacked
  rw [after_of_perm _ (pairwise_append.mp hsorted).2.1 hperm]
  by_cases hb : b = []
  · subst hb
    rw [append_nil]
    rfl
  · have hab : a ++ b ≠ [] := fun hnil => hb (append_eq_nil_iff.mp hnil).2
    rw [after, if_neg hb]
    by_cases ha : a = []
    · subst ha
      rw [after, if_pos rfl, nil_append, after, if_neg hb]
    · have hp := hbacked₁.partialQty_le
      have hp' := hbacked₂.partialQty_le
      rw [zero_add] at hp hp'
      obtain ⟨hiff, heq, hmin⟩ := fold_twice (q := row.qty) hp hp' (eventTotals a).hasFilled
        (eventTotals b).hasFilled
      rw [after, if_neg ha, after, if_neg hab, eventTotals_append hb hsorted]
      simp only [update, hfresh]
      rw [hmin]
      by_cases hfull : ((eventTotals a).hasFilled || (eventTotals b).hasFilled) = true ∨
          row.qty ≤ max (0 + ((eventTotals a).tradeQty + (eventTotals b).tradeQty))
            (max (eventTotals a).partialQty (eventTotals b).partialQty)
      · rw [if_pos (hiff.mpr hfull), if_pos hfull]
      · rw [if_neg (mt hiff.mp hfull), if_neg hfull, heq hfull]

end OrderRow

/-! ### The reports of a processor -/

/-- What an order took in the given trades. -/
def takenBy (id : ℕ) (trades : List Trade) : ℕ :=
  (trades.map fun t => if t.taker = id then t.quantity else 0).sum

theorem takenBy_append (id : ℕ) (trades trades' : List Trade) :
    takenBy id (trades ++ trades') = takenBy id trades + takenBy id trades' := by
  rw [takenBy, map_append, sum_append]
  rfl

section Crossing

variable {strategy : Strategy} {stp : SelfTradePolicy} {seq px lots : ℕ} {c c' : Cross}

theorem execute_taken {order : Order} {view : List RestingOrder} {allocs : List Allocation}
    {x x' : Execution} (h : execute seq order px view allocs x = some x') :
    x.remaining + takenBy order.id x.trades ≤ x'.remaining + takenBy order.id x'.trades := by
  induction allocs generalizing x with
  | nil =>
    cases h
    exact le_rfl
  | cons a allocs ih =>
    rw [execute] at h
    split at h
    · exact ih h
    · obtain ⟨maker, -, h⟩ := bind_eq_some_iff.mp h
      have hrest := ih h
      rw [takenBy_append] at hrest
      simp only [takenBy, map_cons, map_nil, sum_cons, sum_nil, if_true] at hrest ⊢
      omega

/-- The crossing loop accounts for what the order `order` no longer has to get. -/
def Cross.Covers (order : Order) (c : Cross) : Prop :=
  c.order.id = order.id ∧ c.order.quantity = order.quantity ∧
    order.quantity ≤ c.order.remaining + takenBy order.id c.trades

variable {order : Order}

theorem Cross.Covers.crossFill {view : List RestingOrder} {flow : Flow} (h : c.Covers order)
    (hfill : crossFill strategy seq px lots view c = some (flow, c')) : c'.Covers order := by
  obtain ⟨hid, hqty, hle⟩ := h
  simp only [TradeCore.crossFill] at hfill
  split at hfill
  · cases hfill
    exact ⟨hid, hqty, hle⟩
  · obtain ⟨x, hx, hfill⟩ := bind_eq_some_iff.mp hfill
    have htaken := execute_taken hx
    rw [hid] at htaken
    split at hfill
    · cases hfill
      exact ⟨hid, hqty, hle.trans htaken⟩
    · obtain ⟨book, -, hfill⟩ := bind_eq_some_iff.mp hfill
      cases hfill
      exact ⟨hid, hqty, hle.trans htaken⟩

theorem Cross.Covers.crossPass {flow : Flow} (h : c.Covers order)
    (hpass : crossPass strategy stp seq c = some (flow, c')) : c'.Covers order := by
  obtain ⟨-, rfl, -⟩ | ⟨px, view, book, -, -, -, -, ⟨-, -, -, -, -, rfl⟩ | ⟨-, -, -, rfl⟩ |
    ⟨-, -, -, rfl⟩ | ⟨-, -, hfill⟩⟩ := crossPass_cases hpass
  · exact h
  · exact h
  · exact h
  · exact h
  · exact Cross.Covers.crossFill (c := { c with book := book }) h hfill

theorem Cross.Covers.crossLoop {n : ℕ} {stopped : Bool} (h : c.Covers order)
    (hloop : crossLoop strategy stp seq n c = some (c', stopped)) : c'.Covers order :=
  (crossLoop_induction (P := Cross.Covers order) (fun _ _ _ _ hc hpass => hc.crossPass hpass) h
    hloop).1

end Crossing

namespace MatchingEngine

variable {e e' : MatchingEngine} {order : Order} {report : SubmitReport}

/-- **What a submission calls filled it has traded.** -/
theorem submit_filled_le (h : e.submit order = some (e', report)) :
    report.filled ≤ takenBy order.id report.trades := by
  rcases submit_eq_some h with ⟨-, rfl⟩ | ⟨order', budget, c, stopped, hbudget, -, hcross, -,
    htrades,
    hfilled, -⟩
  · exact Nat.zero_le _
  · obtain ⟨price, tif, rfl, -⟩ := applyBudget_eq_some hbudget
    obtain ⟨-, hqty, hle⟩ := Cross.Covers.crossLoop ⟨rfl, rfl, Nat.le_add_right _ _⟩ hcross
    rw [htrades, hfilled]
    simp only at hqty hle
    omega

end MatchingEngine

/-! ### Streams of a processor -/

/-- What a report trades for an order. -/
def ExecReport.tradedFor (id : ℕ) (r : ExecReport) : ℕ :=
  if r.typeCode = .trade ∧ id ∈ r.targetOrderIds then r.qty else 0

/-- What a report calls filled for an order. -/
def ExecReport.claimedFor (id : ℕ) (r : ExecReport) : ℕ :=
  if r.typeCode = .partiallyFilled ∧ id ∈ r.targetOrderIds then r.qty else 0

/-- No partial fill of an order claims more than `acc` and what the reports before it traded. -/
def BackedReports (id : ℕ) : ℕ → List ExecReport → Prop
  | _, [] => True
  | acc, r :: reports => r.claimedFor id ≤ acc ∧ BackedReports id (acc + r.tradedFor id) reports

theorem backedReports_append {a b : List ExecReport} :
    BackedReports id acc (a ++ b) ↔
      BackedReports id acc a ∧ BackedReports id (acc + (a.map (·.tradedFor id)).sum) b := by
  induction a generalizing acc with
  | nil => simp [BackedReports]
  | cons r a ih =>
    rw [cons_append, BackedReports, BackedReports, ih, map_cons, sum_cons, and_assoc, add_assoc]

theorem BackedReports.mono {acc' : ℕ} (h : BackedReports id acc reports) (hle : acc ≤ acc') :
    BackedReports id acc' reports := by
  induction reports generalizing acc acc' with
  | nil => trivial
  | cons r reports ih => exact ⟨h.1.trans hle, ih h.2 (Nat.add_le_add_right hle _)⟩

/-- Reports that claim nothing. -/
theorem backedReports_of_forall (h : ∀ r ∈ reports, r.typeCode ≠ .partiallyFilled) :
    BackedReports id acc reports := by
  induction reports generalizing acc with
  | nil => trivial
  | cons r reports ih =>
    obtain ⟨hr, hreports⟩ := forall_mem_cons.mp h
    refine ⟨?_, ih hreports⟩
    rw [ExecReport.claimedFor, if_neg fun hc => hr hc.1]
    exact Nat.zero_le _

/-- A report has at most one event for an order. -/
theorem filter_targetOrderIds (r : ExecReport) (id : ℕ) :
    r.targetOrderIds.filter (fun i => i = id) = if id ∈ r.targetOrderIds then [id] else [] := by
  have hnodup : r.targetOrderIds.Nodup := by
    cases r with
    | trade instrument taker maker aggressor price lots makerFee takerFee =>
      rw [ExecReport.targetOrderIds]
      split
      · rename_i hne
        simpa using hne.symm
      · exact nodup_singleton _
    | _ => exact nodup_singleton _
  split
  · rename_i hmem
    have hperm : (r.targetOrderIds.filter fun i => i = id).Perm [id] := by
      rw [perm_ext_iff_of_nodup (hnodup.filter _) (nodup_singleton _)]
      intro i
      simp only [mem_filter, decide_eq_true_eq, mem_singleton]
      exact ⟨fun h => h.2, fun h => ⟨h ▸ hmem, h⟩⟩
    exact perm_singleton.mp hperm
  · rename_i hmem
    refine filter_eq_nil_iff.mpr fun i hi heq => hmem ?_
    rwa [← of_decide_eq_true heq]

theorem executionEvents_cons (group index k : ℕ) (r : ExecReport) (reports : List ExecReport) :
    executionEvents group index k (r :: reports) =
      (r.targetOrderIds.map fun id =>
        ⟨group, index, min k (2 ^ 32 - 1), id, r.typeCode, r.qty⟩) ++
        executionEvents group index (k + 1) reports := by
  rw [executionEvents, zipIdx_cons, flatMap_cons]
  rfl

/-- The events of backed reports are backed. -/
theorem backed_executionEvents {group index k : ℕ} (h : BackedReports id acc reports) :
    Backed acc ((executionEvents group index k reports).filter fun e => e.targetOrderId = id) := by
  induction reports generalizing k acc with
  | nil => trivial
  | cons r reports ih =>
    obtain ⟨hclaim, hrest⟩ := h
    have htarget : (r.targetOrderIds.map fun i => (⟨group, index, min k (2 ^ 32 - 1), i, r.typeCode,
        r.qty⟩ : ExecutionEvent)).filter (fun e => e.targetOrderId = id) =
        if id ∈ r.targetOrderIds then
          [⟨group, index, min k (2 ^ 32 - 1), id, r.typeCode, r.qty⟩] else [] := by
      rw [List.filter_map]
      change (r.targetOrderIds.filter fun i => i = id).map _ = _
      rw [filter_targetOrderIds]
      split <;> rfl
    rw [executionEvents_cons, filter_append, htarget]
    split
    · rename_i hmem
      refine ⟨?_, ?_⟩
      · simpa [ExecReport.claimedFor, hmem, ExecutionEvent.claimed] using hclaim
      · refine ih ?_
        simpa [ExecReport.tradedFor, hmem, ExecutionEvent.traded] using hrest
    · rename_i hmem
      refine ih ?_
      simpa [ExecReport.tradedFor, hmem] using hrest

namespace Processor

variable {reports : List ExecReport} {p p' : Processor}

/-- What trades report for their taker. -/
theorem takenBy_le_traded (p : Processor) (instrument id : ℕ) (trades : List Trade) :
    takenBy id trades ≤
      ((trades.map (p.tradeReport instrument)).map (·.tradedFor id)).sum := by
  rw [takenBy, List.map_map]
  refine sum_le_sum fun t _ => ?_
  split
  · rename_i htaker
    have hmem : id ∈ (p.tradeReport instrument t).targetOrderIds := by
      rw [tradeReport, ExecReport.targetOrderIds, ← htaker]
      split <;> exact mem_cons_self
    have htraded : (p.tradeReport instrument t).tradedFor id = t.quantity := if_pos ⟨rfl, hmem⟩
    exact le_of_eq htraded.symm
  · exact Nat.zero_le _

theorem backed_acceptReports {e e' : MatchingEngine} {order : Order} {report : SubmitReport}
    (hsubmit : e.submit order = some (e', report)) (id : ℕ) :
    BackedReports id 0 (p.acceptReports order e' report) := by
  have hfilled := MatchingEngine.submit_filled_le hsubmit
  rw [acceptReports, backedReports_append]
  refine ⟨backedReports_of_forall fun r hr => ?_, ?_, trivial⟩
  · obtain hr | hr := mem_append.mp hr
    · obtain hr | hr := mem_append.mp hr
      · rw [mem_singleton.mp hr]
        exact ReportType.noConfusion
      · split at hr
        · cases hr
        · obtain ⟨maker, -, rfl⟩ := List.mem_map.mp hr
          exact ReportType.noConfusion
    · obtain ⟨t, -, rfl⟩ := List.mem_map.mp hr
      exact ReportType.noConfusion
  · rw [ExecReport.claimedFor]
    split
    · rename_i hclaim
      obtain ⟨htype, hmem⟩ := hclaim
      have hstatus : report.status = .partiallyFilled := by
        cases hs : report.status with
        | partiallyFilled => rfl
        | filled | resting | cancelled | rejected =>
          rw [hs] at htype
          cases htype
      rw [hstatus] at hmem ⊢
      obtain rfl : id = order.id := mem_singleton.mp hmem
      refine hfilled.trans ((p.takenBy_le_traded order.instrument order.id report.trades).trans ?_)
      rw [map_append, sum_append, ← add_assoc]
      exact Nat.le_add_left _ _
    · exact Nat.zero_le _

theorem backed_of_apply {ω : HashOrder} {cmd : Command} (h : p.apply ω cmd = some (p', reports))
    (id : ℕ) :
    BackedReports id 0 reports := by
  have hids (instrument : ℕ) (ids : List ℕ) :
      BackedReports id 0 (ids.map (.cancelled instrument)) :=
    backedReports_of_forall (List.forall_mem_map.mpr fun _ _ => ReportType.noConfusion)
  cases apply_does h with
  | enters hcmd hnew =>
    obtain ⟨-, -, ids, rfl⟩ := hcmd.facts
    refine backedReports_append.mpr ⟨hids _ _, BackedReports.mono ?_ (Nat.zero_le _)⟩
    cases hnew with
    | refused => exact backedReports_of_forall (forall_mem_singleton.mpr ReportType.noConfusion)
    | accepted _ _ hsubmit => exact backed_acceptReports hsubmit id
  | cancel =>
    refine backedReports_of_forall (forall_mem_singleton.mpr ?_)
    split <;> exact ReportType.noConfusion
  | @modify _ _ _ _ _ _ outcome =>
    cases outcome with
    | requoted report =>
      exact backedReports_of_forall (forall_mem_requoted (fun _ _ => ReportType.noConfusion)
        ReportType.noConfusion (fun _ => ReportType.noConfusion) ReportType.noConfusion)
    | _ => exact backedReports_of_forall (forall_mem_singleton.mpr ReportType.noConfusion)
  | pull => exact hids _ _
  | halt | resume | haltUser | resumeUser =>
    exact backedReports_of_forall (forall_mem_singleton.mpr ReportType.noConfusion)
  | batch => trivial

/-- **The reports of a processor are backed**, whatever its state. -/
theorem backed_of_processAll {ω : Oracle} {i : ℕ} {cmds : List Command}
    (h : p.processAll ω i cmds = some (p', reports)) (id : ℕ) :
    BackedReports id 0 reports := by
  obtain ⟨es, htrace, rfl, -⟩ := @trace_of_processAll _ _ undisturbed (fun _ _ => True) _ _ _ cmds
    h fun _ _ _ => trivial
  clear h
  have hcons : ∀ {e : Event} {es : List Event}, BackedReports id 0 e.reports →
      BackedReports id 0 (es.flatMap Event.reports) →
      BackedReports id 0 ((e :: es).flatMap Event.reports) := fun he hes =>
    backedReports_append.mpr ⟨he, hes.mono (Nat.zero_le _)⟩
  induction htrace with
  | nil p => trivial
  | rejected hdedupe _ ih =>
    refine hcons (backedReports_of_forall (forall_mem_singleton.mpr ?_)) ih
    rw [dedupe_report hdedupe]
    exact ReportType.noConfusion
  | applied ω hs hdedupe hok happly _ ih => exact hcons (backed_of_apply happly id) ih
  | opened hdedupe _ ih => exact ih
  | outside hstep _ ih => exact hstep.elim

end Processor

end TradeCore
