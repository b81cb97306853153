import TradeCore.Projection

/-!
# Runs of the Projection

What becomes of the row of one order while transactions come and go. A run delivers the stream of
the order in consecutive batches, possibly with copies of earlier events (`ShardDb.Delivers`), and
creates the row at some time. At every moment the events delivered so far are split into those in
the row and those that wait (`ShardDb.Boxed`), and between transactions nothing waits for a row
that exists (`ShardDb.Kept`).

* `ShardDb.Kept.commands`, `ShardDb.Kept.executions`, `ShardDb.Kept.sweep` — what each transaction
  does to the row of an order.
* `ShardDb.projection_batching` — the row does not depend on how the stream was delivered.
-/

open List Option

namespace TradeCore

/-- Events of one order in the order of their group, with backed partial fills. -/
structure OrderStream (id : ℕ) (stream : List ExecutionEvent) : Prop where
  sorted : stream.Pairwise ExecutionEvent.Before
  backed : Backed 0 stream
  target : ∀ e ∈ stream, e.targetOrderId = id

namespace OrderStream

variable {id : ℕ} {a b : List ExecutionEvent}

theorem left (h : OrderStream id (a ++ b)) : OrderStream id a :=
  ⟨(pairwise_append.mp h.sorted).1, (backed_append.mp h.backed).1,
    fun e he => h.target e (mem_append_left b he)⟩

theorem nodup_keys (h : OrderStream id a) : (a.map ExecutionEvent.key).Nodup := by
  rw [List.Nodup, pairwise_map]
  refine h.sorted.imp ?_
  intro e e' hbefore hkey
  have hplace : e.raftIndex = e'.raftIndex ∧ e.ordinal = e'.ordinal :=
    ⟨congrArg (·.2.1) hkey, congrArg (·.2.2.1) hkey⟩
  unfold ExecutionEvent.Before at hbefore
  omega

/-- The key of an event of the stream stands for it alone. -/
theorem eq_of_key (h : OrderStream id a) {e e' : ExecutionEvent} (he : e ∈ a) (he' : e' ∈ a)
    (hkey : e.key = e'.key) : e = e' :=
  inj_on_of_nodup_map h.nodup_keys he he' hkey

end OrderStream

namespace CommandRecord

/-- A command marks or amends the row of an order of the given user. -/
def Touches (r : CommandRecord) (id user : ℕ) : Prop :=
  (r.cancels = some id ∨ ∃ newQty, r.modifies = some (id, newQty)) ∧ r.user = user

/-- The row that commands create for an order: that of the first one. -/
def rowOf (id : ℕ) (records : List CommandRecord) : Option OrderRow :=
  ((records.filterMap creates).find? fun r => r.1 = id).map Prod.snd

theorem fresh_of_creates {r : CommandRecord} {row : ℕ × OrderRow} (h : r.creates = some row) :
    row.2.filledQty = 0 := by
  rw [creates] at h
  split at h
  · cases h
    rfl
  · split at h
    · cases h
      rfl
    · cases h
  · cases h

theorem fresh_of_rowOf {id : ℕ} {records : List CommandRecord} {row : OrderRow}
    (h : rowOf id records = some row) : row.filledQty = 0 := by
  obtain ⟨⟨i, row'⟩, hfind, rfl⟩ := map_eq_some_iff.mp h
  obtain ⟨r, -, hr⟩ := mem_filterMap.mp (mem_of_find?_eq_some hfind)
  exact fresh_of_creates hr

theorem rowOf_append (id : ℕ) (a b : List CommandRecord) :
    rowOf id (a ++ b) = (rowOf id a).or (rowOf id b) := by
  rw [rowOf, filterMap_append, find?_append, map_or]
  rfl

end CommandRecord

@[simp] theorem OrderRow.userId_after (row : OrderRow) (events : List ExecutionEvent) :
    (row.after events).userId = row.userId := by
  rw [after]
  split <;> rfl

namespace ShardDb

section Table

variable {route : ℕ → ℕ} {db : ShardDb} {id table : ℕ}

/-- The events of an order leave the inbox with its table, once its row exists. -/
theorem waiting_applyPendingExecutionTable (hclean : db.events.Clean ExecutionEvent.key) :
    (db.applyPendingExecutionTable route table).waiting id =
      if route id = table ∧ (db.orders id).isSome then [] else db.waiting id := by
  change ((db.events.settle ExecutionEvent.key _ _).pending.filter fun e =>
    decide (e.targetOrderId = id)) = _
  rw [hclean.settle_pending, List.filter_filter]
  split
  · rename_i hdue
    refine filter_eq_nil_iff.mpr fun e _ he => ?_
    obtain ⟨hid, hnot⟩ := Bool.and_eq_true_iff.mp he
    obtain rfl := of_decide_eq_true hid
    simp [hdue.1, hdue.2] at hnot
  · rename_i hdue
    refine filter_congr fun e _ => ?_
    by_cases hid : e.targetOrderId = id
    · subst hid
      by_cases htable : route e.targetOrderId = table
      · have hrow : (db.orders e.targetOrderId).isSome = false := by
          simpa [htable] using hdue
        simp [htable, hrow]
      · simp [htable]
    · simp [hid]

/-- Only these events are counted. -/
theorem counted_applyPendingExecutionTable :
    ((db.applyPendingExecutionTable route table).counted.filter fun e => e.targetOrderId = id) =
      (db.counted.filter fun e => e.targetOrderId = id) ++
        if route id = table ∧ (db.orders id).isSome then db.waiting id else [] := by
  change ((db.counted ++ db.events.pending.filter _).filter fun e =>
    decide (e.targetOrderId = id)) = _
  rw [filter_append, List.filter_filter]
  congr 1
  split
  · rename_i hdue
    refine filter_congr fun e _ => ?_
    by_cases hid : e.targetOrderId = id
    · subst hid
      simp [hdue.1, hdue.2]
    · simp [hid]
  · rename_i hdue
    refine filter_eq_nil_iff.mpr fun e _ he => hdue ?_
    obtain ⟨hid, hready⟩ := Bool.and_eq_true_iff.mp he
    obtain rfl := of_decide_eq_true hid
    obtain ⟨htable, hrow⟩ := Bool.and_eq_true_iff.mp hready
    exact ⟨of_decide_eq_true htable, hrow⟩

/-- Their keys are recorded. -/
theorem mem_processed_applyPendingExecutionTable (hclean : db.events.Clean ExecutionEvent.key)
    {k : ℕ × ℕ × ℕ × ℕ} (hid : k.2.2.2 = id) :
    k ∈ (db.applyPendingExecutionTable route table).events.processed ↔
      k ∈ db.events.processed ∨
        (route id = table ∧ (db.orders id).isSome) ∧ ∃ e ∈ db.waiting id, e.key = k := by
  change k ∈ (db.events.settle ExecutionEvent.key _ _).processed ↔ _
  rw [hclean.settle_processed, mem_append, List.mem_map]
  refine or_congr Iff.rfl ⟨?_, ?_⟩
  · rintro ⟨e, he, rfl⟩
    obtain ⟨hmem, hready⟩ := mem_filter.mp he
    obtain ⟨htable, hrow⟩ := Bool.and_eq_true_iff.mp hready
    have hid : e.targetOrderId = id := hid
    rw [hid] at htable hrow
    exact ⟨⟨of_decide_eq_true htable, hrow⟩, e, mem_filter.mpr ⟨hmem, decide_eq_true hid⟩, rfl⟩
  · rintro ⟨⟨htable, hrow⟩, e, he, rfl⟩
    obtain ⟨hmem, hid'⟩ := mem_filter.mp he
    have hid' : e.targetOrderId = id := of_decide_eq_true hid'
    refine ⟨e, mem_filter.mpr ⟨hmem, ?_⟩, rfl⟩
    rw [hid', hrow, decide_eq_true htable]
    rfl

end Table

/-- The inbox of one order: the events `applied` went into its row, the events `waiting` wait. -/
structure Boxed (id : ℕ) (applied waiting : List ExecutionEvent) (db : ShardDb) : Prop where
  clean : db.events.Clean ExecutionEvent.key
  waits : (db.waiting id).Perm waiting
  recorded : ∀ k, k.2.2.2 = id → (k ∈ db.events.processed ↔ ∃ e ∈ applied, e.key = k)
  counted : (db.counted.filter fun e => e.targetOrderId = id).Perm applied

namespace Boxed

variable {route : ℕ → ℕ} {id : ℕ} {db : ShardDb} {applied waiting : List ExecutionEvent}

theorem empty (id : ℕ) : Boxed id [] [] ShardDb.empty :=
  ⟨.empty, .refl _, fun k _ => by simp [ShardDb.empty], .refl _⟩

/-- Rows do not matter to the inbox. -/
theorem setOrders (h : Boxed id applied waiting db) (orders : ℕ → Option OrderRow) :
    Boxed id applied waiting { db with orders := orders } :=
  ⟨h.clean, h.waits, h.recorded, h.counted⟩

/-- A table that is not the order's, or a row that does not exist, changes nothing. -/
theorem table_other (h : Boxed id applied waiting db) {table : ℕ}
    (hdue : ¬ (route id = table ∧ (db.orders id).isSome)) :
    Boxed id applied waiting (db.applyPendingExecutionTable route table) ∧
      (db.applyPendingExecutionTable route table).orders id = db.orders id := by
  refine ⟨⟨h.clean.settle, ?_, fun k hid => ?_, ?_⟩, ?_⟩
  · rw [waiting_applyPendingExecutionTable h.clean, if_neg hdue]
    exact h.waits
  · rw [mem_processed_applyPendingExecutionTable h.clean hid, h.recorded k hid]
    exact or_iff_left fun hnow => hdue hnow.1
  · rw [counted_applyPendingExecutionTable, if_neg hdue, append_nil]
    exact h.counted
  · change (db.orders id).map _ = _
    cases hrow : db.orders id with
    | none => rfl
    | some row => rw [map_some, if_neg fun htable => hdue ⟨htable, by rw [hrow]; rfl⟩]

/-- The table of the order folds what waits into its row. -/
theorem table_self (route : ℕ → ℕ) (h : Boxed id applied waiting db) {row : OrderRow}
    (hrow : db.orders id = some row) (hsorted : waiting.Pairwise ExecutionEvent.Before) :
    Boxed id (applied ++ waiting) [] (db.applyPendingExecutionTable route (route id)) ∧
      (db.applyPendingExecutionTable route (route id)).orders id = some (row.after waiting) := by
  have hdue : route id = route id ∧ (db.orders id).isSome := ⟨rfl, by rw [hrow]; rfl⟩
  refine ⟨⟨h.clean.settle, ?_, fun k hid => ?_, ?_⟩, ?_⟩
  · rw [waiting_applyPendingExecutionTable h.clean, if_pos hdue]
  · rw [mem_processed_applyPendingExecutionTable h.clean hid, h.recorded k hid, and_iff_right hdue]
    constructor
    · rintro (⟨e, he, hkey⟩ | ⟨e, he, hkey⟩)
      · exact ⟨e, mem_append_left _ he, hkey⟩
      · exact ⟨e, mem_append_right _ (h.waits.mem_iff.mp he), hkey⟩
    · rintro ⟨e, he, hkey⟩
      obtain he | he := mem_append.mp he
      · exact .inl ⟨e, he, hkey⟩
      · exact .inr ⟨e, h.waits.mem_iff.mpr he, hkey⟩
  · rw [counted_applyPendingExecutionTable, if_pos hdue]
    exact h.counted.append h.waits
  · change (db.orders id).map _ = _
    rw [hrow, map_some, if_pos rfl, row.after_of_perm hsorted h.waits]

/-- Tables change nothing while there is no row, or nothing waits. -/
theorem tables_other (route : ℕ → ℕ) (h : Boxed id applied waiting db)
    (hother : db.orders id = none ∨ waiting = []) (tables : List ℕ) :
    Boxed id applied waiting (tables.foldl (applyPendingExecutionTable route) db) ∧
      (tables.foldl (applyPendingExecutionTable route) db).orders id = db.orders id := by
  induction tables generalizing db with
  | nil => exact ⟨h, rfl⟩
  | cons table tables ih =>
    have hstep : Boxed id applied waiting (db.applyPendingExecutionTable route table) ∧
        (db.applyPendingExecutionTable route table).orders id = db.orders id := by
      by_cases hdue : route id = table ∧ (db.orders id).isSome
      · obtain ⟨rfl, hsome⟩ := hdue
        obtain ⟨row, hrow⟩ := isSome_iff_exists.mp hsome
        obtain rfl : waiting = [] := hother.resolve_left (by rw [hrow]; exact some_ne_none row)
        have hself := h.table_self route hrow Pairwise.nil
        rw [append_nil] at hself
        exact ⟨hself.1, hself.2.trans hrow.symm⟩
      · exact h.table_other hdue
    obtain ⟨hbox, hsame⟩ := ih hstep.1 (by rwa [hstep.2])
    exact ⟨hbox, hsame.trans hstep.2⟩

/-- Tables with that of the order among them fold what waits into its row. -/
theorem tables_self (route : ℕ → ℕ) (h : Boxed id applied waiting db) {row : OrderRow}
    (hrow : db.orders id = some row) (hsorted : waiting.Pairwise ExecutionEvent.Before)
    {tables : List ℕ} (hmem : route id ∈ tables) :
    Boxed id (applied ++ waiting) [] (tables.foldl (applyPendingExecutionTable route) db) ∧
      (tables.foldl (applyPendingExecutionTable route) db).orders id =
        some (row.after waiting) := by
  induction tables generalizing db with
  | nil => cases hmem
  | cons table tables ih =>
    rw [foldl_cons]
    by_cases htable : route id = table
    · subst htable
      obtain ⟨hbox, hafter⟩ := h.table_self route hrow hsorted
      obtain ⟨hbox, hsame⟩ := hbox.tables_other route (.inr rfl) tables
      exact ⟨hbox, hsame.trans hafter⟩
    · obtain ⟨hbox, hsame⟩ := h.table_other fun hdue => htable hdue.1
      exact ih hbox (hsame.trans hrow) ((mem_cons.mp hmem).resolve_left htable)

/-- **A delivery** adds the new part of the stream to what waits, and no copies. -/
theorem receive (h : Boxed id applied waiting db) {events chunk : List ExecutionEvent}
    (hstream : OrderStream id (applied ++ waiting ++ chunk)) (hnew : ∀ e ∈ chunk, e ∈ events)
    (hold : ∀ e ∈ events, e.targetOrderId = id → e ∈ applied ++ waiting ++ chunk) :
    Boxed id applied (waiting ++ chunk)
      { db with events := db.events.receive ExecutionEvent.key events } := by
  have hclean := h.clean.receive events
  have hmem_waiting : ∀ {e}, e ∈ db.events.pending → e.targetOrderId = id →
      e ∈ applied ++ waiting ++ chunk := fun he hid =>
    mem_append_left _ (mem_append_right _
      (h.waits.mem_iff.mp (mem_filter.mpr ⟨he, decide_eq_true hid⟩)))
  refine ⟨hclean, ?_, h.recorded, h.counted⟩
  have hnodup : ((db.events.receive ExecutionEvent.key events).pending.filter
      fun e => e.targetOrderId = id).Nodup := hclean.pending.of_map.filter _
  have hkeys := hstream.nodup_keys
  have hnodup' : (waiting ++ chunk).Nodup := by
    rw [append_assoc] at hkeys
    exact (List.Nodup.of_append_right (hkeys.of_map))
  refine (perm_ext_iff_of_nodup hnodup hnodup').mpr fun e => ?_
  constructor
  · intro he
    obtain ⟨hmem, hid⟩ := mem_filter.mp he
    have hid : e.targetOrderId = id := of_decide_eq_true hid
    obtain ⟨hmem, hunseen⟩ := Inbox.mem_of_receive hmem
    have hin : e ∈ applied ++ waiting ++ chunk :=
      hmem.elim (fun hmem => hmem_waiting hmem hid) fun hmem => hold e hmem hid
    rw [append_assoc] at hin
    refine (mem_append.mp hin).resolve_left fun happlied => hunseen ?_
    exact (h.recorded e.key hid).mpr ⟨e, happlied, rfl⟩
  · intro he
    have hin : e ∈ applied ++ waiting ++ chunk := by
      rw [append_assoc]
      exact mem_append_right _ he
    have hid : e.targetOrderId = id := hstream.target e hin
    refine mem_filter.mpr ⟨?_, decide_eq_true hid⟩
    refine Inbox.mem_receive (fun e' he' hkey => ?_) ?_ fun hseen => ?_
    · have hid' : e'.targetOrderId = id := (congrArg (·.2.2.2) hkey).trans hid
      refine hstream.eq_of_key ?_ hin hkey
      exact he'.elim (fun hmem => hmem_waiting hmem hid') fun hmem => hold e' hmem hid'
    · obtain he | he := mem_append.mp he
      · exact .inl (mem_filter.mp (h.waits.mem_iff.mpr he)).1
      · exact .inr (hnew e he)
    · obtain ⟨e', he', hkey⟩ := (h.recorded e.key hid).mp hseen
      have heq : e' = e := hstream.eq_of_key
        (mem_append_left _ (mem_append_left _ he')) hin hkey
      subst heq
      rw [append_assoc] at hkeys
      exact disjoint_of_nodup_append hkeys.of_map he' he

end Boxed

end ShardDb

/-! ### Commands -/

namespace OrderRow

/-- What a cancellation does to the row of an order. -/
def cancelBy (id : ℕ) (row : OrderRow) (r : CommandRecord) : OrderRow :=
  if r.cancels = some id ∧ row.userId = r.user then { row with status := .cancelPending } else row

/-- What an amendment does to the row of an order. -/
def modifyBy (id : ℕ) (row : OrderRow) (r : CommandRecord) : OrderRow :=
  match r.modifies with
  | none => row
  | some (orderId, newQty) =>
    if id = orderId ∧ row.userId = r.user then
      { row with qty := newQty, status := .modifyPending }
    else row

/-- A row after the cancellations and then the amendments of a batch. -/
def marked (id : ℕ) (row : OrderRow) (records : List CommandRecord) : OrderRow :=
  records.foldl (modifyBy id) (records.foldl (cancelBy id) row)

variable {id : ℕ} {row : OrderRow}

theorem cancelBy_of_not_touches {r : CommandRecord} (h : ¬ r.Touches id row.userId) :
    row.cancelBy id r = row :=
  if_neg fun hthis => h ⟨.inl hthis.1, hthis.2.symm⟩

theorem modifyBy_of_not_touches {r : CommandRecord} (h : ¬ r.Touches id row.userId) :
    row.modifyBy id r = row := by
  rw [modifyBy]
  split
  · rfl
  · rename_i orderId newQty hmodifies
    refine if_neg fun hthis => h ⟨.inr ⟨newQty, ?_⟩, hthis.2.symm⟩
    rw [hmodifies, hthis.1]

/-- Commands that do not touch a row leave it. -/
theorem marked_of_not_touches {records : List CommandRecord}
    (h : ∀ r ∈ records, ¬ r.Touches id row.userId) : row.marked id records = row := by
  have hcancel : records.foldl (cancelBy id) row = row :=
    List.foldlRecOn records (cancelBy id) (motive := (· = row)) rfl fun b hb r hr => by
      rw [hb]
      exact cancelBy_of_not_touches (h r hr)
  rw [marked, hcancel]
  refine List.foldlRecOn records (modifyBy id) (motive := (· = row)) rfl fun b hb r hr => ?_
  rw [hb]
  exact modifyBy_of_not_touches (h r hr)

end OrderRow

namespace ShardDb

variable {id : ℕ} {route : ℕ → ℕ}

theorem foldl_insertOrder (db : ShardDb) (rows : List (ℕ × OrderRow)) :
    rows.foldl insertOrder db =
      { db with orders := fun id =>
          (db.orders id).or ((rows.find? fun r => r.1 = id).map Prod.snd) } := by
  induction rows generalizing db with
  | nil => simp
  | cons r rows ih =>
    rw [foldl_cons, ih]
    simp only [insertOrder, find?_cons, ShardDb.mk.injEq, and_true]
    funext id
    by_cases hid : id = r.1
    · subst hid
      cases db.orders r.1 <;> simp
    · have hid' : r.1 ≠ id := fun h => hid h.symm
      simp [hid, hid']

theorem foldl_cancelOrder (db : ShardDb) (records : List CommandRecord) :
    records.foldl cancelOrder db =
      { db with orders := fun id =>
          (db.orders id).map fun row => records.foldl (OrderRow.cancelBy id) row } := by
  induction records generalizing db with
  | nil => simp
  | cons r records ih =>
    have hstep : db.cancelOrder r =
        { db with orders := fun id => (db.orders id).map (OrderRow.cancelBy id · r) } := by
      rw [cancelOrder]
      cases hcancels : r.cancels with
      | none => simp [OrderRow.cancelBy, hcancels]
      | some orderId => simp [updateOwn, OrderRow.cancelBy, hcancels, eq_comm]
    rw [foldl_cons, ih, hstep]
    simp only [Option.map_map, foldl_cons]
    rfl

theorem foldl_modifyOrder (db : ShardDb) (records : List CommandRecord) :
    records.foldl modifyOrder db =
      { db with orders := fun id =>
          (db.orders id).map fun row => records.foldl (OrderRow.modifyBy id) row } := by
  induction records generalizing db with
  | nil => simp
  | cons r records ih =>
    have hstep : db.modifyOrder r =
        { db with orders := fun id => (db.orders id).map (OrderRow.modifyBy id · r) } := by
      rw [modifyOrder]
      cases hmodifies : r.modifies with
      | none => simp [OrderRow.modifyBy, hmodifies]
      | some amended => simp [updateOwn, OrderRow.modifyBy, hmodifies]
    rw [foldl_cons, ih, hstep]
    simp only [Option.map_map, foldl_cons]
    rfl

theorem mem_tablesOf {ids : List ℕ} (h : id ∈ ids) :
    route id ∈ tablesOf route ids := by
  rw [tablesOf, mem_mergeSort, mem_dedup]
  exact List.mem_map_of_mem h

/-- Between transactions: the events delivered so far are in the row, or they all wait because
there is none. -/
def Kept (id : ℕ) (done : List ExecutionEvent) (db : ShardDb) : Prop :=
  match db.orders id with
  | none => Boxed id [] done db
  | some _ => Boxed id done [] db

namespace Kept

variable {route : ℕ → ℕ} {id : ℕ} {db : ShardDb} {done chunk : List ExecutionEvent}

theorem empty (id : ℕ) : Kept id [] ShardDb.empty := Boxed.empty id

theorem boxed_of_none (h : Kept id done db) (hrow : db.orders id = none) :
    Boxed id [] done db := by
  rwa [Kept, hrow] at h

theorem boxed_of_some (h : Kept id done db) {row : OrderRow} (hrow : db.orders id = some row) :
    Boxed id done [] db := by
  rwa [Kept, hrow] at h

theorem of_none (hrow : db.orders id = none) (h : Boxed id [] done db) : Kept id done db := by
  rwa [Kept, hrow]

theorem of_some {row : OrderRow} (hrow : db.orders id = some row) (h : Boxed id done [] db) :
    Kept id done db := by
  rwa [Kept, hrow]

/-- **A batch of commands** marks the row of an order, or creates it with all that waits. -/
theorem commands (route : ℕ → ℕ) (h : Kept id done db)
    (hsorted : done.Pairwise ExecutionEvent.Before) (records : List CommandRecord) :
    Kept id done (db.persistMysqlShard route records) ∧
      (db.persistMysqlShard route records).orders id =
        ((db.orders id).map fun row => row.marked id records).or
          ((CommandRecord.rowOf id records).map fun row => (row.marked id records).after done) := by
  rw [persistMysqlShard]
  set rows := records.filterMap CommandRecord.creates
  rw [foldl_insertOrder, foldl_cancelOrder, foldl_modifyOrder]
  set written : ShardDb := { db with orders := _ } with hwritten
  have horders : written.orders id = ((db.orders id).or (CommandRecord.rowOf id records)).map
      fun row => row.marked id records := by
    rw [hwritten]
    simp only [Option.map_map]
    rfl
  cases hrow : db.orders id with
  | some row =>
    rw [hrow, some_or, map_some] at horders
    have hbox : Boxed id done [] written := (h.boxed_of_some hrow).setOrders _
    obtain ⟨hbox, hsame⟩ := hbox.tables_other route (.inr rfl)
      (tablesOf route (rows.map Prod.fst))
    rw [horders] at hsame
    exact ⟨of_some hsame hbox, hsame⟩
  | none =>
    rw [hrow, none_or] at horders
    have hbox : Boxed id [] done written := (h.boxed_of_none hrow).setOrders _
    cases hnew : CommandRecord.rowOf id records with
    | none =>
      rw [hnew, map_none] at horders
      obtain ⟨hbox, hsame⟩ := hbox.tables_other route (.inl horders)
        (tablesOf route (rows.map Prod.fst))
      rw [horders] at hsame
      exact ⟨of_none hsame hbox, hsame⟩
    | some row =>
      rw [hnew, map_some] at horders
      have hmem : id ∈ rows.map Prod.fst := by
        obtain ⟨⟨i, row'⟩, hfind, -⟩ := map_eq_some_iff.mp hnew
        have hid := find?_some hfind
        obtain rfl : i = id := of_decide_eq_true hid
        exact List.mem_map_of_mem (mem_of_find?_eq_some hfind)
      obtain ⟨hbox, hafter⟩ := hbox.tables_self route horders hsorted (mem_tablesOf hmem)
      exact ⟨of_some hafter hbox, hafter⟩

/-- **A batch of events** folds the new part of the stream into the row. -/
theorem executions (route : ℕ → ℕ) (h : Kept id done db) (hstream : OrderStream id (done ++ chunk))
    {events : List ExecutionEvent} (hnew : ∀ e ∈ chunk, e ∈ events)
    (hold : ∀ e ∈ events, e.targetOrderId = id → e ∈ done ++ chunk) :
    Kept id (done ++ chunk) (db.persistExecutionShard route events) ∧
      (db.persistExecutionShard route events).orders id =
        (db.orders id).map fun row => row.after chunk := by
  rw [persistExecutionShard]
  cases hrow : db.orders id with
  | none =>
    have hbox := (h.boxed_of_none hrow).receive (by simpa using hstream) hnew (by simpa using hold)
    obtain ⟨hbox, hsame⟩ := hbox.tables_other route (.inl hrow)
      (tablesOf route (events.map (·.targetOrderId)))
    exact ⟨of_none (hsame.trans hrow) hbox, hsame.trans hrow⟩
  | some row =>
    have hbox := (h.boxed_of_some hrow).receive (by simpa using hstream) hnew (by simpa using hold)
    rw [nil_append] at hbox
    by_cases hchunk : chunk = []
    · subst hchunk
      obtain ⟨hbox, hsame⟩ := hbox.tables_other route (.inr rfl)
        (tablesOf route (events.map (·.targetOrderId)))
      rw [append_nil]
      exact ⟨of_some (hsame.trans hrow) hbox, hsame.trans hrow⟩
    · obtain ⟨e, rest, hcons⟩ := exists_cons_of_ne_nil hchunk
      have he : e ∈ chunk := hcons ▸ mem_cons_self
      have hid : e.targetOrderId = id := hstream.target e (mem_append_right _ he)
      have hmem : id ∈ events.map (·.targetOrderId) := List.mem_map.mpr ⟨e, hnew e he, hid⟩
      obtain ⟨hbox, hafter⟩ := hbox.tables_self route hrow
        (pairwise_append.mp hstream.sorted).2.1 (mem_tablesOf hmem)
      exact ⟨of_some hafter hbox, hafter⟩

/-- **A sweep** finds nothing to do. -/
theorem sweep (route : ℕ → ℕ) (h : Kept id done db) (tables : List ℕ) :
    Kept id done (tables.foldl (applyPendingExecutionTable route) db) ∧
      (tables.foldl (applyPendingExecutionTable route) db).orders id = db.orders id := by
  cases hrow : db.orders id with
  | none =>
    obtain ⟨hbox, hsame⟩ := (h.boxed_of_none hrow).tables_other route (.inl hrow) tables
    exact ⟨of_none (hsame.trans hrow) hbox, hsame.trans hrow⟩
  | some row =>
    obtain ⟨hbox, hsame⟩ := (h.boxed_of_some hrow).tables_other route (.inr rfl) tables
    exact ⟨of_some (hsame.trans hrow) hbox, hsame.trans hrow⟩

theorem nodup_counted (h : Kept id done db) (hstream : OrderStream id done) :
    (db.counted.filter fun e => e.targetOrderId = id).Nodup := by
  cases hrow : db.orders id with
  | none => exact (h.boxed_of_none hrow).counted.nodup_iff.mpr nodup_nil
  | some row => exact (h.boxed_of_some hrow).counted.nodup_iff.mpr hstream.nodup_keys.of_map

end Kept

/-! ### Runs -/

/-- The commands of a transaction. -/
def Transaction.records : Transaction → List CommandRecord
  | .commands records => records
  | .executions _ => []
  | .sweep _ => []

/-- The transactions deliver the stream `rest` of an order in consecutive parts, after they have
delivered `done`. A batch may hold the events of its part in any order and more than once, events
of other orders, and copies of events that were delivered before. -/
inductive Delivers (id : ℕ) :
    List ExecutionEvent → List ExecutionEvent → List Transaction → Prop
  | nil (done : List ExecutionEvent) : Delivers id done [] []
  | commands {done rest : List ExecutionEvent} {txs : List Transaction}
      (records : List CommandRecord) (h : Delivers id done rest txs) :
      Delivers id done rest (.commands records :: txs)
  | sweep {done rest : List ExecutionEvent} {txs : List Transaction} (tables : List ℕ)
      (h : Delivers id done rest txs) : Delivers id done rest (.sweep tables :: txs)
  | executions {done chunk rest events : List ExecutionEvent} {txs : List Transaction}
      (hnew : ∀ e ∈ chunk, e ∈ events)
      (hold : ∀ e ∈ events, e.targetOrderId = id → e ∈ done ++ chunk)
      (h : Delivers id (done ++ chunk) rest txs) :
      Delivers id done (chunk ++ rest) (.executions events :: txs)

/-- Whatever the commands, a run that delivers a stream has it in the row or in the inbox. -/
theorem Kept.run {done rest : List ExecutionEvent} {db : ShardDb} {txs : List Transaction}
    (h : Kept id done db) (hstream : OrderStream id (done ++ rest))
    (hdelivers : Delivers id done rest txs) : Kept id (done ++ rest) (db.run route txs) := by
  induction hdelivers generalizing db with
  | nil done => rwa [append_nil]
  | commands records _ ih => exact ih (h.commands route hstream.left.sorted records).1 hstream
  | sweep tables _ ih => exact ih (h.sweep route tables).1 hstream
  | executions hnew hold _ ih =>
    rw [← append_assoc] at hstream ⊢
    exact ih (h.executions route hstream.left hnew hold).1 hstream

/-- No command of the transactions marks or amends the row of the order. -/
def Untouched (id : ℕ) (txs : List Transaction) : Prop :=
  ∀ r ∈ txs.flatMap Transaction.records,
    ∀ row ∈ CommandRecord.rowOf id (txs.flatMap Transaction.records), ¬ r.Touches id row.userId

/-- The row of an order was created as `created`, and all events delivered so far are in it. -/
structure Follows (id : ℕ) (created : Option OrderRow) (done : List ExecutionEvent)
    (db : ShardDb) : Prop where
  kept : Kept id done db
  row : db.orders id = created.map (·.after done)
  fresh : ∀ row ∈ created, row.filledQty = 0

/-- **A run follows the stream** that it delivers. -/
theorem Follows.run {created : Option OrderRow} {done rest : List ExecutionEvent} {db : ShardDb}
    {txs : List Transaction} (h : Follows id created done db)
    (hstream : OrderStream id (done ++ rest)) (hdelivers : Delivers id done rest txs)
    (hother : ∀ r ∈ txs.flatMap Transaction.records,
      ∀ row ∈ created.or (CommandRecord.rowOf id (txs.flatMap Transaction.records)),
        ¬ r.Touches id row.userId) :
    Follows id (created.or (CommandRecord.rowOf id (txs.flatMap Transaction.records)))
      (done ++ rest) (db.run route txs) := by
  induction hdelivers generalizing created db with
  | nil done =>
    rw [append_nil, flatMap_nil]
    change Follows id (created.or none) done db
    rwa [or_none]
  | @commands done rest txs records _ ih =>
    have hflat : (Transaction.commands records :: txs).flatMap Transaction.records =
        records ++ txs.flatMap Transaction.records := rfl
    rw [hflat, CommandRecord.rowOf_append, ← Option.or_assoc] at hother ⊢
    refine ih ?_ hstream fun r hr => hother r (mem_append_right _ hr)
    have hsame : ∀ row ∈ created.or (CommandRecord.rowOf id records),
        ∀ r ∈ records, ¬ r.Touches id row.userId := by
      intro row hrow r hr
      refine hother r (mem_append_left _ hr) row ?_
      rw [mem_def] at hrow ⊢
      rw [hrow]
      rfl
    obtain ⟨hkept, hrow⟩ := h.kept.commands route hstream.left.sorted records
    refine ⟨hkept, ?_, fun row hrow => ?_⟩
    · refine hrow.trans ?_
      rw [h.row]
      cases created with
      | none =>
        cases hnew : CommandRecord.rowOf id records with
        | none => rfl
        | some row =>
          have hmarked := OrderRow.marked_of_not_touches
            (hsame row (by rw [hnew]; rfl))
          simp only [map_none, map_some, none_or, hmarked]
      | some row =>
        have hmarked : (row.after done).marked id records = row.after done := by
          refine OrderRow.marked_of_not_touches ?_
          rw [OrderRow.userId_after]
          exact hsame row rfl
        simp only [map_some, some_or, hmarked]
    · cases created with
      | none => exact CommandRecord.fresh_of_rowOf hrow
      | some row' => exact h.fresh row hrow
  | sweep tables _ ih =>
    obtain ⟨hkept, hrow⟩ := h.kept.sweep route tables
    exact ih ⟨hkept, hrow.trans h.row, h.fresh⟩ hstream hother
  | @executions done chunk rest events txs hnew hold _ ih =>
    rw [← append_assoc] at hstream ⊢
    obtain ⟨hkept, hrow⟩ := h.kept.executions route hstream.left hnew hold
    refine ih ⟨hkept, hrow.trans ?_, h.fresh⟩ hstream hother
    rw [h.row, Option.map_map]
    cases created with
    | none => rfl
    | some row =>
      exact congrArg some (OrderRow.after_append (h.fresh row rfl) hstream.left.sorted
        hstream.left.backed (.refl _))

/-- The events of a group for an order, as processors report them. -/
theorem orderStream_streamOf {group : ℕ} {entries : List (ℕ × List ExecReport)}
    (hemitted : ∀ e ∈ entries, ∃ (p : Processor) (ω : Oracle) (cmds : List Command)
      (p' : Processor), p.processAll ω 0 cmds = some (p', e.2))
    (hordered : (streamOf group id entries).Pairwise ExecutionEvent.Before) :
    OrderStream id (streamOf group id entries) := by
  refine ⟨hordered, ?_, fun e he => of_decide_eq_true (mem_filter.mp he).2⟩
  clear hordered
  induction entries with
  | nil => trivial
  | cons e entries ih =>
    obtain ⟨⟨p, ω, cmds, p', hrun⟩, hrest⟩ := forall_mem_cons.mp hemitted
    rw [streamOf, flatMap_cons, filter_append, backed_append]
    refine ⟨backed_executionEvents (Processor.backed_of_processAll hrun id), ?_⟩
    exact (ih hrest).mono (Nat.zero_le _)

/-- **The projection does not depend on the delivery.** Take the events that a group emits for an
order, in raft order, and any transactions that deliver them in consecutive batches, with copies of
earlier events, among batches of commands that create the row at some time but do not mark or amend
it. The row ends as if all commands had come first and then the whole stream once in one batch,
and no event is counted twice. -/
theorem projection_batching (route : ℕ → ℕ) {group id : ℕ} {entries : List (ℕ × List ExecReport)}
    (hemitted : ∀ e ∈ entries, ∃ (p : Processor) (ω : Oracle) (cmds : List Command)
      (p' : Processor), p.processAll ω 0 cmds = some (p', e.2))
    (hordered : (streamOf group id entries).Pairwise ExecutionEvent.Before) {txs : List Transaction}
    (hdelivers : Delivers id [] (streamOf group id entries) txs) (huntouched : Untouched id txs) :
    (empty.run route txs).orders id =
        (empty.run route [.commands (txs.flatMap Transaction.records),
          .executions (streamOf group id entries)]).orders id ∧
      ((empty.run route txs).counted.filter fun e => e.targetOrderId = id).Nodup := by
  have hstream := orderStream_streamOf hemitted hordered
  generalize streamOf group id entries = stream at hdelivers hstream
  have hstart : Follows id none [] ShardDb.empty :=
    ⟨Kept.empty id, rfl, nofun⟩
  have hend : Follows id (CommandRecord.rowOf id (txs.flatMap Transaction.records)) stream
      (ShardDb.empty.run route txs) := hstart.run hstream hdelivers huntouched
  have honce : Delivers id [] stream
      [.commands (txs.flatMap Transaction.records), .executions stream] := by
    have hbatch : Delivers id [] (stream ++ []) [.executions stream] :=
      .executions (fun _ he => he) (fun _ he _ => he) (.nil _)
    rw [append_nil] at hbatch
    exact .commands _ hbatch
  have hflat : [Transaction.commands (txs.flatMap Transaction.records),
      .executions stream].flatMap Transaction.records = txs.flatMap Transaction.records := by
    simp [Transaction.records]
  have huntouched' :
      Untouched id [.commands (txs.flatMap Transaction.records), .executions stream] := by
    rw [Untouched, hflat]
    exact huntouched
  have hend' : Follows id (CommandRecord.rowOf id ([Transaction.commands
      (txs.flatMap Transaction.records), .executions stream].flatMap Transaction.records)) stream
      (ShardDb.empty.run route [.commands (txs.flatMap Transaction.records), .executions stream]) :=
    hstart.run hstream honce huntouched'
  rw [hflat] at hend'
  exact ⟨hend.row.trans hend'.row.symm, hend.kept.nodup_counted hstream⟩

/-- Five lots are offered, and three of them are bought. -/
def bookedEntries : List (ℕ × List ExecReport) :=
  [(1, [.accepted 0 1, .resting 0 1]),
    (2, [.accepted 0 2, .trade 0 2 1 .buy 60 3 0 0, .filled 0 2])]

/-- The first entry comes before the row, the second with a copy of the first. -/
def racedTransactions : List Transaction :=
  [.executions (executionEvents 7 1 0 [.accepted 0 1, .resting 0 1]),
    .commands [⟨9, .new (Order.limit 1 .sell 60 5)⟩],
    .executions (bookedEntries.flatMap fun e => executionEvents 7 e.1 0 e.2), .sweep [0]]

/-- A race between the stream of the offer and its row, with a redelivery. -/
theorem projection_batching_raced :
    (empty.run (fun _ => 0) racedTransactions).orders 1 =
        (empty.run (fun _ => 0) [.commands (racedTransactions.flatMap Transaction.records),
          .executions (streamOf 7 1 bookedEntries)]).orders 1 ∧
      ((empty.run (fun _ => 0) racedTransactions).counted.filter fun e =>
        e.targetOrderId = 1).Nodup := by
  have hask : ((Processor.fresh Processor.defaultConfig).processAll default 0
      [.new (Order.limit 1 .sell 60 5)]).map Prod.snd = some [.accepted 0 1, .resting 0 1] := by
    decide +kernel
  have hbid : (((Processor.fresh Processor.defaultConfig).processAll default 0
      [.new (Order.limit 1 .sell 60 5)]).bind fun r => r.1.processAll default 0
        [.new (Order.limit 2 .buy 60 3)]).map Prod.snd =
          some [.accepted 0 2, .trade 0 2 1 .buy 60 3 0 0, .filled 0 2] := by
    decide +kernel
  refine projection_batching (fun _ => 0) (forall_mem_cons.mpr ⟨?_, forall_mem_singleton.mpr
    ?_⟩) (by decide) ?_ ?_
  · obtain ⟨⟨p', reports⟩, hrun, rfl⟩ := map_eq_some_iff.mp hask
    exact ⟨_, _, _, _, hrun⟩
  · obtain ⟨⟨p', reports⟩, hrun, rfl⟩ := map_eq_some_iff.mp hbid
    obtain ⟨⟨p, reports'⟩, -, hrun⟩ := bind_eq_some_iff.mp hrun
    exact ⟨_, _, _, _, hrun⟩
  · have hfirst : ∀ e ∈ executionEvents 7 1 0 [.accepted 0 1, .resting 0 1],
        e.targetOrderId = 1 → e ∈ executionEvents 7 1 0 [.accepted 0 1, .resting 0 1] :=
      fun _ he _ => he
    have hsecond : ∀ e ∈ bookedEntries.flatMap fun e => executionEvents 7 e.1 0 e.2,
        e.targetOrderId = 1 → e ∈ executionEvents 7 1 0 [.accepted 0 1, .resting 0 1] ++
          [⟨7, 2, 1, 1, .trade, 3⟩] := by decide
    have hsplit : streamOf 7 1 bookedEntries =
        executionEvents 7 1 0 [.accepted 0 1, .resting 0 1] ++
          ([⟨7, 2, 1, 1, .trade, 3⟩] ++ []) := by decide
    change Delivers 1 [] (streamOf 7 1 bookedEntries) racedTransactions
    rw [hsplit]
    exact .executions (fun _ he => he) hfirst (.commands _ (.executions
      (forall_mem_singleton.mpr (by decide)) hsecond (.sweep _ (.nil _))))
  · intro r hr row hrow
    obtain rfl : r = ⟨9, .new (Order.limit 1 .sell 60 5)⟩ := mem_singleton.mp hr
    rintro ⟨hcancels | ⟨newQty, hmodifies⟩, -⟩
    · cases hcancels
    · cases hmodifies

end ShardDb

end TradeCore
