import TradeCore.ProjectionRuns
import TradeCore.Mentions

/-!
# Rows of Finished Orders

When the engine is done with an order, its row shows a final status: `FILLED`, `CANCELLED` or
`REJECTED`. The row keeps it as long as the projection is not told about the order again: no
cancellation or amendment of its user is projected, and no command that names it is processed.
Only `FILLED` withstands the second, because no event takes quantity back.

The projection does not guard its writes: the `UPDATE` of a cancellation does not look at the old
status, and `processed_commands` is written but never read. So a redelivered cancellation reopens
a cancelled order (`ShardDb.redelivered_cancel_reopens`).

* `ShardDb.final_status_absorbing` — what a final row withstands.
-/

open Std List Option

namespace TradeCore

/-! ### Events of a log -/

namespace Processor

variable {log : List (ℕ × ℕ × List Command)}

/-- The events of a log. A part of the log is a list of commands with its Raft index and the
ordinal of its first report. -/
def emit (group : ℕ) (ω : ℕ → ℕ → Oracle) (p : Processor) :
    List (ℕ × ℕ × List Command) → Option (Processor × List ExecutionEvent)
  | [] => some (p, [])
  | (index, k, cmds) :: log => do
      let (p, reports) ← p.processAll (ω index k) 0 cmds
      let (p, events) ← p.emit group ω log
      pure (p, executionEvents group index k reports ++ events)

variable {group : ℕ} {ω : ℕ → ℕ → Oracle} {p p' : Processor}
  {events : List ExecutionEvent}

theorem emit_cons {index k : ℕ} {cmds : List Command}
    (h : p.emit group ω ((index, k, cmds) :: log) = some (p', events)) :
    ∃ p₁ reports later, p.processAll (ω index k) 0 cmds = some (p₁, reports) ∧
      p₁.emit group ω log = some (p', later) ∧
      events = executionEvents group index k reports ++ later := by
  rw [emit, bind_eq_bind, bind_eq_some_iff] at h
  obtain ⟨⟨p₁, reports⟩, hpart, h⟩ := h
  obtain ⟨⟨p₂, later⟩, hlater, heq⟩ := bind_eq_some_iff.mp h
  cases heq
  exact ⟨p₁, reports, later, hpart, hlater, rfl⟩

theorem emit_append {earlier later : List (ℕ × ℕ × List Command)} {p₁ : Processor}
    {events₁ : List ExecutionEvent} (h : p.emit group ω (earlier ++ later) = some (p', events))
    (h₁ : p.emit group ω earlier = some (p₁, events₁)) :
    ∃ events₂, p₁.emit group ω later = some (p', events₂) ∧ events = events₁ ++ events₂ := by
  induction earlier generalizing p events events₁ with
  | nil =>
    cases h₁
    exact ⟨events, h, rfl⟩
  | cons part earlier ih =>
    obtain ⟨index, k, cmds⟩ := part
    obtain ⟨q, reports, rest, hpart, hrest, rfl⟩ := emit_cons h
    obtain ⟨q', reports', rest', hpart', hrest', rfl⟩ := emit_cons h₁
    cases hpart.symm.trans hpart'
    obtain ⟨events₂, hlater, rfl⟩ := ih hrest hrest'
    exact ⟨events₂, hlater, (append_assoc ..).symm⟩

/-- The events of a log for an order are backed. -/
theorem backed_of_emit (h : p.emit group ω log = some (p', events)) (id : ℕ) :
    Backed 0 (events.filter fun e => e.targetOrderId = id) := by
  induction log generalizing p events with
  | nil =>
    cases h
    trivial
  | cons part log ih =>
    obtain ⟨index, k, cmds⟩ := part
    obtain ⟨p₁, reports, later, hpart, hlater, rfl⟩ := emit_cons h
    rw [filter_append, backed_append]
    exact ⟨backed_executionEvents (backed_of_processAll hpart id), (ih hlater).mono (Nat.zero_le _)⟩

theorem Catalogued.emit (hp : p.Catalogued)
    (hr : ∀ part ∈ log, ∀ c ∈ Command.allLeaves part.2.2, c.InRange)
    (h : p.emit group ω log = some (p', events)) : p'.Catalogued := by
  induction log generalizing p events with
  | nil =>
    cases h
    exact hp
  | cons part log ih =>
    obtain ⟨index, k, cmds⟩ := part
    obtain ⟨hcmds, hlog⟩ := forall_mem_cons.mp hr
    obtain ⟨p₁, reports, later, hpart, hlater, -⟩ := emit_cons h
    exact ih (hp.processAll hcmds hpart) hlog hlater

/-- **No events for an order that no book has and no command names.** -/
theorem Forgot.emit {id : ℕ} (hp : p.Forgot id)
    (hlog : ∀ part ∈ log, ∀ c ∈ Command.allLeaves part.2.2, c.InRange ∧ id ∉ c.names)
    (h : p.emit group ω log = some (p', events)) :
    (events.filter fun e => e.targetOrderId = id) = [] := by
  induction log generalizing p events with
  | nil =>
    cases h
    rfl
  | cons part log ih =>
    obtain ⟨index, k, cmds⟩ := part
    obtain ⟨hcmds, hrest⟩ := forall_mem_cons.mp hlog
    obtain ⟨p₁, reports, later, hpart, hlater, rfl⟩ := emit_cons h
    obtain ⟨hp₁, hsilent⟩ := silent_of_processAll hp cmds hpart hcmds
    rw [filter_append, ih hp₁ hrest hlater, append_nil, filter_eq_nil_iff]
    intro e he htarget
    obtain ⟨⟨r, i⟩, hr, he⟩ := mem_flatMap.mp he
    obtain ⟨j, hj, rfl⟩ := List.mem_map.mp he
    obtain rfl : j = id := of_decide_eq_true htarget
    exact hsilent r (fst_mem_of_mem_zipIdx hr) hj

end Processor

/-! ### Rows -/

namespace OrderRow

/-- A row that shows `FILLED` has all its quantity filled. -/
def Solid (row : OrderRow) : Prop := row.status = .filled → row.qty ≤ row.filledQty

variable {row : OrderRow}

theorem solid_of_ne (h : row.status ≠ .filled) : row.Solid := fun hs => absurd hs h

theorem solid_update (row : OrderRow) (e : EventTotals) : (row.update e).Solid := by
  intro hstatus
  rw [update] at hstatus ⊢
  simp only at hstatus ⊢
  have hfull : e.hasFilled = true ∨ row.qty ≤ max (row.filledQty + e.tradeQty) e.partialQty := by
    by_contra hnot
    rw [if_neg hnot] at hstatus
    split at hstatus
    · cases hstatus
    · split at hstatus
      · cases hstatus
      · split at hstatus <;> cases hstatus
  obtain hfilled | hreached := hfull
  · rw [if_pos hfilled]
    omega
  · omega

theorem Solid.after (h : row.Solid) (events : List ExecutionEvent) : (row.after events).Solid := by
  rw [OrderRow.after]
  split
  · exact h
  · exact solid_update row _

theorem Solid.marked (h : row.Solid) (id : ℕ) (records : List CommandRecord) :
    (row.marked id records).Solid := by
  refine List.foldlRecOn records (modifyBy id) (motive := Solid) ?_ fun row hrow r _ => ?_
  · refine List.foldlRecOn records (cancelBy id) (motive := Solid) h fun row hrow r _ => ?_
    rw [cancelBy]
    split
    · exact solid_of_ne RowStatus.noConfusion
    · exact hrow
  · rw [modifyBy]
    split
    · exact hrow
    · split
      · exact solid_of_ne RowStatus.noConfusion
      · exact hrow

/-- **No event reopens a filled order.** -/
theorem status_after_of_filled (h : row.Solid) (hstatus : row.status = .filled)
    (events : List ExecutionEvent) : (row.after events).status = .filled := by
  rw [after]
  split
  · exact hstatus
  · have hfull := h hstatus
    rw [update]
    exact if_pos (.inr (by omega))

end OrderRow

theorem CommandRecord.solid_of_rowOf {id : ℕ} {records : List CommandRecord} {row : OrderRow}
    (h : rowOf id records = some row) : row.Solid := by
  obtain ⟨⟨i, row'⟩, hfind, rfl⟩ := map_eq_some_iff.mp h
  obtain ⟨r, -, hr⟩ := mem_filterMap.mp (mem_of_find?_eq_some hfind)
  refine OrderRow.solid_of_ne ?_
  rw [creates] at hr
  split at hr
  · cases hr
    exact RowStatus.noConfusion
  · split at hr
    · cases hr
      exact RowStatus.noConfusion
    · cases hr
  · cases hr

namespace ShardDb

variable {route : ℕ → ℕ} {id : ℕ} {db : ShardDb} {done rest : List ExecutionEvent}
  {txs : List Transaction}

/-- A row of a run that shows `FILLED` is full. -/
theorem Kept.solid_run (h : Kept id done db) (hstream : OrderStream id (done ++ rest))
    (hdelivers : Delivers id done rest txs) (hsolid : ∀ row ∈ db.orders id, row.Solid) :
    ∀ row ∈ (db.run route txs).orders id, row.Solid := by
  induction hdelivers generalizing db with
  | nil done => exact hsolid
  | commands records _ ih =>
    obtain ⟨hkept, horders⟩ := h.commands route hstream.left.sorted records
    refine ih hkept hstream fun row hrow => ?_
    rw [mem_def] at hrow
    obtain hold | ⟨-, hnew⟩ := or_eq_some_iff.mp (horders.symm.trans hrow)
    · obtain ⟨row', hrow', rfl⟩ := map_eq_some_iff.mp hold
      exact (hsolid row' hrow').marked id records
    · obtain ⟨row', hrow', rfl⟩ := map_eq_some_iff.mp hnew
      exact ((CommandRecord.solid_of_rowOf hrow').marked id records).after _
  | sweep tables _ ih =>
    obtain ⟨hkept, horders⟩ := h.sweep route tables
    exact ih hkept hstream fun row hrow => hsolid row (by rwa [← horders])
  | executions hnew hold _ ih =>
    rw [← append_assoc] at hstream
    obtain ⟨hkept, horders⟩ := h.executions route hstream.left hnew hold
    refine ih hkept hstream fun row hrow => ?_
    rw [mem_def] at hrow
    obtain ⟨row', hrow', rfl⟩ := map_eq_some_iff.mp (horders.symm.trans hrow)
    exact (hsolid row' hrow').after _

/-- **A final row stays** while nothing touches it and no event comes, or while it is full. -/
theorem Kept.stays (h : Kept id done db) (hstream : OrderStream id (done ++ rest))
    (hdelivers : Delivers id done rest txs) {row : OrderRow} (hrow : db.orders id = some row)
    (hsolid : row.Solid)
    (hquiet : ∀ r ∈ txs.flatMap Transaction.records, ¬ r.Touches id row.userId)
    (hfinal : row.status = .filled ∨ rest = []) :
    ∃ row', (db.run route txs).orders id = some row' ∧ row'.status = row.status := by
  induction hdelivers generalizing db row with
  | nil done => exact ⟨row, hrow, rfl⟩
  | @commands done rest txs records _ ih =>
    obtain ⟨hkept, horders⟩ := h.commands route hstream.left.sorted records
    obtain ⟨hnow, hlater⟩ := forall_mem_append.mp hquiet
    have hmarked : row.marked id records = row := OrderRow.marked_of_not_touches hnow
    rw [hrow, map_some, some_or, hmarked] at horders
    exact ih hkept hstream horders hsolid hlater hfinal
  | sweep tables _ ih =>
    obtain ⟨hkept, horders⟩ := h.sweep route tables
    exact ih hkept hstream (horders.trans hrow) hsolid hquiet hfinal
  | @executions done chunk rest events txs hnew hold _ ih =>
    rw [← append_assoc] at hstream
    obtain ⟨hkept, horders⟩ := h.executions route hstream.left hnew hold
    rw [hrow, map_some] at horders
    have hsame : (row.after chunk).status = row.status ∧
        ((row.after chunk).status = .filled ∨ rest = []) := by
      obtain hfilled | hnone := hfinal
      · have hafter := OrderRow.status_after_of_filled hsolid hfilled chunk
        exact ⟨hafter.trans hfilled.symm, .inl hafter⟩
      · obtain ⟨rfl, rfl⟩ := append_eq_nil_iff.mp hnone
        exact ⟨rfl, .inr rfl⟩
    obtain ⟨row', hrow', hstatus⟩ := ih hkept hstream horders (hsolid.after chunk)
      (by rwa [OrderRow.userId_after]) hsame.2
    exact ⟨row', hrow', hstatus.trans hsame.1⟩

/-- The engine is done with an order: somewhere in the log no book has it any more, the events up
to there were delivered, and no later command names it. -/
def Concluded (config : ProcessorConfig) (group : ℕ) (ω : ℕ → ℕ → Oracle)
    (log : List (ℕ × ℕ × List Command)) (id : ℕ) (done : List ExecutionEvent) : Prop :=
  ∃ earlier later p events, log = earlier ++ later ∧
    (Processor.fresh config).emit group ω earlier = some (p, events) ∧
    (∀ i, (p.engineFor i).book.Lacks id) ∧
    (events.filter fun e => e.targetOrderId = id) <+: done ∧
    ∀ part ∈ later, ∀ c ∈ Command.allLeaves part.2.2, id ∉ c.names

/-- **Final statuses are absorbing, if the order is left alone.** A processor runs a log, and the
transactions `txs` and then `txs'` deliver the events `done` and then `rest` of an order, with
copies, among any commands. Take the row after `txs`. If no later command marks or amends it, and
if it shows `FILLED` or the engine is done with the order, then its status is the same after
`txs'`. -/
theorem final_status_absorbing (route : ℕ → ℕ) {config : ProcessorConfig} {group id : ℕ}
    {ω : ℕ → ℕ → Oracle} {log : List (ℕ × ℕ × List Command)} {p : Processor}
    {events : List ExecutionEvent}
    (hin : ∀ part ∈ log, ∀ c ∈ Command.allLeaves part.2.2, c.InRange)
    (hrun : (Processor.fresh config).emit group ω log = some (p, events))
    (hstream : done ++ rest <+: events.filter fun e => e.targetOrderId = id)
    (hordered : (done ++ rest).Pairwise ExecutionEvent.Before) {txs' : List Transaction}
    (hdelivers : Delivers id [] done txs) (hdelivers' : Delivers id done rest txs')
    {row : OrderRow} (hrow : (empty.run route txs).orders id = some row)
    (hquiet : ∀ r ∈ txs'.flatMap Transaction.records, ¬ r.Touches id row.userId)
    (hfinal : row.status = .filled ∨ Concluded config group ω log id done) :
    ∃ row', (empty.run route (txs ++ txs')).orders id = some row' ∧ row'.status = row.status := by
  obtain ⟨more, hmore⟩ := hstream
  have hbacked : Backed 0 (done ++ rest) := by
    have hall := Processor.backed_of_emit hrun id
    rw [← hmore] at hall
    exact (backed_append.mp hall).1
  have htarget : ∀ e ∈ done ++ rest, e.targetOrderId = id := by
    intro e he
    have hmem : e ∈ events.filter fun e => e.targetOrderId = id :=
      hmore ▸ mem_append_left more he
    exact of_decide_eq_true (mem_filter.mp hmem).2
  have horder : OrderStream id (done ++ rest) := ⟨hordered, hbacked, htarget⟩
  have hkept : Kept id done (empty.run route txs) := (Kept.empty id).run horder.left hdelivers
  have hsolid : row.Solid := (Kept.empty id).solid_run horder.left hdelivers
    (nofun) row hrow
  have hfinal : row.status = .filled ∨ rest = [] := by
    refine hfinal.imp_right ?_
    rintro ⟨earlier, later, p₁, events₁, rfl, hearlier, hlacks, hdone, hunnamed⟩
    obtain ⟨hin₁, hin₂⟩ := forall_mem_append.mp hin
    obtain ⟨events₂, hlater, rfl⟩ := Processor.emit_append hrun hearlier
    have hforgot : p₁.Forgot id :=
      ⟨(Processor.catalogued_fresh config).emit hin₁ hearlier, hlacks⟩
    have hnone := hforgot.emit
      (fun part hpart c hc => ⟨hin₂ part hpart c hc, hunnamed part hpart c hc⟩) hlater
    rw [filter_append, hnone, append_nil] at hmore
    obtain ⟨tail, rfl⟩ := hdone
    have hlength := congrArg List.length hmore
    simp only [length_append] at hlength
    exact length_eq_zero_iff.mp (by omega)
  rw [run, foldl_append]
  exact hkept.stays horder hdelivers' hrow hsolid hquiet hfinal

/-- An offer is placed and withdrawn, then another one is placed. -/
def withdrawnLog : List (ℕ × ℕ × List Command) :=
  [(1, 0, [.new (Order.limit 1 .sell 60 5)]), (2, 0, [.cancel 0 1 2]),
    (3, 0, [.new (Order.limit 3 .sell 61 5)])]

/-- The events for the first offer. -/
def withdrawnStream : List ExecutionEvent :=
  [⟨7, 1, 0, 1, .accepted, 0⟩, ⟨7, 1, 1, 1, .resting, 0⟩, ⟨7, 2, 0, 1, .cancelled, 0⟩]

/-- The commands for the first offer as they are projected. -/
def withdrawnRecords : List CommandRecord :=
  [⟨9, .new (Order.limit 1 .sell 60 5)⟩, ⟨9, .cancel 0 1 2⟩]

/-- The row of a withdrawn offer stays `CANCELLED` while another offer is projected and all events
come again. -/
theorem final_status_absorbing_withdrawn : ∃ row',
    (empty.run (fun _ => 0) ([.commands withdrawnRecords, .executions withdrawnStream] ++
      [.commands [⟨9, .new (Order.limit 3 .sell 61 5)⟩], .executions withdrawnStream])).orders 1 =
        some row' ∧ row'.status = .cancelled := by
  have hrun : ((Processor.fresh Processor.defaultConfig).emit 7 (fun _ _ => default)
      withdrawnLog).map (fun r => r.2.filter fun e => e.targetOrderId = 1) =
        some withdrawnStream := by decide +kernel
  have hearlier : ((Processor.fresh Processor.defaultConfig).emit 7 (fun _ _ => default)
      (withdrawnLog.take 2)).map (fun r =>
        (r.1.engines.toList.map fun e => e.2.book.locate.toList,
          r.2.filter fun e => e.targetOrderId = 1)) = some ([[]], withdrawnStream) := by
    decide +kernel
  obtain ⟨⟨p, events⟩, hrun, hevents⟩ := map_eq_some_iff.mp hrun
  obtain ⟨⟨p₁, events₁⟩, hrun₁, hstate⟩ := map_eq_some_iff.mp hearlier
  obtain ⟨hindex, hevents₁⟩ := Prod.mk.inj hstate
  have hlacks : ∀ i, (p₁.engineFor i).book.Lacks 1 := by
    intro i
    rw [Processor.engineFor]
    cases hi : p₁.engines[i]? with
    | none => rfl
    | some e =>
      have hmem := ExtTreeMap.mem_toList_iff_getElem?_eq_some.mpr hi
      have hnil : e.book.locate.toList = [] := mem_singleton.mp
        (hindex ▸ List.mem_map_of_mem (f := fun e => e.2.book.locate.toList) hmem)
      refine eq_none_iff_forall_ne_some.mpr fun slot hslot => ?_
      have hentry := ExtTreeMap.mem_toList_iff_getElem?_eq_some.mpr hslot
      rw [show (some e).getD _ = e from rfl, hnil] at hentry
      cases hentry
  have hdelivers : Delivers 1 [] (withdrawnStream ++ [])
      [.commands withdrawnRecords, .executions withdrawnStream] :=
    .commands _ (.executions (fun _ he => he) (fun _ he _ => he) (.nil _))
  have hagain : Delivers 1 withdrawnStream ([] ++ [])
      [.commands [⟨9, .new (Order.limit 3 .sell 61 5)⟩], .executions withdrawnStream] :=
    .commands _ (.executions (fun _ he => absurd he not_mem_nil)
      (fun _ he _ => mem_append_left _ he) (.nil _))
  have hin : ∀ part ∈ withdrawnLog, ∀ c ∈ Command.allLeaves part.2.2, c.InRange := by
    have hone : ∀ {c : Command}, c.Single → c.InRange →
        ∀ c' ∈ Command.allLeaves [c], c'.InRange := by
      intro c hs hr
      rw [Command.allLeaves, Command.allLeaves, Command.leaves_of_single hs]
      exact forall_mem_singleton.mpr hr
    refine forall_mem_cons.mpr ⟨hone trivial ?_, forall_mem_cons.mpr ⟨hone trivial ?_,
      forall_mem_singleton.mpr (hone trivial ?_)⟩⟩
    · exact (by decide : (Order.limit 1 .sell 60 5).InRange)
    · exact ⟨by decide, by decide, by decide⟩
    · exact (by decide : (Order.limit 3 .sell 61 5).InRange)
  refine final_status_absorbing (fun _ => 0) hin hrun
    ⟨[], by rw [append_nil, append_nil]; exact hevents.symm⟩ (by decide) hdelivers hagain
    (show _ = some ⟨9, 5, 0, .cancelled⟩ by decide +kernel) ?_ (.inr ?_)
  · refine forall_mem_singleton.mpr ?_
    rintro ⟨hcancels | ⟨newQty, hmodifies⟩, -⟩
    · cases hcancels
    · cases hmodifies
  · exact ⟨withdrawnLog.take 2, withdrawnLog.drop 2, p₁, events₁, rfl, hrun₁, hlacks,
      ⟨[], by rw [append_nil]; exact hevents₁⟩, by decide⟩

/-- **A cancellation that comes again reopens the row.** The offer was withdrawn and its row shows
`CANCELLED`. The same command is projected once more, and the row shows `CANCEL_PENDING`, for which
no event will ever come. -/
theorem redelivered_cancel_reopens : ∃ p,
    (Processor.fresh Processor.defaultConfig).emit 7 (fun _ _ => default) (withdrawnLog.take 2) =
        some (p, withdrawnStream) ∧
      (p.engineFor 0).book.Lacks 1 ∧
      ((empty.run (fun _ => 0) [.commands withdrawnRecords,
        .executions withdrawnStream]).orders 1).map OrderRow.status = some .cancelled ∧
      ((empty.run (fun _ => 0) ([.commands withdrawnRecords, .executions withdrawnStream] ++
        [.commands [⟨9, .cancel 0 1 2⟩]])).orders 1).map OrderRow.status =
          some .cancelPending := by
  have hrun : ((Processor.fresh Processor.defaultConfig).emit 7 (fun _ _ => default)
      (withdrawnLog.take 2)).map (fun r => ((r.1.engineFor 0).book.locate[1]?, r.2)) =
        some (none, withdrawnStream) := by decide +kernel
  obtain ⟨⟨p, events⟩, hrun, hstate⟩ := map_eq_some_iff.mp hrun
  obtain ⟨hlacks, rfl⟩ := Prod.mk.inj hstate
  exact ⟨p, hrun, hlacks, by decide +kernel, by decide +kernel⟩

end ShardDb

end TradeCore
