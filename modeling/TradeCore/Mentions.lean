import TradeCore.Batch
import TradeCore.SelfTrade
import TradeCore.Tape
import TradeCore.Projection
import TradeCore.IterationOrder

/-!
# Which Orders Reports Are About

A report is about the order that its command names, or about an order that the engine has. So
once no book has an order in its id index, nothing is reported about it until a command names it
again (`Processor.silent_of_processAll`).

What rests is not asked here: an entry of the id index may lead to the record of another order
after the slot numbers have wrapped around, and all that is used is that the entries of the index
only go, except for that of an order that comes to rest (`OrderBook.Files`).
-/

open Std List Option

namespace TradeCore

variable {ids : List ℕ} {e : MatchingEngine} {b b' : OrderBook}

namespace OrderBook

variable {id : ℕ}

/-- The id index does not have the order. -/
def Lacks (b : OrderBook) (id : ℕ) : Prop := b.locate[id]? = none

/-- The id index leads to slot numbers of the pool. -/
def Filed (b : OrderBook) : Prop := ∀ id slot : ℕ, b.locate[id]? = some slot → slot < 2 ^ 32

/-- Only the given ids are new in the id index of `b'`. -/
def Files (b b' : OrderBook) (ids : List ℕ) : Prop :=
  ∀ id slot : ℕ, b'.locate[id]? = some slot →
    b.locate[id]? = some slot ∨ id ∈ ids ∧ slot < 2 ^ 32

theorem files_refl (b : OrderBook) (ids : List ℕ) : b.Files b ids := fun _ _ h => .inl h

/-- Thinning adds nothing to the id index. -/
theorem Thinned.files (h : b.Thinned b' ids) : b.Files b' [] :=
  fun id slot hslot => .inl (h.located id slot hslot)

theorem Files.trans {a c : OrderBook} (h : a.Files b []) (h' : b.Files c ids) :
    a.Files c ids := by
  intro id slot hslot
  obtain hb | hnew := h' id slot hslot
  · obtain ha | ⟨hmem, -⟩ := h id slot hb
    · exact .inl ha
    · cases hmem
  · exact .inr hnew

theorem Files.filed (h : b.Files b' ids) (hb : b.Filed) :
    b'.Filed := fun id slot hslot => (h id slot hslot).elim (hb id slot) And.right

theorem Lacks.files (h : b.Lacks id) (hf : b.Files b' ids) (hid : id ∉ ids) :
    b'.Lacks id := by
  rw [Lacks, eq_none_iff_forall_ne_some]
  intro slot hslot
  obtain hb | ⟨hmem, -⟩ := hf id slot hslot
  · exact some_ne_none slot (hb.symm.trans h)
  · exact hid hmem

theorem Lacks.ne_of_rests (h : b.Lacks id) {o : Order} (ho : b.Rests o) :
    o.id ≠ id := by
  rintro rfl
  obtain ⟨i, -, hloc, -, -⟩ := ho
  exact some_ne_none i (hloc.symm.trans h)

/-- A cancelled record rested, under whatever id it was found. -/
theorem rests_of_cancel (hb : b.Charted) (hfiled : b.Filed) {o : Order}
    (hc : b.cancel id = some (some o, b')) : b.Rests o := by
  obtain ⟨-, hnone, -⟩ | ⟨slot, o', lv, counts, hs, hsome, -⟩ := cancel_eq_some hc
  · cases hnone
  · cases hsome
    have hslot := hfiled id slot hs.located
    exact ⟨slot, hslot, hb.indexed slot o hslot hs.record hs.pos, hs.record, hs.pos⟩

theorem files_insert (hb : b.Charted) {order : Order} (h : b.insert order = some b') :
    b.Files b' [order.id] := by
  obtain ⟨slot, pool, x, counts, -, -, halloc, -, -, rfl⟩ := insert_eq_some h
  have hslot := hb.alloc_lt halloc
  intro id slot' hslot'
  change (b.locate.insert order.id slot)[id]? = some slot' at hslot'
  rw [getElem?_insert_nat] at hslot'
  split at hslot'
  · rename_i hid
    cases hslot'
    exact .inr ⟨mem_singleton.mpr hid, hslot⟩
  · exact .inl hslot'

/-- The ids that a book gives for a user are in its index. -/
theorem not_lacks_of_mem_ordersOfUser {ω : HashOrder} {user : ℕ}
    (h : b.ordersOfUser ω user = some ids) (hid : id ∈ ids) : ¬ b.Lacks id := by
  obtain ⟨⟨id', slot⟩, he, rfl⟩ := List.mem_map.mp ((perm_openIds h).mem_iff.mp hid)
  have hloc := ExtTreeMap.mem_toList_iff_getElem?_eq_some.mp (mem_filter.mp he).1
  exact fun hlacks => some_ne_none slot (hloc.symm.trans hlacks)

end OrderBook

namespace MatchingEngine

variable {e' : MatchingEngine}

theorem submit_files (h : e.book.Charted) {order : Order} {report : SubmitReport}
    (hs : e.submit order = some (e', report)) : e.book.Files e'.book [order.id] := by
  obtain ⟨-, -, -, b, ⟨ids, ht⟩, heq | ⟨rest, hrest, hins⟩⟩ := submit_slab h hs
  · rw [heq]
    exact ht.files.trans (OrderBook.files_refl _ _)
  · have hinsert := OrderBook.files_insert (h.wears ht.wears) hins
    rw [hrest.same] at hinsert
    exact ht.files.trans hinsert

/-- What a pull for a user does to the id index, and which ids it gives. -/
theorem cancelAllForUser_files (ht : e.book.Tidy) {ω : HashOrder} {user : ℕ}
    (h : e.cancelAllForUser ω user = some (e', ids)) :
    e.book.Files e'.book [] ∧ ∀ id ∈ ids, ¬ e.book.Lacks id := by
  refine ⟨(cancelAllForUser_slab ht h).1.files, ?_⟩
  rw [cancelAllForUser, bind_eq_bind, bind_eq_some_iff] at h
  obtain ⟨ids', hids, h⟩ := h
  rw [bind_eq_bind, bind_eq_some_iff] at h
  obtain ⟨book, -, heq⟩ := h
  cases heq
  exact fun id => OrderBook.not_lacks_of_mem_ordersOfUser hids

end MatchingEngine

/-- The order ids that reports of a command may be about even if no book has them: those that it
names, its own id, under which a retry is rejected, and zero where the report is about no order. -/
def Command.names : Command → List ℕ
  | .new order => [order.id]
  | .cancel _ orderId cmdId | .modify _ orderId _ _ cmdId => [orderId, cmdId]
  | .forceClose _ _ closeOrderId _ _ => [closeOrderId]
  | .halt _ cmdId | .resume _ cmdId | .haltUser _ _ cmdId | .resumeUser _ _ cmdId => [0, cmdId]
  | .batch _ => []

theorem Command.id_mem_names {cmd : Command} (h : cmd.Single) : cmd.id ∈ cmd.names := by
  cases cmd with
  | batch cmds => cases h
  | _ => simp [id, names]

/-- A batch that answers with an id answers with that of a command in it. -/
theorem Command.exists_leaf_id {cmd : Command} (h : cmd.id ≠ 0) :
    ∃ c ∈ cmd.leaves, c.id = cmd.id ∧ c.Single := by
  obtain ⟨l, rest, hl, hid, -⟩ := Command.exists_leaves_cons h
  have hmem : l ∈ cmd.leaves := by rw [hl]; exact mem_cons_self
  exact ⟨l, hmem, hid, (Command.map_schedule.1 cmd fun _ => 1).2 l hmem⟩

namespace Processor

variable {cmd : Command} {ω : HashOrder} {reports : List ExecReport}

/-- The books are as processors leave them. -/
structure Catalogued (p : Processor) : Prop where
  charted : p.Charted
  filed : ∀ i, (p.engineFor i).book.Filed

/-- No engine has the order. -/
structure Forgot (p : Processor) (id : ℕ) : Prop extends p.Catalogued where
  lacks : ∀ i, (p.engineFor i).book.Lacks id

variable {p p' : Processor} {id : ℕ}

/-- The trades of another order with the book say nothing about a forgotten one. -/
theorem silent_of_submit {e' : MatchingEngine} {order : Order} {report : SubmitReport}
    (hcharted : e.book.Charted) (hlacks : e.book.Lacks id) (hid : order.id ≠ id)
    (hsubmit : e.submit order = some (e', report)) (instrument : ℕ) :
    ∀ t ∈ report.trades, id ∉ (p.tradeReport instrument t).targetOrderIds := by
  obtain ⟨taker, htaker, -, -, -, htrades⟩ := MatchingEngine.submit_trades hcharted hsubmit
  intro t ht
  obtain ⟨o, ho, hmaker, -⟩ := (htrades t ht).maker
  have hmaker : t.maker ≠ id := hmaker ▸ hlacks.ne_of_rests ho
  have htaker : t.taker ≠ id := by
    rw [(htrades t ht).taker, htaker]
    exact hid
  rw [tradeReport, ExecReport.targetOrderIds]
  split <;> simp [htaker.symm, hmaker.symm]

theorem files_setEngine {instrument : ℕ} (h : (p.engineFor instrument).book.Files e.book ids)
    (i : ℕ) :
    (p.engineFor i).book.Files ((p.setEngine instrument e).engineFor i).book ids := by
  by_cases hi : i = instrument
  · subst hi
    rwa [engineFor_setEngine_self]
  · rw [engineFor_setEngine_ne _ _ _ hi]
    exact OrderBook.files_refl _ _

theorem charted_of_pull (hp : p.Charted) {instrument user : ℕ}
    (hpull : (p.engineFor instrument).cancelAllForUser ω user = some (e, ids)) :
    (p.setEngine instrument e).Charted := by
  intro i
  by_cases hi : i = instrument
  · subst hi
    rw [engineFor_setEngine_self]
    exact (hp i).wears (MatchingEngine.cancelAllForUser_slab (hp i).tidy hpull).1.wears
  · rw [engineFor_setEngine_ne _ _ _ hi]
    exact hp i

/-- What the pull before a closing order does to the id indexes, and what it reports. -/
theorem Enters.files {q : Processor} {pulled : List ExecReport} {order : Order} (hp : p.Charted)
    (h : p.Enters ω cmd q pulled order) :
    q.Charted ∧ (∀ i, (p.engineFor i).book.Files (q.engineFor i).book []) ∧
      order.id ∈ cmd.names ∧ ∀ id, (∀ i, (p.engineFor i).book.Lacks id) →
        ∀ r ∈ pulled, id ∉ r.targetOrderIds := by
  cases h with
  | new order =>
    exact ⟨hp, fun i => OrderBook.files_refl _ _, mem_cons_self, fun _ _ _ hr => nomatch hr⟩
  | @close instrument _ _ _ _ _ _ hpull _ =>
    obtain ⟨hfiles, hids⟩ := MatchingEngine.cancelAllForUser_files (hp _).tidy hpull
    refine ⟨charted_of_pull hp hpull, files_setEngine hfiles, mem_cons_self,
      fun id hlacks => List.forall_mem_map.mpr fun i hi hmem => ?_⟩
    obtain rfl : id = i := mem_singleton.mp hmem
    exact hids id hi (hlacks instrument)

/-- **What a command adds to the id indexes**: the order that it names, or one that rested. -/
theorem apply_files (hp : p.Catalogued) (hs : cmd.Single) (h : p.apply ω cmd = some (p', reports)) :
    ∃ ids, (∀ i, (p.engineFor i).book.Files (p'.engineFor i).book ids) ∧
      ∀ j ∈ ids, j ∈ cmd.names ∨ ∃ i o, (p.engineFor i).book.Rests o ∧ o.id = j := by
  have hnone : ∀ j ∈ ([] : List ℕ), j ∈ cmd.names ∨
      ∃ i o, (p.engineFor i).book.Rests o ∧ o.id = j := nofun
  cases apply_does h with
  | @enters _ q _ order _ _ hcmd hnew =>
    obtain ⟨hq, hfiles, horder, -⟩ := hcmd.files hp.charted
    refine ⟨[order.id], fun i => (hfiles i).trans ?_, forall_mem_singleton.mpr (.inl horder)⟩
    cases hnew with
    | refused _ hengine =>
      rw [hengine]
      exact OrderBook.files_refl _ _
    | accepted _ hv hsubmit hengine =>
      rw [hengine, ← hv.id]
      exact files_setEngine (MatchingEngine.submit_files (hq _) hsubmit) i
  | @cancel instrument _ _ _ _ hcancel =>
    have ht := (MatchingEngine.cancel_slab (hp.charted instrument).tidy hcancel).1
    exact ⟨[], files_setEngine ht.files, hnone⟩
  | @modify instrument _ _ _ _ _ _ hmodify =>
    have hcharted := hp.charted instrument
    rcases MatchingEngine.modify_slab hcharted.tidy hmodify with
      ⟨ht, -, -⟩ | ⟨o, book, report, -, hcancel, ht, hsubmit, -⟩
    · exact ⟨[], files_setEngine ht.files, hnone⟩
    · refine ⟨[o.id], files_setEngine (ht.files.trans (MatchingEngine.submit_files
        (hcharted.wears ht.wears) hsubmit)), forall_mem_singleton.mpr (.inr ?_)⟩
      exact ⟨instrument, o, OrderBook.rests_of_cancel hcharted (hp.filed instrument) hcancel, rfl⟩
  | pull hpull =>
    exact ⟨[], files_setEngine
      (MatchingEngine.cancelAllForUser_files (hp.charted _).tidy hpull).1, hnone⟩
  | halt | resume | haltUser | resumeUser => exact ⟨[], fun i => OrderBook.files_refl _ _, hnone⟩
  | batch => cases hs

theorem Catalogued.apply (hp : p.Catalogued) (hs : cmd.Single) (hr : cmd.InRange)
    (h : p.apply ω cmd = some (p', reports)) :
    p'.Catalogued := by
  obtain ⟨ids, hfiles, -⟩ := apply_files hp hs h
  exact ⟨hp.charted.apply hs hr h, fun i => (hfiles i).filed (hp.filed i)⟩

theorem Catalogued.dedupe (hp : p.Catalogued) (cmd : Command) : (p.dedupe cmd).1.Catalogued :=
  ⟨hp.charted.dedupe cmd, fun i => by rw [engineFor_dedupe]; exact hp.filed i⟩

theorem catalogued_fresh (config : ProcessorConfig) : (fresh config).Catalogued := by
  refine ⟨charted_fresh config, fun i id slot hslot => ?_⟩
  simp only [engineFor, fresh, ExtTreeMap.getElem?_empty, getD_none] at hslot
  cases hslot

/-- Commands keep the books as processors leave them. -/
theorem Catalogued.processAll (hp : p.Catalogued) {ω : Oracle} {i : ℕ} {cmds : List Command}
    (hr : ∀ c ∈ Command.allLeaves cmds, c.InRange)
    (h : p.processAll ω i cmds = some (p', reports)) :
    p'.Catalogued := by
  obtain ⟨es, htrace, -⟩ := @trace_of_processAll _ _ undisturbed (fun _ c => c.InRange) _ _ _ cmds
    h fun _ => hr
  exact htrace.invariant (fun p cmd hp => hp.dedupe cmd)
    (fun p ω cmd p' reports hs hr hp h => hp.apply hs hr h) (fun p p' hp h => h.elim) hp

/-- **A command that does not name a forgotten order** says nothing about it. -/
theorem Forgot.silent_of_apply (hp : p.Forgot id) (hname : id ∉ cmd.names)
    (h : p.apply ω cmd = some (p', reports)) : ∀ r ∈ reports, id ∉ r.targetOrderIds := by
  have hown : ∀ {i : ℕ}, i ∈ cmd.names → id ∉ [i] := fun hi hmem =>
    hname (mem_singleton.mp hmem ▸ hi)
  cases apply_does h with
  | @enters _ q _ order _ _ hcmd hnew =>
    obtain ⟨hq, hfiles, horder, hpulled⟩ := hcmd.files hp.charted
    refine forall_mem_append.mpr ⟨hpulled id hp.lacks, ?_⟩
    cases hnew with
    | refused => exact forall_mem_singleton.mpr (hown horder)
    | @accepted _ _ report _ hv hsubmit =>
      have hlacks := (hp.lacks _).files (hfiles order.instrument) not_mem_nil
      obtain ⟨hstp, -⟩ := MatchingEngine.submit_prevented hsubmit (hq _)
      rw [← hv.id] at horder
      refine forall_mem_acceptReports.mpr ⟨hown horder, fun _ i hi hmem => ?_,
        silent_of_submit (hq _) hlacks (fun hid => hname (hid ▸ horder)) hsubmit _, ?_⟩
      · obtain ⟨-, -, o, ho, rfl, -⟩ := hstp i hi
        exact hlacks.ne_of_rests ho (mem_singleton.mp hmem).symm
      · cases report.status <;> exact hown horder
  | cancel =>
    refine forall_mem_singleton.mpr ?_
    split <;> exact hown mem_cons_self
  | @modify instrument _ newPrice newQty _ _ _ hmodify =>
    rcases MatchingEngine.modify_eq_some hmodify with ⟨rfl, -⟩ | ⟨rfl, -⟩ | ⟨rfl, -⟩ |
      ⟨o, book, report, -, hcancel, hsubmit, rfl⟩
    · exact forall_mem_singleton.mpr (hown mem_cons_self)
    · exact forall_mem_singleton.mpr (hown mem_cons_self)
    · exact forall_mem_singleton.mpr (hown mem_cons_self)
    · -- the record that re-enters rested, so it is not the forgotten one
      have hcharted := hp.charted instrument
      have ht := hcharted.tidy.cancel hcancel
      have ho := OrderBook.rests_of_cancel hcharted (hp.filed instrument) hcancel
      have hid : (o.requote newPrice newQty).id ≠ id := show o.id ≠ id from
        (hp.lacks instrument).ne_of_rests ho
      have hlacks := (hp.lacks instrument).files ht.files not_mem_nil
      exact forall_mem_requoted (silent_of_submit (hcharted.wears ht.wears) hlacks hid hsubmit _)
        (hown mem_cons_self) (fun _ => hown mem_cons_self) (hown mem_cons_self)
  | @pull instrument _ _ _ _ _ hpull =>
    refine List.forall_mem_map.mpr fun i hi hmem => ?_
    obtain rfl : id = i := mem_singleton.mp hmem
    exact (MatchingEngine.cancelAllForUser_files (hp.charted _).tidy hpull).2 id hi
      (hp.lacks instrument)
  | halt | resume | haltUser | resumeUser => exact forall_mem_singleton.mpr (hown mem_cons_self)
  | batch => exact nofun

theorem Forgot.apply (hp : p.Forgot id) (hs : cmd.Single) (hr : cmd.InRange)
    (hname : id ∉ cmd.names) (h : p.apply ω cmd = some (p', reports)) :
    p'.Forgot id ∧ ∀ r ∈ reports, id ∉ r.targetOrderIds := by
  obtain ⟨ids, hfiles, hids⟩ := apply_files hp.toCatalogued hs h
  refine ⟨⟨hp.toCatalogued.apply hs hr h, fun i => (hp.lacks i).files (hfiles i) fun hid => ?_⟩,
    hp.silent_of_apply hname h⟩
  obtain hmem | ⟨j, o, ho, hoid⟩ := hids id hid
  · exact hname hmem
  · exact (hp.lacks j).ne_of_rests ho hoid

theorem Forgot.dedupe (hp : p.Forgot id) (cmd : Command) : (p.dedupe cmd).1.Forgot id :=
  ⟨hp.toCatalogued.dedupe cmd, fun i => by rw [engineFor_dedupe]; exact hp.lacks i⟩

/-- Commands without an id are never retries. -/
theorem id_ne_zero_of_dedupe {p₁ : Processor} {report : ExecReport}
    (h : p.dedupe cmd = (p₁, some report)) : cmd.id ≠ 0 := by
  intro hzero
  have hstream : cmd.stream.1 = 0 := by
    cases cmd with
    | batch cmds => rfl
    | _ => exact hzero
  rw [Processor.dedupe, if_pos hzero] at h
  simp [advance, hstream] at h

/-- A command that is not about a forgotten order may be rejected as a retry. -/
theorem Forgot.gated (hp : p.Forgot id) (hid : cmd.id ≠ 0 → cmd.id ≠ id)
    {apply : Processor → Option (Processor × List ExecReport)}
    (h : p.gated cmd apply = some (p', reports))
    (happly : ∀ p₁, p₁.Forgot id → apply p₁ = some (p', reports) →
      p'.Forgot id ∧ ∀ r ∈ reports, id ∉ r.targetOrderIds) :
    p'.Forgot id ∧ ∀ r ∈ reports, id ∉ r.targetOrderIds := by
  have hdedupe := hp.dedupe cmd
  obtain ⟨hadm, rfl⟩ | ⟨p₁, hadm, h⟩ := gated_eq_some h
  · rw [hadm] at hdedupe
    refine ⟨hdedupe, forall_mem_singleton.mpr ?_⟩
    exact fun hmem => hid (id_ne_zero_of_dedupe hadm) (mem_singleton.mp hmem).symm
  · rw [hadm] at hdedupe
    exact happly p₁ hdedupe h

/-- **Commands that do not name a forgotten order** say nothing about it. -/
theorem silent_of_processAll {p p' : Processor} {id : ℕ} {ω : Oracle} {i : ℕ} (hp : p.Forgot id)
    (cmds : List Command) (h : p.processAll ω i cmds = some (p', reports))
    (hcmds : ∀ c ∈ Command.allLeaves cmds, c.InRange ∧ id ∉ c.names) :
    p'.Forgot id ∧ ∀ r ∈ reports, id ∉ r.targetOrderIds := by
  refine (Command.induct
    (P := fun cmd => ∀ (p p' : Processor) ω reports, p.Forgot id →
      p.process ω cmd = some (p', reports) → (∀ c ∈ cmd.leaves, c.InRange ∧ id ∉ c.names) →
      p'.Forgot id ∧ ∀ r ∈ reports, id ∉ r.targetOrderIds)
    (Q := fun cmds => ∀ (p p' : Processor) ω i reports, p.Forgot id →
      p.processAll ω i cmds = some (p', reports) →
      (∀ c ∈ Command.allLeaves cmds, c.InRange ∧ id ∉ c.names) →
      p'.Forgot id ∧ ∀ r ∈ reports, id ∉ r.targetOrderIds)
    ?_ ?_ ?_ ?_).2 cmds p p' ω i reports hp h hcmds
  · intro cmd hs p p' ω reports hp h hcmd
    rw [Command.leaves_of_single hs] at hcmd
    obtain ⟨hr, hname⟩ := hcmd cmd mem_cons_self
    rw [Processor.process_of_single p ω hs] at h
    exact hp.gated (fun _ hid => hname (hid ▸ Command.id_mem_names hs)) h
      fun p₁ hp₁ happly => hp₁.apply hs hr hname happly
  · intro cmds ih p p' ω reports hp h hcmd
    rw [process] at h
    refine hp.gated (fun hne hid => ?_) h fun p₁ hp₁ happly => ?_
    · obtain ⟨c, hc, hcid, hs⟩ := Command.exists_leaf_id hne
      exact (hcmd c hc).2 (hid ▸ hcid ▸ Command.id_mem_names hs)
    · rw [Command.leaves] at hcmd
      exact ih _ _ _ _ _ hp₁ happly hcmd
  · intro p p' ω i reports hp h _
    rw [processAll] at h
    cases h
    exact ⟨hp, fun r hr => absurd hr not_mem_nil⟩
  · intro cmd cmds ih ihs p p' ω i reports hp h hcmds
    rw [Command.allLeaves] at hcmds
    obtain ⟨p₁, r₁, r₂, h₁, h₂, rfl⟩ := processAll_cons_eq_some h
    obtain ⟨hp₁, hr₁⟩ := ih _ _ _ _ hp h₁ fun c hc => hcmds c (mem_append_left _ hc)
    obtain ⟨hp₂, hr₂⟩ := ihs _ _ _ _ _ hp₁ h₂ fun c hc => hcmds c (mem_append_right _ hc)
    exact ⟨hp₂, forall_mem_append.mpr ⟨hr₁, hr₂⟩⟩

end Processor

end TradeCore
