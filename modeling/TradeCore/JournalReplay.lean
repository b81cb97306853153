import TradeCore.Standalone

/-!
# The Journal Against the Live Shard

`replay_journal` promises the original results from the journal of a shard, and `recover_stats`
restores a shard from it. Both filter repeated ids with `accept_replay_command`, while the live
shard answers a repeated id with a rejection, which it journals like any other command.

## Main results

* `StandaloneShard.replay_iff` — the replay of the journal repeats the reports and rebuilds the
  state, whatever its hash orders, exactly if no command repeats an id and no forced liquidation
  has to choose an order among several; the recovery then rebuilds the state, too.
* `StandaloneShard.reused_id_unrecoverable` — after a command that reuses an id, neither the replay
  nor the recovery succeeds.
-/

open Std List Option

namespace TradeCore

variable {entries : List (UInt64 × Frame)} {cmds : List Command}

/-- A frame never holds a batch. -/
theorem Command.OnWire.single {cmd : Command} (h : cmd.OnWire) : cmd.Single := by
  obtain ⟨f, hf⟩ := h
  rw [Frame.toCommand] at hf
  split_ifs at hf <;> cases hf <;> trivial

theorem Command.allLeaves_of_single (h : ∀ c ∈ cmds, c.Single) :
    Command.allLeaves cmds = cmds := by
  induction cmds with
  | nil => rfl
  | cons cmd cmds ih =>
    obtain ⟨hs, hrest⟩ := forall_mem_cons.mp h
    rw [Command.allLeaves, Command.leaves_of_single hs, ih hrest, singleton_append]

theorem Processor.processAll_eq_serve_scheduleAll {p : Processor} {ω : Oracle} {i : ℕ}
    (h : ∀ c ∈ cmds, c.Single) :
    p.processAll ω i cmds = p.serve (Command.scheduleAll ω i cmds) := by
  induction cmds generalizing p i with
  | nil => rfl
  | cons cmd cmds ih =>
    obtain ⟨hs, hrest⟩ := forall_mem_cons.mp h
    rw [processAll_cons, Command.scheduleAll, serve_append, process_eq_serve_of_single hs]
    simp only [ih hrest]

section

variable (hframes : entries.map Prod.snd = cmds.map encodeCommand) (hcmds : ∀ c ∈ cmds, c.OnWire)
include hframes hcmds

/-- The journal of decoded commands is read as the commands. -/
theorem journalEntries_numbered :
    journalEntries (Journal.numbered entries) =
      (cmds.map fun c => (c, encodeCommand c)).map .ok := by
  have hread : journalEntries (Journal.numbered entries) =
      (entries.map Prod.snd).filterMap fun f => f.toCommand.map fun cmd => .ok (cmd, f) := by
    rw [← Journal.map_frame_numbered, filterMap_map]
    rfl
  rw [hread, hframes, filterMap_map, List.map_map, ← filterMap_eq_map]
  refine filterMap_congr fun c hc => ?_
  simp [Frame.toCommand_encodeCommand (hcmds c hc)]

theorem replayJournal_fileWith (ω : Oracle) (strategy : Strategy) (guard : Option PriceGuard) :
    replayJournal ω (some (Journal.fileWith entries)) strategy guard none =
      ((Replayed.start (Processor.fresh
          { Processor.defaultConfig with strategy := strategy, guard := guard })).feedAll
        "journal" ω 0 ((cmds.map fun c => (c, encodeCommand c)).map .ok)).map fun result =>
        result.map fun r => ⟨r.commands, r.reports, fingerprintReports r.reports, r.processor⟩ := by
  have hread : readJournal (Journal.fileWith entries) = .ok (Journal.numbered entries) :=
    Journal.readJournal_encode _
  have hall : ((Journal.numbered entries).takeWhile fun r =>
      (none : Option UInt64).all fun limit => r.tsNanos ≤ limit) = Journal.numbered entries :=
    takeWhile_eq_self_iff.mpr fun _ _ => rfl
  rw [replayJournal]
  simp only [hread, hall, journalEntries_numbered hframes hcmds]

theorem recoverStats_fileWith (hlength : cmds.length < 2 ^ 64) (ω : Oracle) (p : Processor) :
    ∃ lastSeq, recoverStats ω p none (some (Journal.fileWith entries)) =
      ((Replayed.start p).feedAll "journal" ω 0
        ((cmds.map fun c => (c, encodeCommand c)).map .ok)).map fun result =>
          result.map fun r => (r.processor, r.commands, lastSeq) := by
  have hread : readJournal (Journal.fileWith entries) = .ok (Journal.numbered entries) :=
    Journal.readJournal_encode _
  have hlength' : entries.length < 2 ^ 64 := by
    rwa [← length_map Prod.snd, hframes, length_map]
  refine ⟨(Journal.numbered entries).foldl (fun m r => max m r.seq.toNat) 0, ?_⟩
  rw [recoverStats]
  simp only [hread, filter_numbered hlength', journalEntries_numbered hframes hcmds]

end

/-! ### Repeated ids -/

namespace Replayed

/-- **A replay with the hash orders of the live run** has no more reports than the live run, and
fewer if the filter drops a command. -/
theorem length_reports_of_feedAll {log : String} {ω : Oracle} {i : ℕ} {r r' : Replayed}
    {cmds : List Command} {p' : Processor} {reports : List ExecReport}
    (hcmds : ∀ c ∈ cmds, c.Single) (hseen : ∀ id, id ∈ r.seen ↔ id ∈ r.processor.seenCommandIds)
    (hlive : r.processor.processAll ω i cmds = some (p', reports))
    (hreplay : r.feedAll log ω i ((cmds.map fun c => (c, encodeCommand c)).map .ok) =
      some (.ok r')) :
    r'.reports.length ≤ r.reports.length + reports.length ∧
      (r'.reports.length = r.reports.length + reports.length → Command.Unrepeated r.seen cmds) := by
  induction cmds generalizing r i reports with
  | nil =>
    rw [Processor.processAll] at hlive
    cases hlive
    cases hreplay
    exact ⟨le_rfl, fun _ => ⟨Pairwise.nil, fun c hc => absurd hc not_mem_nil⟩⟩
  | cons cmd cmds ih =>
    obtain ⟨hs, hrest⟩ := forall_mem_cons.mp hcmds
    rw [Processor.processAll_cons, bind_eq_some_iff] at hlive
    obtain ⟨⟨p₁, r₁⟩, hprocess, hlive⟩ := hlive
    obtain ⟨⟨p₂, r₂⟩, hlater, heq⟩ := map_eq_some_iff.mp hlive
    cases heq
    rw [map_cons, map_cons, feedAll, feed] at hreplay
    cases haccept : acceptReplayCommand log r.seen cmd (encodeCommand cmd) with
    | error e => simp only [haccept, reduceCtorEq, some.injEq] at hreplay
    | ok a =>
      obtain ⟨seen, kept⟩ := a
      cases kept with
      | false =>
        -- the live run has rejected the copy
        obtain ⟨-, -, hdropped⟩ := acceptReplayCommand_eq_ok haccept
        obtain ⟨rfl, hz, hmem⟩ := hdropped rfl
        rw [Processor.process_of_seen hz ((hseen cmd.id).mp hmem)] at hprocess
        cases hprocess
        simp only [haccept] at hreplay
        obtain ⟨hle, -⟩ := ih hrest hseen hlater hreplay
        simp only [length_append, length_singleton]
        exact ⟨by omega, fun hlen => absurd hle (by omega)⟩
      | true =>
        have hseen' : ∀ id, id ∈ seen ↔ id ∈ p₁.seenCommandIds := fun id => by
          rw [(acceptReplayCommand_eq_ok haccept).1, hseen, Processor.mem_seen_process hs hprocess]
        simp only [haccept, hprocess, map_some] at hreplay
        obtain ⟨hle, heq⟩ := ih hrest hseen' hlater hreplay
        simp only [length_append] at hle heq ⊢
        refine ⟨by omega, fun hlen => ?_⟩
        exact (Command.unrepeated_cons log _ _ _ _).mpr ⟨seen, haccept, heq (by omega)⟩

end Replayed

/-- Two processors with the same books, positions, halted instruments and suspended users. -/
structure Processor.SameState (p q : Processor) : Prop where
  engines : q.engines = p.engines
  positions : q.positions = p.positions
  halted : q.halted = p.halted
  suspended : q.suspended = p.suspended

namespace StandaloneShard

/-- **The journal reproduces the live run**, whatever the hash orders of the replay, exactly if no
command repeats an id and no forced liquidation finds two orders of its user. -/
theorem replay_iff {ω₀ ω : Oracle} {strategy : Strategy}
    {maxOpenWriters writerBufferBytes : Option ℕ} {s₀ s : StandaloneShard} {ticks : ℕ → Tick}
    {cmds : List Command} {reports : List ExecReport}
    (hbuild : build ω₀ { Processor.defaultConfig with strategy := strategy } none none ∅
      maxOpenWriters writerBufferBytes = some s₀)
    (hcmds : ∀ c ∈ cmds, c.OnWire) (hrun : s₀.handleAll ticks ω cmds = some (s, reports)) :
    (∀ ω' : Oracle,
      (∃ summary, replayJournal ω' (some s.journal.flush.w.file) strategy none none =
          some (.ok summary) ∧
        summary.reports = reports ∧ s.processor.SameState summary.processor) ∧
      (cmds.length < 2 ^ 64 → ∃ p applied lastSeq,
        recoverStats ω' (Processor.fresh { Processor.defaultConfig with strategy := strategy }) none
          (some s.journal.flush.w.file) = some (.ok (p, applied, lastSeq)) ∧
        s.processor.SameState p)) ↔
    Command.Unrepeated ∅ cmds ∧ s₀.processor.CalmAll ω 0 cmds := by
  obtain ⟨hprocessor, hholds⟩ := holds_build hbuild
  have hsingle : ∀ c ∈ cmds, c.Single := fun c hc => (hcmds c hc).single
  obtain ⟨hleaves, hsingles⟩ := Command.map_schedule.2 cmds ω 0
  rw [Command.allLeaves_of_single hsingle] at hleaves
  obtain ⟨hserve, journal, assets, hholds', hjournal, -⟩ := hholds.run
    (fun e he => hsingle e.2 (hleaves ▸ List.mem_map_of_mem he)) hrun
  rw [← Processor.processAll_eq_serve_scheduleAll hsingle] at hserve
  have hframes : journal.map Prod.snd = cmds.map encodeCommand := by rw [hjournal, hleaves]; rfl
  have hentries : (cmds.map fun c => (c, encodeCommand c)).map Prod.fst = cmds := by
    rw [List.map_map]
    exact List.map_id cmds
  simp only [hholds'.journal.flush.2, replayJournal_fileWith hframes hcmds]
  rw [hprocessor] at hserve ⊢
  constructor
  · intro h
    -- with the hash orders of the live run, a dropped command shows in the number of reports
    obtain ⟨⟨summary, hreplay, hreports, -⟩, -⟩ := h ω
    obtain ⟨result, hfeed, hresult⟩ := map_eq_some_iff.mp hreplay
    cases result with
    | error e => cases hresult
    | ok r =>
      cases hresult
      have hunrepeated := (Replayed.length_reports_of_feedAll hsingle
        (fun id => ⟨fun h => absurd h ExtTreeMap.not_mem_empty,
          fun h => absurd h ExtTreeSet.not_mem_empty⟩) hserve hfeed).2
        (by rw [← hreports]; exact (zero_add _).symm)
      refine ⟨hunrepeated, by_contra fun hcalm => ?_⟩
      -- with others, the order of the cancellations shows
      obtain ⟨ω', hdiverges⟩ := Processor.exists_diverging cmds hserve hcalm
      obtain ⟨⟨summary', hreplay', hreports', -⟩, -⟩ := h ω'
      obtain ⟨result', hfeed', hresult'⟩ := map_eq_some_iff.mp hreplay'
      cases result' with
      | error e => cases hresult'
      | ok r' =>
        cases hresult'
        have hlive := Replayed.processAll_of_feedAll (by rwa [hentries]) hfeed'
        rw [hentries] at hlive
        exact hdiverges.ne_map ((congrArg some hreports').symm.trans
          (congrArg (Option.map Prod.snd) hlive).symm)
  · rintro ⟨hunrepeated, hcalm⟩ ω'
    have hreplayed := (Processor.processAll_of_calm ω' 0 cmds hcalm).symm.trans hserve
    rw [← hentries] at hunrepeated hreplayed
    obtain ⟨seen, hfeed⟩ := @Replayed.feedAll_start "journal" _ _ _ _ _ hunrepeated hreplayed
    refine ⟨⟨_, congrArg (Option.map _) hfeed, rfl, rfl, rfl, rfl, rfl⟩, fun hlength => ?_⟩
    obtain ⟨lastSeq, hrecover⟩ := recoverStats_fileWith hframes hcmds hlength ω'
      (Processor.fresh { Processor.defaultConfig with strategy := strategy })
    exact ⟨_, _, lastSeq, hrecover.trans (congrArg (Option.map _) hfeed), rfl, rfl, rfl, rfl⟩

/-- An order and its cancellation. -/
def placedAndCancelled : List Command :=
  [.new (Order.limit 1 .sell 100 5), .cancel 0 1 2]

theorem onWire_placedAndCancelled : ∀ c ∈ placedAndCancelled, c.OnWire := by
  refine forall_mem_cons.mpr ⟨⟨encodeCommand (.new (Order.limit 1 .sell 100 5)), rfl⟩,
    forall_mem_singleton.mpr ⟨encodeCommand (.cancel 0 1 2), rfl⟩⟩

/-- The journal of an order and its cancellation reproduces both. -/
theorem replay_iff_cancelled : ∃ s₀ s reports,
    build default Processor.defaultConfig none none ∅ none none = some s₀ ∧
    s₀.handleAll (fun _ => ⟨false, 0, false, 0⟩) default placedAndCancelled = some (s, reports) ∧
    ∃ summary, replayJournal default (some s.journal.flush.w.file) .priceTimePriority none none =
        some (.ok summary) ∧
      summary.reports = reports ∧ s.processor.SameState summary.processor := by
  obtain ⟨s₀, s, reports, hbuild, hrun⟩ := exists_handleAll placedAndCancelled (by decide +kernel)
  have hreplay := (@replay_iff default default .priceTimePriority none none s₀ s _
    placedAndCancelled reports hbuild onWire_placedAndCancelled hrun).mpr
      ⟨.of_nodup (by decide), by
        simp [placedAndCancelled, Processor.CalmAll, Processor.Calm, Processor.PullsAtMostOne]⟩
  exact ⟨s₀, s, reports, hbuild, hrun, (hreplay default).1⟩

theorem error_of_map {α β : Type} {result : Option (Except IoError α)} {f : α → β} {e : IoError}
    (h : (result.map fun r => r.map f) = some (.error e)) : result = some (.error e) := by
  obtain ⟨r, rfl, hr⟩ := map_eq_some_iff.mp h
  cases r with
  | error e' => exact congrArg some (congrArg Except.error (Except.error.inj hr))
  | ok a => cases hr

/-- An order, and its cancellation under the same id. -/
def reusedId : List Command := [.new (Order.limit 1 .sell 100 5), .cancel 0 1 1]

/-- **A reused id cannot be replayed**: the shard has rejected the command and journaled it, and
neither the replay nor the recovery gets past its record. -/
theorem reused_id_unrecoverable : ∃ s₀ s,
    build default Processor.defaultConfig none none ∅ none none = some s₀ ∧
    (∀ c ∈ reusedId, c.OnWire) ∧
    s₀.handleAll (fun _ => ⟨false, 0, false, 0⟩) default reusedId =
      some (s, [.accepted 0 1, .resting 0 1, .rejected 0 1 .duplicate]) ∧
    replayJournal default (some s.journal.flush.w.file) .priceTimePriority none none =
      some (.error (.invalidData "command id 1 has conflicting journal payloads")) ∧
    recoverStats default (Processor.fresh Processor.defaultConfig) none
      (some s.journal.flush.w.file) =
      some (.error (.invalidData "command id 1 has conflicting journal payloads")) := by
  have h : ((build default Processor.defaultConfig none none ∅ none none).bind fun s₀ =>
      (s₀.handleAll (fun _ => ⟨false, 0, false, 0⟩) default reusedId).map fun a =>
        (a.2, (replayJournal default (some a.1.journal.flush.w.file) .priceTimePriority none
            none).map fun result => result.map fun _ => (),
          (recoverStats default (Processor.fresh Processor.defaultConfig) none
            (some a.1.journal.flush.w.file)).map fun result => result.map fun _ => ())) =
      some ([.accepted 0 1, .resting 0 1, .rejected 0 1 .duplicate],
        some (.error (.invalidData "command id 1 has conflicting journal payloads")),
        some (.error (.invalidData "command id 1 has conflicting journal payloads"))) := by
    decide +kernel
  obtain ⟨s₀, hbuild, h⟩ := bind_eq_some_iff.mp h
  obtain ⟨⟨s, reports⟩, hrun, heq⟩ := map_eq_some_iff.mp h
  obtain ⟨rfl, heq⟩ := Prod.mk.inj heq
  obtain ⟨hreplay, hrecover⟩ := Prod.mk.inj heq
  refine ⟨s₀, s, hbuild, ?_, hrun, error_of_map hreplay, error_of_map hrecover⟩
  exact forall_mem_cons.mpr ⟨⟨encodeCommand (.new (Order.limit 1 .sell 100 5)), rfl⟩,
    forall_mem_singleton.mpr ⟨encodeCommand (.cancel 0 1 1), rfl⟩⟩

end StandaloneShard

end TradeCore
