import TradeCore.Snapshot
import TradeCore.IterationOrder
import TradeCore.WireBehaviour
import TradeCore.JournalCrash

/-!
# Replaying Journals

Three functions rebuild a processor from a log of command frames: `replay_journal` and
`recover_stats` from the journal of a shard, and the replays of `asset_log.rs` from the log of an
instrument. All three drop copies of a command by the same filter, `accept_replay_command`: a
frame whose id was seen is skipped if it is the same frame, and is an error if it is not.

This is not the filter of the live processor, which answers every retry with a rejection. The two
agree on logs that do not repeat an id (`Replayed.feedAll_of_fresh`).
-/

open Std List Option

namespace TradeCore

/-- Whether a replay processes a command: the first one under its id does, a copy does not, and
another one under the same id is an error. Commands without an id are always processed. -/
def acceptReplayCommand (log : String) (seen : ExtTreeMap ℕ Frame) (cmd : Command)
    (frame : Frame) : Except IoError (ExtTreeMap ℕ Frame × Bool) :=
  if cmd.id = 0 then .ok (seen, true)
  else
    match seen[cmd.id]? with
    | none => .ok (seen.insert cmd.id frame, true)
    | some original =>
      if original = frame then .ok (seen, false)
      else .error (.invalidData
        ("command id " ++ toString cmd.id ++ " has conflicting " ++ log ++ " payloads"))

/-- What a replay has so far. -/
structure Replayed where
  seen : ExtTreeMap ℕ Frame
  processor : Processor
  commands : ℕ
  reports : List ExecReport

namespace Replayed

/-- A replay that begins with a processor. -/
def start (p : Processor) : Replayed := ⟨∅, p, 0, []⟩

/-- Process a command of the log unless it is a copy. `none` is an abort of the processor. -/
def feed (log : String) (ω : Oracle) (r : Replayed) (cmd : Command) (frame : Frame) :
    Option (Except IoError Replayed) :=
  match acceptReplayCommand log r.seen cmd frame with
  | .error e => some (.error e)
  | .ok (seen, false) => some (.ok { r with seen := seen })
  | .ok (seen, true) =>
    (r.processor.process ω cmd).map fun a =>
      .ok ⟨seen, a.1, r.commands + 1, r.reports ++ a.2⟩

/-- Process the commands of a log, the first at position `i`. An entry that is an error ends the
replay. -/
def feedAll (log : String) (ω : Oracle) (i : ℕ) (r : Replayed) :
    List (Except IoError (Command × Frame)) → Option (Except IoError Replayed)
  | [] => some (.ok r)
  | .error e :: _ => some (.error e)
  | .ok (cmd, frame) :: entries =>
    match r.feed log (ω.at i) cmd frame with
    | some (.ok r) => feedAll log ω (i + 1) r entries
    | result => result

end Replayed

/-! ### The journal of a shard -/

/-- The commands of a journal; frames that are not commands are passed over. -/
def journalEntries (records : List Record) : List (Except IoError (Command × Frame)) :=
  records.filterMap fun r => r.frame.toCommand.map fun cmd => .ok (cmd, r.frame)

/-- What `replay_journal` returns. -/
structure ReplaySummary where
  commands : ℕ
  reports : List ExecReport
  fingerprint : UInt64
  processor : Processor

/-- Replay a journal through a fresh processor, up to the given time. -/
def replayJournal (ω : Oracle) (file : Option (List UInt8)) (strategy : Strategy)
    (guard : Option PriceGuard) (untilTs : Option UInt64) : Option (Except IoError ReplaySummary) :=
  match file with
  | none => some (.error .notFound)
  | some bytes =>
    match readJournal bytes with
    | .error e => some (.error e)
    | .ok records =>
      let records := records.takeWhile fun r => untilTs.all fun limit => r.tsNanos ≤ limit
      let p := Processor.fresh { Processor.defaultConfig with strategy := strategy, guard := guard }
      ((Replayed.start p).feedAll "journal" ω 0 (journalEntries records)).map fun result =>
        result.map fun r => ⟨r.commands, r.reports, fingerprintReports r.reports, r.processor⟩

/-- Restore a processor from the snapshot, if there is one, and the records of the journal that
it does not cover. Returns the processor, the number of replayed commands and the highest record
number. -/
def recoverStats (ω : Oracle) (p : Processor) (snapshot journal : Option (List UInt8)) :
    Option (Except IoError (Processor × ℕ × ℕ)) :=
  let restored : Option (Except IoError (Processor × ℕ)) :=
    match snapshot with
    | none => some (.ok (p, 0))
    | some bytes =>
      match MatchingSnapshot.load bytes with
      | none => none
      | some (.error e) => some (.error e)
      | some (.ok snap) => (p.restoreState snap).map fun p => .ok (p, snap.journalSeq)
  match restored with
  | none => none
  | some (.error e) => some (.error e)
  | some (.ok (p, skipSeq)) =>
    match journal with
    | none => some (.ok (p, 0, skipSeq))
    | some bytes =>
      match readJournal bytes with
      | .error e => some (.error e)
      | .ok records =>
        let lastSeq := records.foldl (fun m r => max m r.seq.toNat) skipSeq
        let tail := records.filter fun r => skipSeq < r.seq.toNat
        ((Replayed.start p).feedAll "journal" ω 0 (journalEntries tail)).map fun result =>
          result.map fun r => (r.processor, r.commands, lastSeq)

/-! ### Logs without repeated ids -/

/-- The commands of a log do not repeat an id, nor one of those seen before. -/
structure Command.Unrepeated (seen : ExtTreeMap ℕ Frame) (cmds : List Command) : Prop where
  nodup : (cmds.filter fun c => c.id ≠ 0).Pairwise fun c c' => c.id ≠ c'.id
  new : ∀ c ∈ cmds, c.id ≠ 0 → c.id ∉ seen

theorem Command.Unrepeated.of_nodup {cmds : List Command} (h : (cmds.map Command.id).Nodup) :
    Command.Unrepeated ∅ cmds :=
  ⟨(pairwise_map.mp h).filter _, fun _ _ _ => ExtTreeMap.not_mem_empty⟩

/-- What the filter has seen after a command, and which commands it keeps. -/
theorem acceptReplayCommand_eq_ok {log : String} {seen seen' : ExtTreeMap ℕ Frame} {cmd : Command}
    {frame : Frame} {kept : Bool}
    (h : acceptReplayCommand log seen cmd frame = .ok (seen', kept)) :
    (∀ id, id ∈ seen' ↔ id ∈ seen ∨ cmd.id ≠ 0 ∧ id = cmd.id) ∧
      (kept = true → cmd.id ≠ 0 → cmd.id ∉ seen) ∧
      (kept = false → seen' = seen ∧ cmd.id ≠ 0 ∧ cmd.id ∈ seen) := by
  rw [acceptReplayCommand] at h
  by_cases hid : cmd.id = 0
  · rw [if_pos hid] at h
    cases h
    exact ⟨fun id => by simp [hid], fun _ hne => absurd hid hne, fun h => absurd h (by decide)⟩
  · rw [if_neg hid] at h
    cases hseen : seen[cmd.id]? with
    | none =>
      have hnew : cmd.id ∉ seen := by simp [ExtTreeMap.mem_iff_isSome_getElem?, hseen]
      rw [hseen] at h
      cases h
      refine ⟨fun id => ?_, fun _ _ => hnew, fun h => absurd h (by decide)⟩
      rw [ExtTreeMap.mem_insert, Std.compare_eq_iff_eq, or_comm, eq_comm]
      simp [hid]
    | some original =>
      have hmem : cmd.id ∈ seen := by simp [ExtTreeMap.mem_iff_isSome_getElem?, hseen]
      rw [hseen] at h
      by_cases hsame : original = frame
      · simp only [if_pos hsame] at h
        cases h
        refine ⟨fun id => ⟨.inl, fun h => h.elim (fun h => h) ?_⟩, fun h => absurd h (by decide),
          fun _ => ⟨rfl, hid, hmem⟩⟩
        rintro ⟨-, rfl⟩
        exact hmem
      · simp only [if_neg hsame] at h
        cases h

theorem exists_acceptReplayCommand (log : String) {seen : ExtTreeMap ℕ Frame} {cmd : Command}
    (frame : Frame) (h : cmd.id ≠ 0 → cmd.id ∉ seen) :
    ∃ seen', acceptReplayCommand log seen cmd frame = .ok (seen', true) := by
  rw [acceptReplayCommand]
  by_cases hid : cmd.id = 0
  · exact ⟨seen, if_pos hid⟩
  · rw [if_neg hid, ExtTreeMap.getElem?_eq_none (h hid)]
    exact ⟨_, rfl⟩

/-- A log does not repeat an id if the filter keeps its first command and, after that, the others
do not repeat one. -/
theorem Command.unrepeated_cons (log : String) (seen : ExtTreeMap ℕ Frame) (cmd : Command)
    (frame : Frame) (cmds : List Command) :
    Command.Unrepeated seen (cmd :: cmds) ↔ ∃ seen',
      acceptReplayCommand log seen cmd frame = .ok (seen', true) ∧
        Command.Unrepeated seen' cmds := by
  constructor
  · rintro ⟨hnodup, hnew⟩
    obtain ⟨hfirst, hrest⟩ := forall_mem_cons.mp hnew
    obtain ⟨seen', haccept⟩ := exists_acceptReplayCommand log frame hfirst
    refine ⟨seen', haccept, hnodup.sublist ((sublist_cons_self cmd cmds).filter _), ?_⟩
    intro c hc hc0
    rw [(acceptReplayCommand_eq_ok haccept).1]
    rintro (hseen | ⟨hid, heq⟩)
    · exact hrest c hc hc0 hseen
    · rw [filter_cons_of_pos (by simpa using hid), pairwise_cons] at hnodup
      exact hnodup.1 c (mem_filter.mpr ⟨hc, by simpa using hc0⟩) heq.symm
  · rintro ⟨seen', haccept, hnodup, hnew⟩
    obtain ⟨hmem, hkept, -⟩ := acceptReplayCommand_eq_ok haccept
    have hnew' : ∀ c ∈ cmds, c.id ≠ 0 → c.id ∉ seen ∧ (cmd.id ≠ 0 → cmd.id ≠ c.id) := by
      intro c hc hc0
      have hout := hnew c hc hc0
      rw [hmem, not_or] at hout
      exact ⟨hout.1, fun hid heq => hout.2 ⟨hid, heq.symm⟩⟩
    refine ⟨?_, forall_mem_cons.mpr ⟨hkept rfl, fun c hc hc0 => (hnew' c hc hc0).1⟩⟩
    by_cases hid : cmd.id = 0
    · rwa [filter_cons_of_neg (by simpa using hid)]
    · rw [filter_cons_of_pos (by simpa using hid), pairwise_cons]
      refine ⟨fun c hc => ?_, hnodup⟩
      obtain ⟨hc, hc0⟩ := mem_filter.mp hc
      exact (hnew' c hc (by simpa using hc0)).2 hid

namespace Replayed

/-- Every command of a log without repeated ids is processed. -/
theorem feedAll_of_fresh {log : String} {ω : Oracle} {i : ℕ} {r : Replayed}
    {entries : List (Command × Frame)}
    (h : Command.Unrepeated r.seen (entries.map Prod.fst)) :
    ∃ seen, r.feedAll log ω i (entries.map .ok) =
      (r.processor.processAll ω i (entries.map Prod.fst)).map fun a =>
        .ok ⟨seen, a.1, r.commands + entries.length, r.reports ++ a.2⟩ := by
  induction entries generalizing r i with
  | nil => exact ⟨r.seen, by simp [feedAll, Processor.processAll]⟩
  | cons entry entries ih =>
    obtain ⟨cmd, frame⟩ := entry
    obtain ⟨seen, haccept, hrest⟩ := (Command.unrepeated_cons log _ _ frame _).mp h
    rw [map_cons, map_cons, feedAll, Processor.processAll_cons, feed, haccept]
    cases hprocess : r.processor.process (ω.at i) cmd with
    | none => exact ⟨r.seen, rfl⟩
    | some a =>
      obtain ⟨seen', hfeed⟩ := ih (r := ⟨seen, a.1, r.commands + 1, r.reports ++ a.2⟩)
        (i := i + 1) hrest
      refine ⟨seen', ?_⟩
      simp only [map_some, bind_some, hfeed, Option.map_map, Function.comp_def,
        append_assoc, length_cons, add_assoc, add_comm 1]

/-- A replay of a log without repeated ids ends as its commands do. -/
theorem feedAll_start {log : String} {ω : Oracle} {p p' : Processor}
    {entries : List (Command × Frame)} {reports : List ExecReport}
    (h : Command.Unrepeated ∅ (entries.map Prod.fst))
    (hp : p.processAll ω 0 (entries.map Prod.fst) = some (p', reports)) :
    ∃ seen, (start p).feedAll log ω 0 (entries.map .ok) =
      some (.ok ⟨seen, p', entries.length, reports⟩) := by
  obtain ⟨seen, hfeed⟩ := @feedAll_of_fresh log ω 0 (start p) entries h
  refine ⟨seen, hfeed.trans ?_⟩
  rw [show (start p).processor.processAll ω 0 _ = _ from hp, map_some, start, zero_add, nil_append]

theorem processAll_of_feedAll {log : String} {ω : Oracle} {p : Processor} {r : Replayed}
    {entries : List (Command × Frame)} (h : Command.Unrepeated ∅ (entries.map Prod.fst))
    (hfeed : (start p).feedAll log ω 0 (entries.map .ok) = some (.ok r)) :
    p.processAll ω 0 (entries.map Prod.fst) = some (r.processor, r.reports) := by
  obtain ⟨seen, hfeed'⟩ := @feedAll_of_fresh log ω 0 (start p) entries h
  rw [hfeed'] at hfeed
  obtain ⟨a, hp, ha⟩ := map_eq_some_iff.mp hfeed
  cases ha
  exact hp

end Replayed

end TradeCore
