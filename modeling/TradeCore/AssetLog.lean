import TradeCore.Replay
import Mathlib.Data.List.MinMax

/-!
# Logs of Single Instruments

`asset_log.rs` keeps a log for every instrument, `asset-<id>.wal`, beside the journal of the shard,
so that an instrument can move to another machine. Only a bounded number of logs is open at a
time: opening one more closes that which was used least recently, and a log that is opened again
goes on with the number of its last record (`AssetJournalSet.writerFor`).

Whatever the order of commands and evictions, the log of an instrument holds the frames of its
commands, numbered from one (`AssetJournalSet.Logs.append`).
-/

open Std List Option

namespace TradeCore

variable {entries : List (UInt64 × Frame)}

/-- A batch with commands of several instruments. -/
def Command.crossAsset : Command → Bool
  | .batch cmds => cmds.any fun c => c.instrument ≠ (Command.batch cmds).instrument
  | _ => false

theorem Command.crossAsset_of_single {cmd : Command} (h : cmd.Single) : cmd.crossAsset = false := by
  cases cmd with
  | batch cmds => cases h
  | _ => rfl

/-- An open log. -/
structure CachedWriter where
  writer : JournalWriter
  lastAccess : ℕ

/-- The logs of a machine. `disk` has the files as they were when they were last closed. -/
structure AssetJournalSet where
  disk : ExtTreeMap ℕ (List UInt8)
  writers : ExtTreeMap ℕ CachedWriter
  maxOpenWriters : ℕ
  writerBufferBytes : ℕ
  accessClock : ℕ

namespace AssetJournalSet

/-- Open the logs of a directory. The two sizes may be configured. -/
def «open» (disk : ExtTreeMap ℕ (List UInt8)) (maxOpenWriters writerBufferBytes : Option ℕ) :
    AssetJournalSet where
  disk := disk
  writers := ∅
  maxOpenWriters := max (maxOpenWriters.getD 1024) RAFT_BATCH_MAX_COMMANDS
  writerBufferBytes := writerBufferBytes.getD (8 * 2 ^ 10)
  accessClock := 0

variable (s : AssetJournalSet)

/-- The file of an instrument as it is now. -/
def fileOf (instrument : ℕ) : Option (List UInt8) :=
  match s.writers[instrument]? with
  | some cached => some cached.writer.w.file
  | none => s.disk[instrument]?

/-- Close the log that was used least recently. -/
def evict : AssetJournalSet :=
  match s.writers.toList.argmin fun e => e.2.lastAccess with
  | none => s
  | some (victim, cached) =>
    { s with
      writers := s.writers.erase victim
      disk := s.disk.insert victim cached.writer.flush.w.file }

/-- The number of the last record of a file. -/
def lastSeq (file : List UInt8) : Except IoError UInt64 :=
  (readJournal file).map fun records => (records.getLast?.map Record.seq).getD 0

/-- The writer of an instrument, opened if it is not. -/
def writerFor (instrument : ℕ) : AssetJournalSet × Except IoError JournalWriter :=
  let access := (s.accessClock + 1) % 2 ^ 64
  let s := { s with accessClock := access }
  match s.writers[instrument]? with
  | some cached => (s, .ok cached.writer)
  | none =>
    let s := if s.maxOpenWriters ≤ s.writers.size then s.evict else s
    match JournalWriter.openWithCapacity (s.disk[instrument]?.getD []) s.writerBufferBytes with
    | .error e => (s, .error e)
    | .ok writer =>
      -- the file has its header from here on
      let s := { s with disk := s.disk.insert instrument writer.w.file }
      (s, (lastSeq writer.w.file).map writer.resumeFrom)

/-- Append a command to the log of its instrument. -/
def append (elapsed : Bool) (tsNanos : UInt64) (cmd : Command) :
    AssetJournalSet × Except IoError UInt64 :=
  if cmd.crossAsset then
    (s, .error (.invalidInput "per-asset log cannot contain a cross-asset batch"))
  else
    match s.writerFor cmd.instrument with
    | (s, .error e) => (s, .error e)
    | (s, .ok writer) =>
      let writer := writer.append elapsed tsNanos (encodeCommand cmd)
      ({ s with writers := s.writers.insert cmd.instrument ⟨writer, s.accessClock⟩ },
        .ok writer.seq)

/-- Move what is buffered to the files. -/
def flushAll : AssetJournalSet :=
  { s with writers := s.writers.map fun _ cached => { cached with writer := cached.writer.flush } }

end AssetJournalSet

/-! ### Reading a log -/

/-- What identifies a copied log. -/
structure AssetLogMeta where
  instrument : ℕ
  records : ℕ
  lastSeq : ℕ
  fingerprint : UInt64
deriving DecidableEq

/-- The fingerprint of a log goes over every record. -/
def recordHash (previous : UInt64) (r : Record) : UInt64 :=
  fnv1a (leBytes 8 previous.toNat ++ leBytes 8 r.seq.toNat ++ leBytes 8 r.tsNanos.toNat ++
    r.frame.val)

/-- Check the records of a log: numbers without gaps from `expected`, and commands of the
instrument. -/
def inspectRecords (instrument : ℕ) (expected : UInt64) (fingerprint : UInt64) :
    List Record → Except IoError UInt64
  | [] => .ok fingerprint
  | r :: records =>
    if r.seq ≠ expected then .error (.invalidData "asset log sequence gap")
    else
      match r.frame.toCommand with
      | none => .error (.invalidData "asset log contains unknown command")
      | some cmd =>
        if cmd.instrument ≠ instrument then
          .error (.invalidData "asset log contains another instrument")
        else inspectRecords instrument (expected + 1) (recordHash fingerprint r) records

/-- Read and check a log. -/
def inspect (file : Option (List UInt8)) (instrument : ℕ) : Except IoError AssetLogMeta :=
  match file with
  | none => .error .notFound
  | some bytes => do
      let records ← readJournal bytes
      let fingerprint ← inspectRecords instrument 1 0xcbf29ce484222325 records
      pure ⟨instrument, records.length, records.length, fingerprint⟩

/-- The command of a frame; a frame that is not a command is an error. -/
def assetEntry (frame : Frame) : Except IoError (Command × Frame) :=
  match frame.toCommand with
  | none => .error (.invalidData "invalid asset command")
  | some cmd => .ok (cmd, frame)

/-- The commands of a log. -/
def assetEntries (records : List Record) : List (Except IoError (Command × Frame)) :=
  records.map fun r => assetEntry r.frame

/-- Replay the records of a log after a given number into a processor. -/
def replayInto (ω : Oracle) (file : Option (List UInt8)) (instrument afterSeq : ℕ)
    (p : Processor) : Option (Except IoError (Processor × AssetLogMeta)) :=
  match inspect file instrument, readJournal (file.getD []) with
  | .error e, _ => some (.error e)
  | .ok _, .error e => some (.error e)
  | .ok info, .ok records =>
    let records := records.filter fun r => afterSeq < r.seq.toNat
    ((Replayed.start p).feedAll "asset WAL" ω 0 (assetEntries records)).map fun result =>
      result.map fun r => (r.processor, info)

/-- Replay a log on a machine that has no state for the instrument. -/
def replayFresh (ω : Oracle) (file : Option (List UInt8)) (instrument : ℕ) (strategy : Strategy) :
    Option (Except IoError (Processor × AssetLogMeta)) :=
  replayInto ω file instrument 0
    (Processor.fresh { Processor.defaultConfig with strategy := strategy })

/-- What `replay_with_reports` returns. -/
structure AssetReplaySummary where
  info : AssetLogMeta
  fingerprint : UInt64
  reports : List ExecReport
  processor : Processor

/-- Replay a log and keep the reports. The log is checked when it has been replayed. -/
def replayWithReports (ω : Oracle) (file : Option (List UInt8)) (instrument : ℕ)
    (strategy : Strategy) : Option (Except IoError AssetReplaySummary) :=
  match file with
  | none => some (.error .notFound)
  | some bytes =>
    match readJournal bytes with
    | .error e => some (.error e)
    | .ok records =>
      let p := Processor.fresh { Processor.defaultConfig with strategy := strategy }
      ((Replayed.start p).feedAll "asset WAL" ω 0 (assetEntries records)).map fun result => do
        let r ← result
        let info ← inspect file instrument
        pure ⟨info, fingerprintReports r.reports, r.reports, r.processor⟩

/-! ### What the files hold -/

namespace Journal

variable (entries)

/-- The records of a log: frames with their times, numbered from one. -/
def numbered : List Record :=
  entries.mapIdx fun i e => ⟨UInt64.ofNat (i + 1), e.1, e.2⟩

theorem numbered_concat (e : UInt64 × Frame) :
    numbered (entries ++ [e]) =
      numbered entries ++ [⟨UInt64.ofNat entries.length + 1, e.1, e.2⟩] := by
  rw [numbered, mapIdx_concat, UInt64.ofNat_add]
  rfl

theorem map_frame_numbered : (numbered entries).map Record.frame = entries.map Prod.snd := by
  refine ext_getElem? fun i => ?_
  simp [numbered, Function.comp_def]

/-- The file with the records of a log. -/
def fileWith : List UInt8 :=
  JOURNAL_HEADER ++ framing.encode (numbered entries)

theorem lastSeq_fileWith :
    AssetJournalSet.lastSeq (fileWith entries) = .ok (UInt64.ofNat entries.length) := by
  rw [AssetJournalSet.lastSeq, fileWith, readJournal_encode]
  change Except.ok _ = _
  obtain rfl | ⟨init, last, rfl⟩ := eq_nil_or_concat' entries
  · rfl
  · simp only [numbered_concat, getLast?_concat, length_append, UInt64.ofNat_add]
    rfl

/-- A closed log is opened where it ended. -/
theorem openWithCapacity_fileWith (bufferBytes : ℕ) :
    ∃ jw, JournalWriter.openWithCapacity (fileWith entries) bufferBytes = .ok jw ∧
      jw.w.file = fileWith entries ∧ jw.w.buf = [] ∧ jw.seq = 0 := by
  have hread := @readExact_append 8 JOURNAL_HEADER rfl (framing.encode (numbered entries))
  have hne : (fileWith entries).length ≠ 0 := by
    simp [fileWith, JOURNAL_HEADER]
  rw [JournalWriter.openWithCapacity, if_neg hne, fileWith, hread]
  exact ⟨_, if_neg (not_not.mpr rfl), rfl, rfl, rfl⟩

theorem openWithCapacity_nil (bufferBytes : ℕ) :
    ∃ jw, JournalWriter.openWithCapacity [] bufferBytes = .ok jw ∧
      jw.w.file = fileWith [] ∧ jw.w.buf = [] ∧ jw.seq = 0 :=
  ⟨_, rfl, (append_nil _).symm, rfl, rfl⟩

end Journal

open Journal (numbered fileWith)

namespace AssetJournalSet

variable {jw : JournalWriter} {entries : List (UInt64 × Frame)} {i : ℕ}

/-- The writer has the records of a log, some of them in its buffer. -/
def Writes (jw : JournalWriter) (entries : List (UInt64 × Frame)) : Prop :=
  jw.seq = UInt64.ofNat entries.length ∧
    ∃ written pending, Journal.Holds jw.w written pending ∧
      written ++ pending = Journal.numbered entries

theorem Writes.flush (h : Writes jw entries) :
    Writes jw.flush entries ∧ jw.flush.w.file = fileWith entries := by
  obtain ⟨hseq, written, pending, hholds, happ⟩ := h
  refine ⟨⟨hseq, written ++ pending, [], hholds.flush, by rw [append_nil, happ]⟩, ?_⟩
  rw [fileWith, ← happ]
  exact hholds.flush.file

theorem Writes.append (h : Writes jw entries) (elapsed : Bool) (tsNanos : UInt64) (frame : Frame) :
    Writes (jw.append elapsed tsNanos frame) (entries ++ [(tsNanos, frame)]) := by
  obtain ⟨hseq, written, pending, hholds, happ⟩ := h
  obtain ⟨hseq', written', pending', happ', hholds'⟩ := hholds.append elapsed tsNanos frame
  refine ⟨?_, written', pending', hholds', ?_⟩
  · rw [hseq', hseq, length_append, UInt64.ofNat_add]
    rfl
  · rw [happ', happ, hseq, Journal.numbered_concat]

theorem writes_of_file (hfile : jw.w.file = fileWith entries) (hbuf : jw.w.buf = [])
    (hseq : jw.seq = 0) :
    Writes (jw.resumeFrom (UInt64.ofNat entries.length)) entries := by
  refine ⟨?_, numbered entries, [], ⟨hfile, hbuf⟩, append_nil _⟩
  rw [JournalWriter.resumeFrom, hseq]
  exact UInt64.toNat_inj.mp (by rw [UInt64.toNat_max]; exact max_eq_right (Nat.zero_le _))

/-- The log of every instrument: open with its records, closed with them, or not there. -/
def Logs (s : AssetJournalSet) (entries : ℕ → List (UInt64 × Frame)) : Prop :=
  ∀ i, (∃ cached, s.writers[i]? = some cached ∧ Writes cached.writer (entries i)) ∨
    s.writers[i]? = none ∧
      (s.disk[i]? = some (Journal.fileWith (entries i)) ∨ s.disk[i]? = none ∧ entries i = [])

variable {s : AssetJournalSet} {entries : ℕ → List (UInt64 × Frame)}

theorem logs_open (maxOpenWriters writerBufferBytes : Option ℕ) :
    (AssetJournalSet.open ∅ maxOpenWriters writerBufferBytes).Logs fun _ => [] :=
  fun _ => .inr ⟨ExtTreeMap.getElem?_empty, .inr ⟨ExtTreeMap.getElem?_empty, rfl⟩⟩

theorem Logs.evict (h : s.Logs entries) : s.evict.Logs entries := by
  rw [AssetJournalSet.evict]
  split
  · exact h
  · rename_i victim cached hmin
    have hcached : s.writers[victim]? = some cached :=
      ExtTreeMap.mem_toList_iff_getElem?_eq_some.mp (argmin_mem hmin)
    intro i
    simp only [getElem?_erase_nat, getElem?_insert_nat]
    by_cases hi : i = victim
    · subst hi
      obtain ⟨cached', hcached', hwrites⟩ | ⟨hnone, -⟩ := h i
      · obtain rfl := some.inj (hcached.symm.trans hcached')
        exact .inr ⟨if_pos rfl, .inl (by rw [if_pos rfl, hwrites.flush.2])⟩
      · rw [hcached] at hnone
        cases hnone
    · rw [if_neg hi, if_neg hi]
      exact h i

theorem getElem?_writers_evict (h : s.writers[i]? = none) : s.evict.writers[i]? = none := by
  rw [AssetJournalSet.evict]
  split
  · exact h
  · simp only [getElem?_erase_nat, h, ite_self]

/-- A log that is not open is opened with its records. -/
theorem Logs.open_closed (h : s.Logs entries) (hclosed : s.writers[i]? = none) :
    ∃ jw, JournalWriter.openWithCapacity (s.disk[i]?.getD []) s.writerBufferBytes = .ok jw ∧
      jw.w.file = fileWith (entries i) ∧ jw.w.buf = [] ∧ jw.seq = 0 := by
  obtain ⟨cached, hcached, -⟩ | ⟨-, hdisk | ⟨hdisk, hnone⟩⟩ := h i
  · rw [hclosed] at hcached
    cases hcached
  · rw [hdisk]
    exact Journal.openWithCapacity_fileWith (entries i) _
  · rw [hdisk, hnone]
    exact Journal.openWithCapacity_nil _

/-- **A writer goes on with the log of its instrument**, opened again or not. -/
theorem Logs.writerFor (h : s.Logs entries) (i : ℕ) :
    ∃ s' jw, s.writerFor i = (s', .ok jw) ∧ s'.Logs entries ∧ Writes jw (entries i) := by
  rw [AssetJournalSet.writerFor]
  simp only
  cases hcached : s.writers[i]? with
  | some cached =>
    obtain ⟨cached', hcached', hwrites⟩ | ⟨hnone, -⟩ := h i
    · obtain rfl := some.inj (hcached.symm.trans hcached')
      exact ⟨_, _, rfl, h, hwrites⟩
    · rw [hcached] at hnone
      cases hnone
  | none =>
    set s₁ : AssetJournalSet := { s with accessClock := (s.accessClock + 1) % 2 ^ 64 }
    set s₂ := if s.maxOpenWriters ≤ s.writers.size then s₁.evict else s₁
    have hs₂ : s₂.Logs entries ∧ s₂.writers[i]? = none := by
      have h₁ : s₁.Logs entries := h
      by_cases hfull : s.maxOpenWriters ≤ s.writers.size
      · rw [show s₂ = s₁.evict from if_pos hfull]
        exact ⟨h₁.evict, getElem?_writers_evict hcached⟩
      · rw [show s₂ = s₁ from if_neg hfull]
        exact ⟨h₁, hcached⟩
    obtain ⟨jw, hopen, hfile, hbuf, hseq⟩ := hs₂.1.open_closed hs₂.2
    simp only [hopen, hfile, Journal.lastSeq_fileWith]
    refine ⟨_, _, rfl, fun j => ?_, writes_of_file hfile hbuf hseq⟩
    simp only [getElem?_insert_nat]
    by_cases hj : j = i
    · subst hj
      exact .inr ⟨hs₂.2, .inl (if_pos rfl)⟩
    · rw [if_neg hj]
      exact hs₂.1 j

/-- **An append** adds one frame to the log of its instrument and to no other. -/
theorem Logs.append (h : s.Logs entries) (elapsed : Bool) (tsNanos : UInt64) {cmd : Command}
    (hcross : cmd.crossAsset = false) :
    ∃ s' seq, s.append elapsed tsNanos cmd = (s', .ok seq) ∧
      s'.Logs fun i => if i = cmd.instrument then entries i ++ [(tsNanos, encodeCommand cmd)]
        else entries i := by
  obtain ⟨s₁, jw, hwriter, hlogs, hwrites⟩ := h.writerFor cmd.instrument
  rw [AssetJournalSet.append, hcross]
  simp only [hwriter]
  refine ⟨_, _, rfl, fun i => ?_⟩
  simp only [getElem?_insert_nat]
  by_cases hi : i = cmd.instrument
  · subst hi
    simp only [if_pos]
    exact .inl ⟨_, rfl, hwrites.append elapsed tsNanos (encodeCommand cmd)⟩
  · simp only [if_neg hi]
    exact hlogs i

/-- The file of an instrument with a command, when everything is flushed. -/
theorem Logs.fileOf_flushAll (h : s.Logs entries) (hne : entries i ≠ []) :
    s.flushAll.fileOf i = some (fileWith (entries i)) := by
  rw [fileOf, flushAll]
  simp only [ExtTreeMap.getElem?_map]
  obtain ⟨cached, hcached, hwrites⟩ | ⟨hclosed, hdisk | ⟨-, hnil⟩⟩ := h i
  · rw [hcached]
    exact congrArg some hwrites.flush.2
  · rw [hclosed]
    exact hdisk
  · exact absurd hnil hne

end AssetJournalSet

/-! ### What a replay reads -/

/-- A log with the commands of one instrument passes the check. -/
theorem inspectRecords_numbered {i : ℕ}
    (h : ∀ e ∈ entries, ∃ cmd, e.2.toCommand = some cmd ∧ cmd.instrument = i) (n : ℕ)
    (fingerprint : UInt64) :
    ∃ fingerprint', inspectRecords i (UInt64.ofNat (n + 1)) fingerprint
      (entries.mapIdx fun k e => ⟨UInt64.ofNat (n + k + 1), e.1, e.2⟩) = .ok fingerprint' := by
  induction entries generalizing n fingerprint with
  | nil => exact ⟨fingerprint, rfl⟩
  | cons e entries ih =>
    obtain ⟨⟨cmd, hcmd, hinstrument⟩, hrest⟩ := forall_mem_cons.mp h
    obtain ⟨fingerprint', hih⟩ := ih hrest (n + 1) (recordHash fingerprint
      ⟨UInt64.ofNat (n + 0 + 1), e.1, e.2⟩)
    refine ⟨fingerprint', ?_⟩
    have hshift : (fun k (e : UInt64 × Frame) =>
        (⟨UInt64.ofNat (n + (k + 1) + 1), e.1, e.2⟩ : Record)) =
        fun k e => ⟨UInt64.ofNat (n + 1 + k + 1), e.1, e.2⟩ := by
      funext k e
      rw [add_right_comm n 1 k, add_assoc n k 1]
    rw [mapIdx_cons, inspectRecords, if_neg (not_not.mpr rfl)]
    simp only [hcmd, hinstrument, ne_eq, not_true_eq_false, if_false, hshift]
    rw [← hih, UInt64.ofNat_add (n + 1) 1]
    rfl

theorem inspect_fileWith {i : ℕ}
    (h : ∀ e ∈ entries, ∃ cmd, e.2.toCommand = some cmd ∧ cmd.instrument = i) :
    ∃ info, inspect (some (fileWith entries)) i = .ok info := by
  obtain ⟨fingerprint, hinspect⟩ := inspectRecords_numbered h 0 0xcbf29ce484222325
  have hnumbered : (entries.mapIdx fun k e => (⟨UInt64.ofNat (0 + k + 1), e.1, e.2⟩ : Record)) =
      numbered entries := by
    simp only [zero_add]
    rfl
  rw [hnumbered] at hinspect
  refine ⟨⟨i, (numbered entries).length, (numbered entries).length, fingerprint⟩, ?_⟩
  rw [inspect, fileWith, Journal.readJournal_encode]
  change (inspectRecords i 1 0xcbf29ce484222325 (numbered entries) >>= _) = _
  rw [show inspectRecords i 1 _ _ = _ from hinspect]
  rfl

/-- The records of a log with fewer than `2 ^ 64` of them have numbers above zero. -/
theorem filter_numbered (h : entries.length < 2 ^ 64) :
    ((numbered entries).filter fun r => 0 < r.seq.toNat) = numbered entries := by
  refine filter_eq_self.mpr fun r hr => ?_
  obtain ⟨k, hk, rfl⟩ := mem_mapIdx.mp hr
  have hseq : (UInt64.ofNat (k + 1)).toNat = k + 1 := UInt64.toNat_ofNat_of_lt'
    (show k + 1 < 2 ^ 64 by omega)
  exact decide_eq_true (by rw [hseq]; exact Nat.succ_pos k)

/-- The log of single commands in range is read as the commands of its frames. -/
theorem assetEntries_numbered {cmds : List Command}
    (hframes : entries.map Prod.snd = cmds.map encodeCommand)
    (hcmds : ∀ c ∈ cmds, c.Single ∧ c.InRange) :
    assetEntries (numbered entries) =
      (cmds.map fun c => (c.rebuilt, encodeCommand c)).map .ok := by
  have hread : assetEntries (numbered entries) = (entries.map Prod.snd).map assetEntry := by
    rw [← Journal.map_frame_numbered, List.map_map]
    rfl
  rw [hread, hframes, List.map_map, List.map_map]
  refine map_congr_left fun c hc => ?_
  simp only [Function.comp_apply, assetEntry, Frame.toCommand_encode (hcmds c hc).1 (hcmds c hc).2]

end TradeCore
