import TradeCore.AppliedProofs
import TradeCore.Lib.Chunks

/-!
# The Execution Outbox at Start

Every execution report of a committed batch is appended to the **outbox**, a directory of
segment files, before the batch gets its application proof. A start trims the newest segment
to the records that the largest proved index covers: what lies behind it belongs to a batch
that will be applied again.

The largest proved index is taken from the two proof files by way of an `Option`, in which an
error of the loader and an empty history look alike.

## Main results

* `ProofFiles.mem_load` — when the proof files load, they load exactly the proofs that
  are complete on disk.
* `truncateAfterApplied_spec` — what trimming leaves of a segment.
* `ShardStart.keepsCovered_iff` — a start keeps every proved record exactly when the proof
  files load and no proved record stands behind one beyond all proofs, or when it stops
  before it touches the outbox.
* `ShardStart.unreadable_proofs_erase` — a damaged proof file costs the whole newest segment.
-/

namespace TradeCore

open Std List Option

/-! ### Files -/

/-- A file on disk, with the error that opening it gives, if any. A file that exists is
found. -/
structure DiskFile where
  bytes : List UInt8
  fault : Option IoError := none
  found : fault ≠ some .notFound := by simp
  deriving DecidableEq

/-- What opening and reading gives. -/
def DiskFile.read : Option DiskFile → Stored
  | none => .error .notFound
  | some f => f.fault.elim (.ok f.bytes) .error

/-! ### Application watermarks -/

namespace AppliedMarker

/-- The length of a record of the first format: an index and its checksum. -/
def LEN : ℕ := 16

/-- The checksum of a record holds. -/
def intact (record : List UInt8) : Bool :=
  fnv1a (record.take 8) = UInt64.ofNat (leNat (record.drop 8))

/-- The index of a record. -/
def index (record : List UInt8) : UInt64 := UInt64.ofNat (leNat (record.take 8))

/-- The next record. A short rest ends the scan, a wrong checksum is an error. -/
def next (bs : List UInt8) : Except IoError (Option (UInt64 × List UInt8)) :=
  match readExact LEN bs with
  | none => .ok none
  | some (record, rest) =>
    if intact record then .ok (some (index record, rest))
    else .error (.invalidData "applied Raft batch watermark checksum mismatch")

end AppliedMarker

/-- Load the watermarks of the old format. -/
def loadAppliedMarkers : Stored → Except IoError (ExtTreeSet UInt64)
  | .error .notFound => .ok ∅
  | .error e => .error e
  | .ok file =>
    let insert (applied : ExtTreeSet UInt64) (index : UInt64) :
      Except IoError (ExtTreeSet UInt64) := .ok (applied.insert index)
    (foldRecords AppliedMarker.next insert file.length ∅ file).map Prod.fst

/-- Load the indices of all applied batches: those of the old format, then those with a
proof. -/
def loadAppliedBatches (markers proofs : Stored) : Except IoError (ExtTreeSet UInt64) := do
  let applied ← loadAppliedMarkers markers
  let proofs ← loadAppliedBatchProofs proofs
  return applied.insertMany proofs.keys

/-! ### Outbox records -/

/-- The length of an encoded execution report. -/
def REPORT_LEN : ℕ := 56

/-- The length of an outbox record. -/
def OUTBOX_RECORD_LEN : ℕ := 4 + 8 + 4 + REPORT_LEN + 8

/-- Magic and format version of an outbox segment. -/
def OUTBOX_HEADER : List UInt8 := [0x54, 0x43, 0x45, 0x58, 0x01, 0x00, 0x00, 0x00]

/-- An encoded execution report. -/
abbrev ReportFrame := { bytes : List UInt8 // bytes.length = REPORT_LEN }

/-- One execution report of a committed batch. -/
structure OutboxRecord where
  raftGroup : UInt32
  raftIndex : UInt64
  ordinal : UInt32
  reportFrame : ReportFrame
  deriving DecidableEq

theorem length_sampleReport : ((List.range REPORT_LEN).map UInt8.ofNat).length = REPORT_LEN := by
  rw [length_map, length_range]

/-- A report frame with different bytes. -/
def sampleReport : ReportFrame := ⟨(List.range REPORT_LEN).map UInt8.ofNat, length_sampleReport⟩

/-- A record of a batch that made one report. -/
def singleReport (raftIndex : UInt64) : OutboxRecord := ⟨0, raftIndex, 0, sampleReport⟩

namespace OutboxRecord

/-- The bytes of a record under its checksum. -/
def body (r : OutboxRecord) : List UInt8 :=
  leBytes 4 r.raftGroup.toNat ++ leBytes 8 r.raftIndex.toNat ++ leBytes 4 r.ordinal.toNat ++
    r.reportFrame.val

/-- A record as it stands in the file. -/
def bytes (r : OutboxRecord) : List UInt8 := r.body ++ leBytes 8 (fnv1a r.body).toNat

/-- The checksum of a record holds. -/
def intact (record : List UInt8) : Bool :=
  fnv1a (record.take (OUTBOX_RECORD_LEN - 8)) =
    UInt64.ofNat (leNat (record.drop (OUTBOX_RECORD_LEN - 8)))

/-- The Raft index of a record. -/
def indexOf (record : List UInt8) : UInt64 := UInt64.ofNat (leNat ((record.drop 4).take 8))

/-- A record that trimming keeps: intact and not beyond the largest applied index. -/
def applied (maxAppliedIndex : Option UInt64) (record : List UInt8) : Bool :=
  intact record && maxAppliedIndex.any (indexOf record ≤ ·)

/-- The next record to keep, as long as there is one. -/
def nextApplied (maxAppliedIndex : Option UInt64) (bs : List UInt8) :
    Except IoError (Option (UInt64 × List UInt8)) :=
  match readExact OUTBOX_RECORD_LEN bs with
  | none => .ok none
  | some (record, rest) =>
    if applied maxAppliedIndex record then .ok (some (indexOf record, rest)) else .ok none

end OutboxRecord

open OutboxRecord (indexOf applied intact)

/-- Trim a segment so that it ends with the last record up to the largest applied index. -/
def truncateAfterApplied (file : Option DiskFile) (maxAppliedIndex : Option UInt64) :
    Except IoError (Option DiskFile) :=
  match file with
  | none => .ok none
  | some f =>
    match f.fault with
    | some e => .error e
    | none =>
      match readExact OUTBOX_HEADER.length f.bytes with
      | none => .ok (some f)
      | some (header, rest) =>
        if header ≠ OUTBOX_HEADER then
          .error (.invalidData "execution outbox header/version mismatch")
        else do
          let (keep, _) ← foldRecords (OutboxRecord.nextApplied maxAppliedIndex)
            (fun keep _ => .ok (keep + OUTBOX_RECORD_LEN)) rest.length OUTBOX_HEADER.length rest
          return some { f with bytes := f.bytes.take keep }

/-- Open a segment for appending. A new or empty one gets a header. -/
def openSegment : Option DiskFile → Except IoError DiskFile
  | none => .ok { bytes := OUTBOX_HEADER }
  | some f =>
    match f.fault with
    | some e => .error e
    | none =>
      if f.bytes = [] then .ok { bytes := OUTBOX_HEADER }
      else match readExact OUTBOX_HEADER.length f.bytes with
        | none => .error .unexpectedEof
        | some (header, _) =>
          if header ≠ OUTBOX_HEADER then
            .error (.invalidData "execution outbox header/version mismatch")
          else .ok f

/-- Trim the newest segment and open it. The segments as they are left are returned with the
outcome. -/
def recoverOutbox (segments : List DiskFile) (maxAppliedIndex : Option UInt64) :
    List DiskFile × Except IoError Unit :=
  match truncateAfterApplied segments.getLast? maxAppliedIndex with
  | .error e => (segments, .error e)
  | .ok newest =>
    match openSegment newest with
    | .error e => (segments.dropLast ++ newest.toList, .error e)
    | .ok file => (segments.dropLast ++ [file], .ok ())

/-! ### Start of a shard -/

/-- The two proof files of a shard. -/
structure ProofFiles where
  markers : Option DiskFile := none
  proofs : Option DiskFile := none

/-- Load the applied batches of a shard. -/
def ProofFiles.load (p : ProofFiles) : Except IoError (ExtTreeSet UInt64) :=
  loadAppliedBatches (DiskFile.read p.markers) (DiskFile.read p.proofs)

/-- How the state of a shard is recovered before the outbox: from its own snapshot and
journal, from a snapshot that carries its Raft index (or from nothing), or from files of an
older version, with the last sequence number found in them and the outcome of writing them as a
snapshot. -/
inductive Recovery where
  | standalone (outcome : Except IoError Unit)
  | authoritative (outcome : Except IoError Unit)
  | legacy (lastSeq : Except IoError UInt64) (persisted : Except IoError Unit)

/-- The outcome of the recovery. Only the upgrade of older files reads the proofs. -/
def Recovery.run (load : Except IoError (ExtTreeSet UInt64)) : Recovery → Except IoError Unit
  | .standalone outcome => outcome
  | .authoritative outcome => outcome
  | .legacy lastSeq persisted => do
    let lastSeq ← lastSeq
    let applied ← load
    if lastSeq ≠ 0 ∧ applied.max?.getD 0 = 0 then
      .error (.invalidData "legacy matching state has no durable Raft application watermark")
    else persisted

/-- What a start of a shard with an outbox finds: the proof files and the state to recover,
if it has a journal directory, and the outbox segments in order. -/
structure ShardStart where
  journal : Option (ProofFiles × Recovery)
  segments : List DiskFile

/-- Start a shard. Returns the outbox as it is left, and the outcome. -/
def ShardStart.build (s : ShardStart) : List DiskFile × Except IoError Unit :=
  match s.journal with
  | none => recoverOutbox s.segments none
  | some (proofs, recovery) =>
    match recovery.run proofs.load with
    | .error e => (s.segments, .error e)
    | .ok () =>
      let maxApplied := proofs.load.toOption.bind ExtTreeSet.max?
      recoverOutbox s.segments maxApplied

/-! ### What is on disk -/

namespace AppliedMarker

/-- The batches with a complete, intact watermark in a file. -/
def onDisk (file : List UInt8) : List UInt64 := ((chunks LEN file).filter intact).map index

end AppliedMarker

namespace AppliedBatchProof

/-- The checksum of a proof record holds. -/
def intact (record : List UInt8) : Bool :=
  fnv1a (record.take 24) = UInt64.ofNat (leNat (record.drop 24))

/-- The Raft index of a proof record. -/
def indexOf (record : List UInt8) : UInt64 := UInt64.ofNat (leNat (record.take 8))

/-- The batches with a complete, intact proof in a file. -/
def onDisk (file : List UInt8) : List UInt64 :=
  ((chunks APPLIED_PROOF_RECORD_LEN (file.drop APPLIED_PROOF_HEADER.length)).filter intact).map
    indexOf

end AppliedBatchProof

/-- The batches that have a complete proof record on disk, whether or not the files can be
loaded. -/
def ProofFiles.proved (p : ProofFiles) : List UInt64 :=
  p.markers.elim [] (fun f => AppliedMarker.onDisk f.bytes) ++
    p.proofs.elim [] fun f => AppliedBatchProof.onDisk f.bytes

/-- What is folded with an insertion that never fails. -/
theorem mem_foldlM_insert {xs : List UInt64} {applied applied' : ExtTreeSet UInt64}
    (h : xs.foldlM (fun a i => Except.ok (ε := IoError) (a.insert i)) applied = .ok applied')
    (i : UInt64) : i ∈ applied' ↔ i ∈ applied ∨ i ∈ xs := by
  induction xs generalizing applied with
  | nil =>
    cases h
    simp
  | cons x xs ih =>
    rw [foldlM_cons] at h
    rw [ih h, ExtTreeSet.mem_insert, LawfulEqCmp.compare_eq_iff_eq, mem_cons]
    tauto

/-- When the watermarks load, all that is on disk is loaded. -/
theorem mem_loadAppliedMarkers {file : Option DiskFile} {applied : ExtTreeSet UInt64}
    (h : loadAppliedMarkers (DiskFile.read file) = .ok applied) (i : UInt64) :
    i ∈ applied ↔ i ∈ file.elim [] fun f => AppliedMarker.onDisk f.bytes := by
  cases file with
  | none =>
    cases h
    simp
  | some f =>
    cases hfault : f.fault with
    | some e =>
      simp only [DiskFile.read, hfault, elim_some] at h
      cases e with
      | notFound => exact absurd hfault f.found
      | _ => cases h
    | none =>
      simp only [DiskFile.read, hfault, elim_none, loadAppliedMarkers] at h
      obtain ⟨res, hscan, rfl⟩ := exists_of_map_eq_ok h
      obtain ⟨hall, hfold⟩ := @foldRecords_intact AppliedMarker.LEN _ _ _ _ _
        AppliedMarker.intact AppliedMarker.index
        (.invalidData "applied Raft batch watermark checksum mismatch") (by decide)
        (fun bs hbs => by rw [AppliedMarker.next, readExact_of_lt hbs])
        (fun c rest hc => by rw [AppliedMarker.next, readExact_append hc]) _ _ _ hscan
      rw [mem_foldlM_insert hfold, elim_some, AppliedMarker.onDisk, filter_eq_self.mpr hall]
      simp

/-- What is folded with the insertion of proofs. -/
theorem mem_foldlM_insert_proof {ps : List AppliedBatchProof}
    {proofs proofs' : ExtTreeMap UInt64 AppliedBatchProof}
    (h : ps.foldlM AppliedProofs.insert proofs = .ok proofs') (i : UInt64) :
    i ∈ proofs' ↔ i ∈ proofs ∨ i ∈ ps.map AppliedBatchProof.raftIndex := by
  induction ps generalizing proofs with
  | nil =>
    cases h
    simp
  | cons p ps ih =>
    have hins : AppliedProofs.insert proofs p = .ok (proofs.insert p.raftIndex p) ∨
        ∃ e, AppliedProofs.insert proofs p = .error e := by
      unfold AppliedProofs.insert
      split
      · exact .inl rfl
      · split
        · exact .inr ⟨_, rfl⟩
        · exact .inl rfl
    rw [foldlM_cons] at h
    obtain hins | ⟨e, hins⟩ := hins
    · rw [hins] at h
      rw [ih h, ExtTreeMap.mem_insert, LawfulEqCmp.compare_eq_iff_eq, map_cons, mem_cons]
      tauto
    · rw [hins] at h
      cases h

/-- When the proofs load, all that is on disk is loaded. -/
theorem mem_loadAppliedBatchProofs {file : Option DiskFile}
    {proofs : ExtTreeMap UInt64 AppliedBatchProof}
    (h : loadAppliedBatchProofs (DiskFile.read file) = .ok proofs) (i : UInt64) :
    i ∈ proofs ↔ i ∈ file.elim [] fun f => AppliedBatchProof.onDisk f.bytes := by
  cases file with
  | none =>
    cases h
    simp
  | some f =>
    cases hfault : f.fault with
    | some e =>
      simp only [DiskFile.read, hfault, elim_some] at h
      cases e with
      | notFound => exact absurd hfault f.found
      | _ => cases h
    | none =>
      simp only [DiskFile.read, hfault, elim_none, loadAppliedBatchProofs] at h
      obtain ⟨-, hread⟩ | ⟨header, rest, hlen, hbytes, hread⟩ :=
        readExact_cases APPLIED_PROOF_HEADER.length f.bytes
      · rw [hread] at h
        cases h
      rw [hread] at h
      dsimp only at h
      split at h
      · cases h
      obtain ⟨res, hscan, rfl⟩ := exists_of_map_eq_ok h
      obtain ⟨hall, hfold⟩ := @foldRecords_intact APPLIED_PROOF_RECORD_LEN _ _ _ _ _
        AppliedBatchProof.intact
        (fun record =>
          { raftIndex := AppliedBatchProof.indexOf record
            reportCount := UInt32.ofNat (leNat ((record.drop 8).take 4))
            reportFingerprint := UInt64.ofNat (leNat ((record.drop 16).take 8)) })
        (.invalidData "applied Raft proof checksum mismatch") (by decide)
        (fun bs hbs => by rw [AppliedProofs.next, readExact_of_lt hbs])
        (fun c rest hc => by
          rw [AppliedProofs.next, readExact_append hc]
          simp only [AppliedBatchProof.intact, AppliedBatchProof.indexOf, decide_eq_true_eq,
            ne_eq, ite_not]) _ _ _ hscan
      have hdrop : f.bytes.drop APPLIED_PROOF_HEADER.length = rest := by
        rw [hbytes, drop_left' hlen]
      rw [mem_foldlM_insert_proof hfold, elim_some, AppliedBatchProof.onDisk, hdrop,
        filter_eq_self.mpr hall, List.map_map]
      simp only [ExtTreeMap.not_mem_empty, false_or]
      rfl

/-- **When the proof files load, exactly the proofs that are complete on disk are loaded.** -/
theorem ProofFiles.mem_load {p : ProofFiles} {applied : ExtTreeSet UInt64}
    (h : p.load = .ok applied) (i : UInt64) : i ∈ applied ↔ i ∈ p.proved := by
  simp only [load, loadAppliedBatches, bind, Except.bind] at h
  split at h
  · cases h
  rename_i markers hmarkers
  split at h
  · cases h
  rename_i proofs hproofs
  cases h
  rw [ExtTreeSet.mem_insertMany_list, proved, mem_append,
    mem_loadAppliedMarkers hmarkers, ← mem_loadAppliedBatchProofs hproofs]
  simp

/-! ### Trimming -/

namespace DiskFile

/-- The places of a segment that hold a complete record, intact or not. -/
def slots (f : DiskFile) : List (List UInt8) :=
  chunks OUTBOX_RECORD_LEN (f.bytes.drop OUTBOX_HEADER.length)

/-- The records of a segment that some indices cover. -/
def covered (proved : List UInt64) (f : DiskFile) : List (List UInt8) :=
  f.slots.filter fun record =>
    OutboxRecord.intact record && decide (OutboxRecord.indexOf record ∈ proved)

/-- A segment that neither can be opened nor is empty: it cannot be read, or does not begin
with the header. -/
def Damaged (f : DiskFile) : Prop :=
  f.fault.isSome ∨ f.bytes ≠ [] ∧ f.bytes.take OUTBOX_HEADER.length ≠ OUTBOX_HEADER

instance (f : DiskFile) : Decidable f.Damaged := inferInstanceAs (Decidable (_ ∨ _))

end DiskFile

namespace DiskFile

variable {f : DiskFile}

/-- A segment that is not damaged is empty or begins with the header. -/
theorem bytes_of_not_damaged (hf : ¬ f.Damaged) :
    f.fault = none ∧ (f.bytes = [] ∨ ∃ rest, f.bytes = OUTBOX_HEADER ++ rest) := by
  rw [Damaged, not_or, not_and_or, not_not, not_not, not_isSome_iff_eq_none] at hf
  refine ⟨hf.1, hf.2.imp_right fun htake => ⟨f.bytes.drop OUTBOX_HEADER.length, ?_⟩⟩
  calc f.bytes = f.bytes.take OUTBOX_HEADER.length ++ f.bytes.drop OUTBOX_HEADER.length :=
        (take_append_drop _ _).symm
    _ = OUTBOX_HEADER ++ f.bytes.drop OUTBOX_HEADER.length := by rw [htake]

/-- A segment that begins with the header is not damaged. -/
theorem not_damaged_of_header {rest : List UInt8} (hfault : f.fault = none)
    (hbytes : f.bytes = OUTBOX_HEADER ++ rest) : ¬ f.Damaged := by
  rw [Damaged, hfault, hbytes]
  simp

end DiskFile

/-- **Trimming keeps the records up to the first that is not applied.** -/
theorem truncateAfterApplied_spec {f : DiskFile} (hf : ¬ f.Damaged) (m : Option UInt64) :
    ∃ f', truncateAfterApplied (some f) m = .ok (some f') ∧ ¬ f'.Damaged ∧
      f'.slots = f.slots.takeWhile (applied m) ∧
      (f'.bytes = [] ∨ f'.bytes = OUTBOX_HEADER ++ f'.slots.flatten) := by
  obtain ⟨hfault, hempty | ⟨rest, hbytes⟩⟩ := f.bytes_of_not_damaged hf
  · have hslots : f.slots = [] := by
      simp [DiskFile.slots, hempty, chunks, chunksFuel]
    refine ⟨f, ?_, hf, by simp [hslots], .inl hempty⟩
    have hread : readExact OUTBOX_HEADER.length f.bytes = none := by
      rw [hempty]
      rfl
    simp [truncateAfterApplied, hfault, hread]
  · have hread := @readExact_append _ OUTBOX_HEADER rfl rest
    have hslots : f.slots = chunks OUTBOX_RECORD_LEN rest := by
      rw [DiskFile.slots, hbytes, drop_left]
    obtain ⟨left, hscan⟩ := @foldRecords_takeWhile OUTBOX_RECORD_LEN IoError UInt64 ℕ
      (OutboxRecord.nextApplied m) (fun keep _ => .ok (keep + OUTBOX_RECORD_LEN))
      (applied m) indexOf (by decide)
      (fun bs hbs => by rw [OutboxRecord.nextApplied, readExact_of_lt hbs])
      (fun c rest hc => by rw [OutboxRecord.nextApplied, readExact_append hc])
      OUTBOX_HEADER.length rest
    set kept := (chunks OUTBOX_RECORD_LEN rest).takeWhile (applied m)
    have hcount : ∀ (cs : List (List UInt8)) (keep : ℕ),
        cs.foldlM (fun keep _ => Except.ok (ε := IoError) (keep + OUTBOX_RECORD_LEN)) keep =
          .ok (keep + OUTBOX_RECORD_LEN * cs.length) := by
      intro cs
      induction cs with
      | nil => exact fun keep => rfl
      | cons c cs ih =>
        intro keep
        rw [foldlM_cons, length_cons, Nat.mul_succ]
        refine (ih (keep + OUTBOX_RECORD_LEN)).trans (congrArg Except.ok ?_)
        omega
    rw [hcount] at hscan
    have hpre : kept <+: chunks OUTBOX_RECORD_LEN rest := takeWhile_prefix _
    have hcut : f.bytes.take (OUTBOX_HEADER.length + OUTBOX_RECORD_LEN * kept.length) =
        OUTBOX_HEADER ++ kept.flatten := by
      rw [hbytes, take_length_add_append, take_eq_flatten (by decide) hpre.length_le,
        ← prefix_iff_eq_take.mp hpre]
    have hkept : ∀ c ∈ kept, c.length = OUTBOX_RECORD_LEN := fun c hc =>
      (chunks_spec (by decide) rest).1 c (hpre.subset hc)
    have hslots' : chunks OUTBOX_RECORD_LEN kept.flatten = kept := by
      have := @chunks_flatten OUTBOX_RECORD_LEN kept hkept [] (by decide)
      rwa [append_nil] at this
    refine ⟨{ f with bytes := OUTBOX_HEADER ++ kept.flatten }, ?_,
      DiskFile.not_damaged_of_header hfault rfl, ?_⟩
    · rw [← hbytes] at hread
      simp only [truncateAfterApplied, hfault, hread, hscan, Except.map, bind, Except.bind, hcut]
      rfl
    · rw [DiskFile.slots, drop_left, hslots', hslots]
      exact ⟨rfl, .inr rfl⟩

/-- A damaged segment is left alone, and cannot be opened. -/
theorem recoverOutbox_damaged {segments : List DiskFile} {f : DiskFile}
    (hlast : segments.getLast? = some f) (hf : f.Damaged) (m : Option UInt64) :
    ∃ e, recoverOutbox segments m = (segments, .error e) := by
  have hback : segments.dropLast ++ [f] = segments := dropLast_append_getLast? f hlast
  unfold recoverOutbox
  rw [hlast]
  cases hfault : f.fault with
  | some e =>
    refine ⟨e, ?_⟩
    simp [truncateAfterApplied, hfault]
  | none =>
    obtain ⟨hne, hhead⟩ : f.bytes ≠ [] ∧ f.bytes.take OUTBOX_HEADER.length ≠ OUTBOX_HEADER := by
      simpa [DiskFile.Damaged, hfault] using hf
    obtain ⟨-, hread⟩ | ⟨header, rest, hlen, hbytes, hread⟩ :=
      readExact_cases OUTBOX_HEADER.length f.bytes
    · refine ⟨.unexpectedEof, ?_⟩
      simp [truncateAfterApplied, openSegment, hfault, hread, hne, hback]
    · have hbad : header ≠ OUTBOX_HEADER := by
        rwa [hbytes, take_left' hlen] at hhead
      refine ⟨.invalidData "execution outbox header/version mismatch", ?_⟩
      simp [truncateAfterApplied, hfault, hread, hbad]

/-- **A segment that is not damaged** is trimmed and opened, without a torn rest. -/
theorem exists_recovered {f : DiskFile} (hf : ¬ f.Damaged) (m : Option UInt64) :
    ∃ f₁ f₂, truncateAfterApplied (some f) m = .ok (some f₁) ∧ openSegment (some f₁) = .ok f₂ ∧
      f₂.slots = f.slots.takeWhile (applied m) ∧
      f₂.bytes = OUTBOX_HEADER ++ f₂.slots.flatten := by
  obtain ⟨f₁, htrim, hf₁, hslots, hcut⟩ := truncateAfterApplied_spec hf m
  obtain ⟨hfault, hempty | ⟨rest, hbytes⟩⟩ := f₁.bytes_of_not_damaged hf₁
  · refine ⟨f₁, { bytes := OUTBOX_HEADER }, htrim, by simp [openSegment, hfault, hempty], ?_, rfl⟩
    rw [← hslots]
    simp [DiskFile.slots, hempty]
  · have hread := @readExact_append _ OUTBOX_HEADER rfl rest
    have hne : f₁.bytes ≠ [] := by simp [hbytes, OUTBOX_HEADER]
    rw [← hbytes] at hread
    exact ⟨f₁, f₁, htrim, by simp [openSegment, hfault, hne, hread], hslots, hcut.resolve_left hne⟩

/-- Any other outbox is trimmed and opened. -/
theorem recoverOutbox_ok {segments : List DiskFile}
    (h : ∀ f ∈ segments.getLast?, ¬ f.Damaged) (m : Option UInt64) :
    ∃ f', recoverOutbox segments m = (segments.dropLast ++ [f'], .ok ()) ∧
      f'.slots = segments.getLast?.elim [] fun f => f.slots.takeWhile (applied m) := by
  unfold recoverOutbox
  cases hlast : segments.getLast? with
  | none => exact ⟨{ bytes := OUTBOX_HEADER }, rfl, rfl⟩
  | some f =>
    obtain ⟨f₁, f₂, htrim, hopen, hslots, -⟩ := exists_recovered (h f hlast) m
    refine ⟨f₂, ?_, hslots⟩
    rw [htrim]
    simp only [hopen]

/-! ### Starts -/

namespace ShardStart

/-- The indices with a complete proof on disk. -/
def proved (s : ShardStart) : List UInt64 := s.journal.elim [] fun j => j.1.proved

/-- The proofs, if the shard has any, can be loaded. -/
def Loads (s : ShardStart) : Prop := ∀ j ∈ s.journal, ∃ applied, j.1.load = .ok applied

/-- The recovery of the state stops the start before the outbox is looked at. -/
def Stops (s : ShardStart) : Prop := ∃ j ∈ s.journal, ∃ e, j.2.run j.1.load = .error e

/-- In the newest segment, every record before a proved one is intact, and its index is at
most a proved one. Records in the order of their indices are such. -/
def InOrder (s : ShardStart) : Prop :=
  ∀ f ∈ s.segments.getLast?, f.slots.Pairwise fun a b =>
    OutboxRecord.intact b → OutboxRecord.indexOf b ∈ s.proved →
      OutboxRecord.intact a ∧ ∃ i ∈ s.proved, OutboxRecord.indexOf a ≤ i

/-- What a start owes to the outbox: no record of a proved batch disappears from its segment,
and if the proofs cannot be loaded the start fails and leaves the outbox alone. -/
def KeepsCovered (s : ShardStart) : Prop :=
  (∀ (k : ℕ) (f : DiskFile), s.segments[k]? = some f →
    ∃ f' : DiskFile, s.build.1[k]? = some f' ∧ f'.covered s.proved = f.covered s.proved) ∧
  (¬ s.Loads → (∃ e, s.build.2 = .error e) ∧ s.build.1 = s.segments)

/-- What the trim compares with: the largest loaded index is at least some index exactly when
a proved one is. -/
theorem any_max?_iff {applied : ExtTreeSet UInt64} {proved : List UInt64}
    (h : ∀ i, i ∈ applied ↔ i ∈ proved) (x : UInt64) :
    applied.max?.any (x ≤ ·) ↔ ∃ i ∈ proved, x ≤ i := by
  cases hmax : applied.max? with
  | none =>
    have hnone : applied = ∅ := ExtTreeSet.max?_eq_none_iff.mp hmax
    simp [← h, hnone]
  | some m =>
    obtain ⟨hm, hle⟩ := ExtTreeSet.max?_eq_some_iff_mem_and_forall.mp hmax
    simp only [any_some, decide_eq_true_eq]
    refine ⟨fun hx => ⟨m, (h m).mp hm, hx⟩, fun ⟨i, hi, hx⟩ => ?_⟩
    have := hle i ((h i).mpr hi)
    rw [Std.isLE_compare] at this
    exact UInt64.le_trans hx this

/-- Trimming to a condition that wanted elements meet loses none of them exactly when all
elements before a wanted one meet it. -/
theorem filter_takeWhile_eq_iff {α : Type} {p q : α → Bool} (hqp : ∀ a, q a → p a)
    (l : List α) :
    (l.takeWhile p).filter q = l.filter q ↔ l.Pairwise fun a b => q b → p a := by
  induction l with
  | nil => simp
  | cons a l ih =>
    rw [pairwise_cons]
    by_cases ha : p a
    · rw [takeWhile_cons_of_pos ha, filter_cons, filter_cons]
      have htail : (∀ b ∈ l, q b → p a) ∧ (l.Pairwise fun a b => q b → p a) ↔
          l.Pairwise fun a b => q b → p a := and_iff_right fun _ _ _ => ha
      rw [htail, ← ih]
      split <;> simp
    · have hqa : ¬ q a := fun h => ha (hqp a h)
      rw [takeWhile_cons_of_neg ha, filter_cons_of_neg hqa, filter_nil, eq_comm, filter_eq_nil_iff]
      refine ⟨fun hnone => ⟨fun b hb hq => absurd hq (hnone b hb), ?_⟩,
        fun h b hb hq => ha (h.1 b hb hq)⟩
      exact pairwise_of_forall_mem_list fun x hx y hy hq => absurd hq (hnone y hy)

/-- A start that fails before it touches the outbox owes nothing. -/
theorem keepsCovered_of_failed {s : ShardStart} {e : IoError}
    (h : s.build = (s.segments, .error e)) : s.KeepsCovered := by
  refine ⟨fun k f hf => ⟨f, ?_, rfl⟩, fun _ => ⟨⟨e, ?_⟩, ?_⟩⟩
  all_goals rw [h]
  exact hf

/-- A start that is not stopped trims with the largest loaded index; when the proofs load it
is the largest proved one. -/
theorem build_of_not_stops {s : ShardStart} (h : ¬ s.Stops) :
    ∃ m, s.build = recoverOutbox s.segments m ∧
      (s.Loads → ∀ x, m.any (x ≤ ·) ↔ ∃ i ∈ s.proved, x ≤ i) := by
  unfold build
  cases hj : s.journal with
  | none => exact ⟨none, rfl, fun _ x => by simp [proved, hj]⟩
  | some j =>
    obtain ⟨proofs, recovery⟩ := j
    cases hrun : recovery.run proofs.load with
    | error e => exact absurd ⟨_, hj, e, hrun⟩ h
    | ok u =>
      refine ⟨proofs.load.toOption.bind ExtTreeSet.max?, by simp only [hrun], fun hloads x => ?_⟩
      obtain ⟨applied, happlied⟩ := hloads _ hj
      dsimp only at happlied
      have hproved : s.proved = proofs.proved := by simp [proved, hj]
      rw [happlied, hproved]
      exact any_max?_iff (ProofFiles.mem_load happlied) x

/-- **When a start keeps every proved record.** It does exactly if the recovery of the state
or a damaged newest segment stops it, or if the proof files load and no proved record stands
behind a damaged one or one beyond all proofs. -/
theorem keepsCovered_iff (s : ShardStart) :
    s.KeepsCovered ↔
      s.Stops ∨ (∃ f ∈ s.segments.getLast?, f.Damaged) ∨ s.Loads ∧ s.InOrder := by
  by_cases hstops : s.Stops
  · refine iff_of_true ?_ (.inl hstops)
    obtain ⟨j, hj, e, he⟩ := hstops
    refine keepsCovered_of_failed (e := e) ?_
    rw [build, mem_def.mp hj]
    simp only [he]
  rw [or_iff_right hstops]
  obtain ⟨m, hbuild, hm⟩ := build_of_not_stops hstops
  by_cases hdamaged : ∃ f ∈ s.segments.getLast?, f.Damaged
  · refine iff_of_true ?_ (.inl hdamaged)
    obtain ⟨f, hf, hfd⟩ := hdamaged
    obtain ⟨e, he⟩ := recoverOutbox_damaged hf hfd m
    exact keepsCovered_of_failed (hbuild.trans he)
  rw [or_iff_right hdamaged]
  have hintact : ∀ f ∈ s.segments.getLast?, ¬ f.Damaged := fun f hf hd => hdamaged ⟨f, hf, hd⟩
  obtain ⟨f', hrec, hslots⟩ := recoverOutbox_ok hintact m
  rw [hrec] at hbuild
  -- the newest segment keeps its proved records exactly when they stand in front
  have hcovered : s.Loads → ∀ f ∈ s.segments.getLast?,
      (f'.covered s.proved = f.covered s.proved ↔ f.slots.Pairwise fun a b =>
        intact b → indexOf b ∈ s.proved →
          intact a ∧ ∃ i ∈ s.proved, indexOf a ≤ i) := by
    intro hloads f hf
    have hm := hm hloads
    rw [mem_def.mp hf, elim_some] at hslots
    rw [DiskFile.covered, DiskFile.covered, hslots, filter_takeWhile_eq_iff]
    · simp only [applied, Bool.and_eq_true, hm, decide_eq_true_eq, and_imp]
    · intro a ha
      simp only [Bool.and_eq_true, decide_eq_true_eq] at ha
      simp only [applied, Bool.and_eq_true, hm]
      exact ⟨ha.1, _, ha.2, UInt64.le_refl _⟩
  unfold KeepsCovered InOrder
  rw [hbuild]
  constructor
  · rintro ⟨hkeeps, hfails⟩
    have hloads : s.Loads := by
      by_contra hno
      obtain ⟨⟨e, he⟩, -⟩ := hfails hno
      cases he
    refine ⟨hloads, fun f hf => (hcovered hloads f hf).mp ?_⟩
    have hsplit : s.segments.dropLast ++ [f] = s.segments := dropLast_append_getLast? f hf
    obtain ⟨f'', hf'', hcov⟩ := hkeeps s.segments.dropLast.length f (by
      rw [← hsplit]
      simp)
    rw [getElem?_concat_length, some.injEq] at hf''
    rw [hf'', hcov]
  · rintro ⟨hloads, horder⟩
    refine ⟨fun k f hk => ?_, fun hno => absurd hloads hno⟩
    cases hlast : s.segments.getLast? with
    | none =>
      rw [getLast?_eq_none_iff.mp hlast] at hk
      simp at hk
    | some last =>
      have hsplit : s.segments.dropLast ++ [last] = s.segments :=
        dropLast_append_getLast? last hlast
      rw [← hsplit, getElem?_append] at hk
      rw [getElem?_append]
      split at hk
      · exact ⟨f, by rwa [if_pos ‹_›], rfl⟩
      · rw [getElem?_singleton] at hk
        split at hk
        · cases hk
          refine ⟨f', ?_, (hcovered hloads f hlast).mpr (horder f hlast)⟩
          rw [if_neg ‹_›, getElem?_singleton, if_pos ‹_›]
        · cases hk

/-- One applied batch with one report, and a proof file whose second record is damaged. -/
def damagedProofs : ShardStart :=
  let proofs : List UInt8 := APPLIED_PROOF_HEADER ++ AppliedBatchProof.bytes ⟨1, 1, 7⟩ ++
    List.replicate APPLIED_PROOF_RECORD_LEN 0
  { journal := some ({ proofs := some { bytes := proofs } }, .authoritative (.ok ()))
    segments := [{ bytes := OUTBOX_HEADER ++ (singleReport 1).bytes }] }

/-- **A damaged proof file costs the newest segment.** Batch 1 has its proof, but the error of
the loader is taken for an empty history: the start succeeds and erases the record. -/
theorem unreadable_proofs_erase :
    damagedProofs.proved = [1] ∧ damagedProofs.build = ([{ bytes := OUTBOX_HEADER }], .ok ()) ∧
      ¬ damagedProofs.KeepsCovered := by
  have hbuild : damagedProofs.build = ([{ bytes := OUTBOX_HEADER }], .ok ()) := by decide +kernel
  refine ⟨by decide +kernel, hbuild, fun h => ?_⟩
  obtain ⟨f', hf', hcovered⟩ := h.1 0 _ rfl
  rw [hbuild] at hf'
  cases hf'
  revert hcovered
  decide +kernel

end ShardStart
end TradeCore
