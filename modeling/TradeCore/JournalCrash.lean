import TradeCore.Journal

/-!
# The Journal across Crashes

A journal is appended to and flushed; now and then the process dies and leaves some bytes of
the file, and a restart reads the file, reopens it and continues the numbering. The writer
goes on at the physical end of the file, while the reader counts in whole records from the
header: the two agree as long as every crash leaves a whole number of records.

## Main results

* `JournalRun.run_readsBack` — when each crash leaves an empty file or a header with whole
  records, every restart succeeds and the journal reads back exactly the surviving records,
  numbered in strictly increasing order.
* `JournalRun.run_not_readsBack` — one byte of a torn record makes the reader lose every
  record appended after it.
-/

open List Option

namespace TradeCore

/-! ### Runs -/

/-- What can happen to a journal: an append, a flush, or a crash that leaves the first
`kept` bytes of the file and is followed by a restart. -/
inductive JournalEvent where
  | append (elapsed : Bool) (tsNanos : UInt64) (frame : Frame)
  | flush
  | crash (kept : ℕ)

/-- A journal in use: the open writer and the records that should be in the file, each with
the offset at which it ends. -/
structure JournalRun where
  writer : JournalWriter
  laid : List (Record × ℕ)

/-- The highest number among the records read. -/
def highestSeq (records : List Record) : UInt64 :=
  records.foldl (fun last record => max last record.seq) 0

/-- A restart: read the file, reopen it, resume from the highest number read. -/
def reopenJournal (disk : List UInt8) : Except IoError JournalWriter := do
  let records ← readJournal disk
  let writer ← JournalWriter.open disk
  return writer.resumeFrom (highestSeq records)

namespace JournalRun

/-- One event. A crash keeps the records that end within the bytes it leaves. -/
def step (s : JournalRun) : JournalEvent → Except IoError JournalRun
  | .append elapsed tsNanos frame =>
    let writer := s.writer.append elapsed tsNanos frame
    let record : Record := { seq := writer.seq, tsNanos := tsNanos, frame := frame }
    .ok { writer := writer
          laid := s.laid ++ [(record, writer.w.file.length + writer.w.buf.length)] }
  | .flush => .ok { s with writer := s.writer.flush }
  | .crash kept => do
    let disk := s.writer.w.file.take kept
    let writer ← reopenJournal disk
    return { writer := writer, laid := s.laid.filter (·.2 ≤ disk.length) }

/-- A run of events on a new file. -/
def run (events : List JournalEvent) : Except IoError JournalRun := do
  let writer ← reopenJournal []
  events.foldlM step { writer := writer, laid := [] }

/-- **The journal reads back**: once flushed, the reader yields exactly the records that
should be there, with strictly increasing numbers. -/
structure ReadsBack (s : JournalRun) : Prop where
  records : readJournal s.writer.flush.w.file = .ok (s.laid.map Prod.fst)
  increasing : (s.laid.map fun e => e.1.seq).Pairwise (· < ·)

/-- An event tears nothing: a crash leaves an empty file, or a header and whole records. -/
def Whole (s : JournalRun) : JournalEvent → Bool
  | .crash kept =>
    let left := s.writer.w.file.take kept
    left.length = 0 || left.length % RECORD_LEN = JOURNAL_HEADER.length
  | _ => true

/-- No event of a run tears a record. -/
def Clean (s : JournalRun) : List JournalEvent → Bool
  | [] => true
  | event :: events => s.Whole event && (s.step event).toOption.all fun s' => s'.Clean events

end JournalRun

/-- The number of appends among some events. -/
def appends (events : List JournalEvent) : ℕ :=
  events.countP fun
    | .append .. => true
    | _ => false

/-! ### Layout of a file of whole records -/

namespace Journal

/-- Records laid out from an offset on, each with the offset at which it ends. -/
def layOut : ℕ → List Record → List (Record × ℕ)
  | _, [] => []
  | off, r :: rs => (r, off + RECORD_LEN) :: layOut (off + RECORD_LEN) rs

theorem map_fst_layOut (off : ℕ) (rs : List Record) : (layOut off rs).map Prod.fst = rs := by
  induction rs generalizing off with
  | nil => rfl
  | cons r rs ih => simp [layOut, ih]

theorem layOut_concat (off : ℕ) (rs : List Record) (r : Record) :
    layOut off (rs ++ [r]) = layOut off rs ++ [(r, off + RECORD_LEN * (rs.length + 1))] := by
  induction rs generalizing off with
  | nil => simp [layOut]
  | cons r' rs ih => simp [layOut, ih, mul_add]; omega

/-- The records that end within `n` bytes are the first ones. -/
theorem filter_layOut (n off : ℕ) (rs : List Record) :
    (layOut off rs).filter (·.2 ≤ n) = layOut off (rs.take ((n - off) / RECORD_LEN)) := by
  induction rs generalizing off with
  | nil => simp [layOut]
  | cons r rs ih =>
    have hlen : RECORD_LEN = 64 := rfl
    rw [layOut, filter_cons, ih, hlen]
    by_cases h : off + 64 ≤ n
    · have hdiv : (n - off) / 64 = (n - (off + 64)) / 64 + 1 := by omega
      simp [h, hdiv, layOut, hlen]
    · have hdiv : (n - off) / 64 = 0 := by omega
      have hdiv' : (n - (off + 64)) / 64 = 0 := by omega
      simp [h, hdiv, hdiv', layOut]

theorem length_encode (rs : List Record) :
    (framing.encode rs).length = RECORD_LEN * rs.length :=
  Framing.length_encode_of_fixed Record.length_bytes rs

/-- **A file of whole records is read back.** -/
theorem readJournal_encode (rs : List Record) :
    readJournal (JOURNAL_HEADER ++ framing.encode rs) = .ok rs := by
  have hread := @readExact_append 8 JOURNAL_HEADER rfl (framing.encode rs)
  have hscan := framing.foldRecords_encode (fun acc r => .ok (acc ++ [r]))
    (fun r (_ : r ∈ rs) => trivial) (.inl rfl)
    (framing.length_le_encode fun r (_ : r ∈ rs) => trivial) []
  rw [append_nil, Framing.foldlM_collect] at hscan
  simp only [readJournal, JournalReader.open, hread, if_true, bind, Except.bind,
    JournalReader.collect]
  exact congrArg (Except.map Prod.fst) hscan

/-- The file of a writer holds the records `written`, its buffer the records `pending`. -/
structure Holds (w : BufWriter) (written pending : List Record) : Prop where
  file : w.file = JOURNAL_HEADER ++ framing.encode written
  buf : w.buf = framing.encode pending

variable {w : BufWriter} {written pending : List Record}

/-- Flushing moves the pending records to the file. -/
theorem Holds.flush (h : Holds w written pending) : Holds w.flush (written ++ pending) [] where
  file := by simp [BufWriter.flush, h.file, h.buf]
  buf := rfl

/-- The bytes of the file and the buffer are those of all records. -/
theorem Holds.length_eq (h : Holds w written pending) :
    w.file.length + w.buf.length = 8 + RECORD_LEN * (written ++ pending).length := by
  rw [h.file, h.buf, length_append, length_encode, length_encode, length_append,
    mul_add, ← add_assoc]
  rfl

/-- **Writing a record adds it whole**, to the buffer or to the file. -/
theorem Holds.writeAll (h : Holds w written pending) (r : Record) :
    ∃ written' pending', written' ++ pending' = (written ++ pending) ++ [r] ∧
      Holds (w.writeAll r.bytes) written' pending' := by
  have henc : framing.encode [r] = r.bytes := append_nil _
  have hpos : 0 < r.bytes.length := r.length_bytes ▸ Nat.zero_lt_succ _
  obtain heq | heq | heq := w.writeAll_cases hpos <;> rw [heq]
  · exact ⟨written ++ pending ++ [r], [], append_nil _, by simp [h.file, h.buf, henc], rfl⟩
  · exact ⟨written ++ pending, [r], rfl, by simp [h.file, h.buf], henc.symm⟩
  · exact ⟨written, pending ++ [r], (append_assoc _ _ _).symm, h.file, by simp [h.buf, henc]⟩

/-- An append numbers its record and adds it whole. -/
theorem Holds.append {jw : JournalWriter} (h : Holds jw.w written pending) (elapsed : Bool)
    (tsNanos : UInt64) (frame : Frame) :
    (jw.append elapsed tsNanos frame).seq = jw.seq + 1 ∧
    ∃ written' pending',
      written' ++ pending' =
        (written ++ pending) ++ [{ seq := jw.seq + 1, tsNanos := tsNanos, frame := frame }] ∧
      Holds (jw.append elapsed tsNanos frame).w written' pending' := by
  obtain ⟨written', pending', happ, hw⟩ :=
    h.writeAll { seq := jw.seq + 1, tsNanos := tsNanos, frame := frame }
  unfold JournalWriter.append
  dsimp only
  split
  · exact ⟨rfl, written' ++ pending', [], by rw [append_nil, happ], hw.flush⟩
  · exact ⟨rfl, written', pending', happ, hw⟩

end Journal

/-! ### Restarts -/

/-- The highest number read bounds them all, and is no larger than any other bound. -/
theorem highestSeq_le_iff (records : List Record) (b : ℕ) :
    (highestSeq records).toNat ≤ b ↔ ∀ r ∈ records, r.seq.toNat ≤ b := by
  have hfold : ∀ (records : List Record) (init : UInt64),
      (records.foldl (fun last record => max last record.seq) init).toNat ≤ b ↔
        init.toNat ≤ b ∧ ∀ r ∈ records, r.seq.toNat ≤ b := by
    intro records
    induction records with
    | nil => simp
    | cons r records ih =>
      intro init
      rw [foldl_cons, ih, UInt64.toNat_max, max_le_iff, forall_mem_cons, and_assoc]
  exact (hfold records 0).trans (and_iff_right (Nat.zero_le b))

/-- **A restart on whole records** succeeds and resumes from the highest of them. -/
theorem reopenJournal_encode (rs : List Record) :
    ∃ jw, reopenJournal (JOURNAL_HEADER ++ Journal.framing.encode rs) = .ok jw ∧
      Journal.Holds jw.w rs [] ∧ jw.seq = highestSeq rs := by
  have hread := @readExact_append 8 JOURNAL_HEADER rfl (Journal.framing.encode rs)
  have hne : (JOURNAL_HEADER ++ Journal.framing.encode rs).length ≠ 0 := by
    simp [JOURNAL_HEADER]
  refine ⟨{ w := { file := JOURNAL_HEADER ++ Journal.framing.encode rs, buf := [],
                   capacity := max (2 ^ 20) RECORD_LEN }
            seq := max 0 (highestSeq rs), writtenSinceFlush := 0 }, ?_, ⟨rfl, rfl⟩, ?_⟩
  · rw [reopenJournal, Journal.readJournal_encode, JournalWriter.open,
      JournalWriter.openWithCapacity, if_neg hne, hread]
    rfl
  · exact UInt64.toNat_inj.mp (by rw [UInt64.toNat_max]; exact max_eq_right (Nat.zero_le _))

/-- A restart on an empty file starts a new journal. -/
theorem reopenJournal_nil :
    ∃ jw, reopenJournal [] = .ok jw ∧ Journal.Holds jw.w [] [] ∧ jw.seq = 0 :=
  ⟨{ w := { file := JOURNAL_HEADER, buf := [], capacity := max (2 ^ 20) RECORD_LEN }
     seq := max 0 (highestSeq []), writtenSinceFlush := 0 }, rfl,
    ⟨(append_nil _).symm, rfl⟩, rfl⟩

/-! ### Runs without torn records -/

namespace JournalRun

/-- The invariant of a run that never tears a record: file and buffer hold whole records,
in the places that the run expects, numbered upwards to the writer's own number. -/
structure Aligned (s : JournalRun) : Prop where
  holds : ∃ written pending, Journal.Holds s.writer.w written pending ∧
    s.laid = Journal.layOut 8 (written ++ pending)
  increasing : (s.laid.map fun e => e.1.seq).Pairwise (· < ·)
  le_seq : ∀ e ∈ s.laid, e.1.seq.toNat ≤ s.writer.seq.toNat

/-- An aligned journal reads back. -/
theorem Aligned.readsBack {s : JournalRun} (h : s.Aligned) : s.ReadsBack := by
  obtain ⟨written, pending, hw, hlaid⟩ := h.holds
  refine ⟨?_, h.increasing⟩
  rw [hlaid, Journal.map_fst_layOut, JournalWriter.flush, hw.flush.file]
  exact Journal.readJournal_encode _

/-- Appends keep a journal aligned while the numbers last. -/
theorem Aligned.append {s : JournalRun} (h : s.Aligned) (elapsed : Bool) (tsNanos : UInt64)
    (frame : Frame) (hseq : s.writer.seq.toNat + 1 < 2 ^ 64) :
    ∃ s', s.step (.append elapsed tsNanos frame) = .ok s' ∧ s'.Aligned ∧
      s'.writer.seq.toNat = s.writer.seq.toNat + 1 := by
  obtain ⟨written, pending, hw, hlaid⟩ := h.holds
  obtain ⟨hnum, written', pending', happ, hw'⟩ := hw.append elapsed tsNanos frame
  have hnat : (s.writer.seq + 1).toNat = s.writer.seq.toNat + 1 := by
    rw [UInt64.toNat_add]
    exact Nat.mod_eq_of_lt hseq
  have hlaid' : s.laid ++
      [(({ seq := s.writer.seq + 1, tsNanos := tsNanos, frame := frame } : Record),
      (s.writer.append elapsed tsNanos frame).w.file.length +
        (s.writer.append elapsed tsNanos frame).w.buf.length)] =
      Journal.layOut 8 (written' ++ pending') := by
    rw [hw'.length_eq, happ, Journal.layOut_concat, hlaid, length_append]
    rfl
  refine ⟨_, rfl, ⟨⟨written', pending', hw', by rw [hnum]; exact hlaid'⟩, ?_, ?_⟩, by
    rw [hnum, hnat]⟩
  · rw [map_append, pairwise_append]
    refine ⟨h.increasing, pairwise_singleton _ _, ?_⟩
    simp only [List.mem_map, map_cons, map_nil, mem_singleton]
    rintro _ ⟨e, he, rfl⟩ _ rfl
    rw [UInt64.lt_iff_toNat_lt, hnum, hnat]
    exact Nat.lt_succ_of_le (h.le_seq e he)
  · intro e he
    simp only [hnum, hnat]
    obtain he | he := mem_append.mp he
    · exact Nat.le_succ_of_le (h.le_seq e he)
    · rw [mem_singleton.mp he, hnum, hnat]

/-- What a clean crash leaves of a file of whole records: the first of them. -/
theorem reopenJournal_take {w : BufWriter} {written pending : List Record}
    (hw : Journal.Holds w written pending) {kept : ℕ}
    (hwhole : (w.file.take kept).length = 0 ∨ (w.file.take kept).length % RECORD_LEN = 8) :
    ∃ rs jw, rs <+: written ∧ rs.length = ((w.file.take kept).length - 8) / RECORD_LEN ∧
      reopenJournal (w.file.take kept) = .ok jw ∧ Journal.Holds jw.w rs [] ∧
      jw.seq = highestSeq rs := by
  have hlen : RECORD_LEN = 64 := rfl
  obtain hzero | hmod := hwhole
  · obtain ⟨jw, hopen, hjw, hseq⟩ := reopenJournal_nil
    rw [length_eq_zero_iff.mp hzero]
    exact ⟨[], jw, nil_prefix, by simp, hopen, hjw, hseq⟩
  · have hleft : w.file.take kept = w.file.take (w.file.take kept).length := by
      rw [length_take, ← take_eq_take_min]
    obtain ⟨k, hk⟩ : ∃ k, (w.file.take kept).length = 8 + RECORD_LEN * k :=
      ⟨(w.file.take kept).length / RECORD_LEN, by
        have := Nat.div_add_mod (w.file.take kept).length RECORD_LEN
        rw [hmod] at this
        exact this.symm.trans (add_comm _ _)⟩
    have htake : w.file.take kept =
        JOURNAL_HEADER ++ Journal.framing.encode (written.take k) := by
      rw [hleft, hk, hw.file, ← Framing.take_encode_of_fixed Record.length_bytes, take_append,
        take_of_length_le (by simp [JOURNAL_HEADER])]
      simp [JOURNAL_HEADER]
    obtain ⟨jw, hopen, hjw, hseq⟩ := reopenJournal_encode (written.take k)
    refine ⟨written.take k, jw, take_prefix _ _, ?_, htake ▸ hopen, hjw, hseq⟩
    rw [htake, length_append, Journal.length_encode]
    simp only [JOURNAL_HEADER, length_cons, length_nil, zero_add, hlen]
    omega

/-- A clean crash keeps a journal aligned, and the restart succeeds. -/
theorem Aligned.crash {s : JournalRun} (h : s.Aligned) {kept : ℕ}
    (hwhole : s.Whole (.crash kept)) :
    ∃ s', s.step (.crash kept) = .ok s' ∧ s'.Aligned ∧
      s'.writer.seq.toNat ≤ s.writer.seq.toNat := by
  obtain ⟨written, pending, hw, hlaid⟩ := h.holds
  obtain ⟨rs, jw, hpre, hlen, hopen, hjw, hseq⟩ := reopenJournal_take hw
    (by simpa [Whole, JOURNAL_HEADER] using hwhole)
  have hkeep : s.laid.filter (·.2 ≤ (s.writer.w.file.take kept).length) = Journal.layOut 8 rs := by
    rw [hlaid, Journal.filter_layOut, ← hlen,
      ← prefix_iff_eq_take.mp (hpre.trans (prefix_append _ _))]
  have hsub : (Journal.layOut 8 rs).Sublist s.laid := hkeep ▸ filter_sublist
  have hmem : ∀ r ∈ rs, ∃ e ∈ s.laid, e.1 = r := by
    intro r hr
    rw [← Journal.map_fst_layOut 8 rs] at hr
    obtain ⟨e, he, rfl⟩ := List.mem_map.mp hr
    exact ⟨e, hsub.subset he, rfl⟩
  have hle : (highestSeq rs).toNat ≤ s.writer.seq.toNat := by
    rw [highestSeq_le_iff]
    intro r hr
    obtain ⟨e, he, rfl⟩ := hmem r hr
    exact h.le_seq e he
  refine ⟨{ writer := jw, laid := Journal.layOut 8 rs }, ?_, ⟨⟨rs, [], hjw, ?_⟩, ?_, ?_⟩, ?_⟩
  · simp only [step, hopen, hkeep]
    rfl
  · rw [append_nil]
  · exact h.increasing.sublist (hsub.map _)
  · intro e he
    have hr : e.1 ∈ rs := by
      rw [← Journal.map_fst_layOut 8 rs]
      exact List.mem_map_of_mem he
    rw [hseq]
    exact (highestSeq_le_iff rs _).mp le_rfl e.1 hr
  · rw [hseq]
    exact hle

/-- One event without a torn record. -/
theorem Aligned.step {s : JournalRun} (h : s.Aligned) {event : JournalEvent}
    (hwhole : s.Whole event) (hseq : s.writer.seq.toNat + appends [event] < 2 ^ 64) :
    ∃ s', s.step event = .ok s' ∧ s'.Aligned ∧
      s'.writer.seq.toNat ≤ s.writer.seq.toNat + appends [event] := by
  cases event with
  | append elapsed tsNanos frame =>
    obtain ⟨s', hstep, hs', hnat⟩ := h.append elapsed tsNanos frame hseq
    exact ⟨s', hstep, hs', hnat.le⟩
  | flush =>
    obtain ⟨written, pending, hw, hlaid⟩ := h.holds
    exact ⟨_, rfl, ⟨⟨written ++ pending, [], hw.flush, by rw [append_nil]; exact hlaid⟩,
      h.increasing, h.le_seq⟩, Nat.le_add_right _ _⟩
  | crash kept =>
    obtain ⟨s', hstep, hs', hnat⟩ := h.crash hwhole
    exact ⟨s', hstep, hs', hnat.trans (Nat.le_add_right _ _)⟩

/-- Any number of events without a torn record. -/
theorem Aligned.foldlM {s : JournalRun} (h : s.Aligned) {events : List JournalEvent}
    (hclean : s.Clean events)
    (hseq : s.writer.seq.toNat + appends events < 2 ^ 64) :
    ∃ s', events.foldlM JournalRun.step s = .ok s' ∧ s'.Aligned := by
  induction events generalizing s with
  | nil => exact ⟨s, rfl, h⟩
  | cons event events ih =>
    have hcount : appends (event :: events) = appends [event] + appends events :=
      @List.countP_append _ _ [event] events
    rw [Clean, Bool.and_eq_true] at hclean
    obtain ⟨hwhole, hclean⟩ := hclean
    obtain ⟨s₁, hstep, hs₁, hnat⟩ := h.step hwhole (by omega)
    rw [hstep] at hclean
    obtain ⟨s', hrun, hs'⟩ := ih hs₁ hclean (by omega)
    exact ⟨s', by rw [foldlM_cons, hstep]; exact hrun, hs'⟩

/-- **The journal survives crashes that tear no record.** When every crash leaves an empty
file or a header with whole records, and fewer than `2 ^ 64` frames are appended, every
restart of the run succeeds and the journal reads back. -/
theorem run_readsBack (events : List JournalEvent)
    (hclean : ∀ writer, reopenJournal [] = .ok writer →
      Clean { writer := writer, laid := [] } events)
    (hseq : appends events < 2 ^ 64) :
    ∃ s, run events = .ok s ∧ s.ReadsBack := by
  obtain ⟨jw, hopen, hjw, hnum⟩ := reopenJournal_nil
  have hstart : Aligned { writer := jw, laid := [] } :=
    ⟨⟨[], [], hjw, rfl⟩, Pairwise.nil, nofun⟩
  obtain ⟨s, hrun, hs⟩ := hstart.foldlM (hclean jw hopen) (by simpa [hnum] using hseq)
  exact ⟨s, by rw [run, hopen]; exact hrun, hs.readsBack⟩

/-- A journal that loses its second record in one crash, nothing in the next, and everything in
the third. -/
def threeCrashes : List JournalEvent :=
  [.append true 1 (Frame.copyFrom [1]), .append false 2 (Frame.copyFrom [2]), .crash 72,
    .append true 3 (Frame.copyFrom [3]), .crash 1000, .append true 4 (Frame.copyFrom [4]), .crash 0,
    .append false 5 (Frame.copyFrom [5])]

theorem run_readsBack_threeCrashes : ∃ s, run threeCrashes = .ok s ∧ s.ReadsBack := by
  refine run_readsBack threeCrashes (fun writer hopen => ?_) (by decide)
  cases hopen
  decide +kernel

/-- **A torn file breaks the journal.** A crash within the header makes the restart fail. A
crash one byte into a record leaves that byte in the file: the record appended after the
restart is laid behind it, and the reader finds no record at all. -/
theorem run_not_readsBack :
    (run [.crash 3]).map (fun s => s.laid) = .error .unexpectedEof ∧
    (run [.append true 1 (Frame.copyFrom [1]), .crash 9,
        .append true 2 (Frame.copyFrom [2])]).map
      (fun s => (s.laid.map Prod.fst, readJournal s.writer.flush.w.file)) =
      .ok ([{ seq := 1, tsNanos := 2, frame := Frame.copyFrom [2] }], .ok []) := by
  decide +kernel

end JournalRun
end TradeCore
