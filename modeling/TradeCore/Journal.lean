import TradeCore.Lib.Framing

/-!
# The Command Journal

The write-ahead journal of one shard: a file that starts with an 8-byte header and goes on
with records of 64 bytes, each closed by an FNV-1a checksum over its other bytes. The writer
buffers records in user space and appends at the physical end of the file; the reader walks
in strides of one record and stops at the first record that is short or fails its checksum.

A file is the list of its bytes. The wall clock decides when the writer flushes, so an
append takes the outcome of that comparison as an argument; preallocation keeps the size of
the file and has no counterpart here.

## Main results

* `Journal.framing` — journal records are a framing: complete records are read back and an
  incomplete one ends the scan.
-/

open List Option

namespace TradeCore

/-- The errors of the file operations, by their kind. -/
inductive IoError where
  | notFound
  | permissionDenied
  | unexpectedEof
  | invalidData (message : String)
  | invalidInput (message : String)
  | other (message : String)
  deriving DecidableEq, Repr

/-- The length of a wire frame. -/
def MSG_LEN : ℕ := 40

/-- The length of a journal record on disk. -/
def RECORD_LEN : ℕ := 8 + 8 + MSG_LEN + 8

/-- Magic and format version of a journal file. -/
def JOURNAL_HEADER : List UInt8 := [0x54, 0x43, 0x4A, 0x52, 0x02, 0x00, 0x00, 0x00]

/-- FNV-1a, 64 bits, with wrapping multiplication. -/
def fnv1a (bytes : List UInt8) : UInt64 :=
  bytes.foldl (fun h b => (h ^^^ b.toUInt64) * 0x100000001b3) 0xcbf29ce484222325

/-- A wire frame, `[u8; MSG_LEN]`. -/
abbrev Frame := { bytes : List UInt8 // bytes.length = MSG_LEN }

/-- A frame filled from a byte slice, over zeroes. -/
def Frame.copyFrom (bytes : List UInt8) : Frame :=
  ⟨(bytes ++ List.replicate MSG_LEN 0).take MSG_LEN, by simp⟩

/-- A slice of the right length is the frame itself. -/
@[simp] theorem Frame.copyFrom_val (f : Frame) : Frame.copyFrom f.val = f :=
  Subtype.ext (take_left' f.property)

/-! ### Buffered writes -/

/-- A buffered writer over an append-only file: the bytes that reached the file and those
that still wait in the buffer. -/
structure BufWriter where
  file : List UInt8
  buf : List UInt8
  capacity : ℕ
  deriving DecidableEq

namespace BufWriter

/-- Empty the buffer into the file. -/
def flush (w : BufWriter) : BufWriter := { w with file := w.file ++ w.buf, buf := [] }

/-- Buffer some bytes. The buffer is emptied first when they do not fit, and bytes that do
not fit in an empty buffer go straight to the file. -/
def writeAll (w : BufWriter) (bytes : List UInt8) : BufWriter :=
  let w := if w.capacity - w.buf.length < bytes.length then w.flush else w
  if w.capacity ≤ bytes.length then { w with file := w.file ++ bytes }
  else { w with buf := w.buf ++ bytes }

/-- Bytes end up in the file with all that was buffered, alone in the buffer, or behind what
was buffered. -/
theorem writeAll_cases (w : BufWriter) {bytes : List UInt8} (h : 0 < bytes.length) :
    w.writeAll bytes = { w with file := w.file ++ w.buf ++ bytes, buf := [] } ∨
    w.writeAll bytes = { w with file := w.file ++ w.buf, buf := bytes } ∨
    w.writeAll bytes = { w with buf := w.buf ++ bytes } := by
  unfold writeAll
  by_cases hfull : w.capacity - w.buf.length < bytes.length
  · by_cases hcap : w.capacity ≤ bytes.length
    · left
      simp [hfull, hcap, flush]
    · right; left
      simp [hfull, hcap, flush]
  · by_cases hcap : w.capacity ≤ bytes.length
    · -- bytes as long as the buffer fit only while nothing is pending
      have hbuf : w.buf = [] := length_eq_zero_iff.mp (by omega)
      left
      rw [if_neg hfull, if_pos hcap, hbuf, append_nil]
    · right; right
      simp [hfull, hcap]

end BufWriter

/-! ### Records -/

/-- One journal record. -/
structure Record where
  seq : UInt64
  tsNanos : UInt64
  frame : Frame
  deriving DecidableEq

/-- The bytes of a record under its checksum. -/
def Record.body (r : Record) : List UInt8 :=
  leBytes 8 r.seq.toNat ++ leBytes 8 r.tsNanos.toNat ++ r.frame.val

/-- A record as it stands in the file. -/
def Record.bytes (r : Record) : List UInt8 := r.body ++ leBytes 8 (fnv1a r.body).toNat

@[simp] theorem Record.length_body (r : Record) : r.body.length = RECORD_LEN - 8 := by
  simp [Record.body, r.frame.property, RECORD_LEN, MSG_LEN]

@[simp] theorem Record.length_bytes (r : Record) : r.bytes.length = RECORD_LEN := by
  simp [Record.bytes, RECORD_LEN, MSG_LEN]

/-! ### The writer -/

/-- A journal writer: its buffered file, the number of the last record and the number of
records since the last flush. -/
structure JournalWriter where
  w : BufWriter
  seq : UInt64
  writtenSinceFlush : ℕ
  deriving DecidableEq

namespace JournalWriter

/-- Open a journal with a given buffer size. An empty file gets a header; any other must
begin with one. Writing goes on at the end of the file, wherever that is. -/
def openWithCapacity (disk : List UInt8) (bufferBytes : ℕ) : Except IoError JournalWriter :=
  let writer (file : List UInt8) : JournalWriter :=
    { w := { file := file, buf := [], capacity := max bufferBytes RECORD_LEN }
      seq := 0, writtenSinceFlush := 0 }
  if disk.length = 0 then .ok (writer JOURNAL_HEADER)
  else match readExact 8 disk with
    | none => .error .unexpectedEof
    | some (hdr, _) =>
      if hdr ≠ JOURNAL_HEADER then
        .error (.invalidData "journal header/version mismatch (migration required)")
      else .ok (writer disk)

/-- Open a journal with the default buffer of one MiB. -/
def «open» (disk : List UInt8) : Except IoError JournalWriter := openWithCapacity disk (2 ^ 20)

/-- Continue the numbering of an earlier run. -/
def resumeFrom (w : JournalWriter) (seq : UInt64) : JournalWriter :=
  { w with seq := max w.seq seq }

/-- Move the buffered records to the file. -/
def flush (w : JournalWriter) : JournalWriter :=
  { w with w := w.w.flush, writtenSinceFlush := 0 }

/-- Append one frame under the next number. The writer flushes after 8192 records or when
its flush interval has `elapsed`. -/
def append (w : JournalWriter) (elapsed : Bool) (tsNanos : UInt64) (frame : Frame) :
    JournalWriter :=
  let record : Record := { seq := w.seq + 1, tsNanos := tsNanos, frame := frame }
  let w : JournalWriter :=
    { w := w.w.writeAll record.bytes
      seq := record.seq
      writtenSinceFlush := w.writtenSinceFlush + 1 }
  if 8192 ≤ w.writtenSinceFlush || elapsed then w.flush else w

end JournalWriter

/-! ### The reader -/

/-- A journal reader: the bytes it has not read yet. -/
structure JournalReader where
  r : List UInt8

namespace JournalReader

/-- Open a journal for reading. A file too short for a header yields no records. -/
def «open» (disk : List UInt8) : Except IoError JournalReader :=
  match readExact 8 disk with
  | none => .ok { r := [] }
  | some (hdr, rest) =>
    if hdr = JOURNAL_HEADER then .ok { r := rest }
    else .error (.invalidData "journal header/version mismatch (migration required)")

/-- The next record, unless it is short or fails its checksum. -/
def next (r : List UInt8) : Option (Record × List UInt8) :=
  match readExact RECORD_LEN r with
  | none => none
  | some (rec, rest) =>
    let stored := UInt64.ofNat (leNat (rec.drop (RECORD_LEN - 8)))
    if fnv1a (rec.take (RECORD_LEN - 8)) ≠ stored then none
    else some
      ({ seq := UInt64.ofNat (leNat (rec.take 8))
         tsNanos := UInt64.ofNat (leNat ((rec.drop 8).take 8))
         frame := Frame.copyFrom ((rec.drop 16).take MSG_LEN) }, rest)

/-- All records that the reader yields. -/
def collect (reader : JournalReader) : Except IoError (List Record) :=
  (foldRecords (fun r => .ok (next r)) (fun acc rec => .ok (acc ++ [rec]))
    reader.r.length [] reader.r).map Prod.fst

end JournalReader

/-- The records of a journal file. -/
def readJournal (disk : List UInt8) : Except IoError (List Record) :=
  JournalReader.open disk >>= JournalReader.collect

/-! ### Journal records are framed -/

/-- A complete record is read back. -/
theorem JournalReader.next_bytes (r : Record) (rest : List UInt8) :
    JournalReader.next (r.bytes ++ rest) = some (r, rest) := by
  have hread := readExact_append r.length_bytes rest
  have hbody : r.bytes.take (RECORD_LEN - 8) = r.body := take_left' r.length_body
  have hsum : r.bytes.drop (RECORD_LEN - 8) = leBytes 8 (fnv1a r.body).toNat :=
    drop_left' r.length_body
  have hseq : r.bytes.take 8 = leBytes 8 r.seq.toNat := by
    rw [Record.bytes, Record.body, append_assoc, append_assoc]
    exact take_left' (length_leBytes 8 _)
  have hts : (r.bytes.drop 8).take 8 = leBytes 8 r.tsNanos.toNat := by
    rw [Record.bytes, Record.body, append_assoc, append_assoc, drop_left' (length_leBytes 8 _)]
    exact take_left' (length_leBytes 8 _)
  have hframe : (r.bytes.drop 16).take MSG_LEN = r.frame.val := by
    rw [Record.bytes, Record.body, append_assoc, drop_left' (by simp)]
    exact take_left' r.frame.property
  simp [next, hread, hbody, hsum, hseq, hts, hframe]

/-- **Journal records are framed.** -/
def Journal.framing : Framing IoError Record where
  enc := Record.bytes
  next := fun r => .ok (JournalReader.next r)
  Valid := fun _ => True
  next_nil := rfl
  next_enc := fun r rest _ => by rw [JournalReader.next_bytes]
  next_torn := fun r t _ ht hne => by
    have hlt : t.length < RECORD_LEN := r.length_bytes ▸ length_lt_of_isPrefix_ne ht hne
    rw [JournalReader.next, readExact_of_lt hlt]

end TradeCore
