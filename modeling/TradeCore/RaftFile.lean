import TradeCore.Journal
import TradeCore.Lib.Codec

/-!
# The Durable Raft File

The file in which a Raft member keeps its term, vote and commit index, its log and its last
snapshot. After an 8-byte header it holds records of any length: a kind, a length, a payload
and an FNV-1a checksum over the three. Persisting appends entries and then the hard state;
installing or taking a snapshot rewrites the whole file beside the old one and renames it.

Opening scans the records and folds them. A record cut off by the end of the file is removed
from the file; a complete record that is too large, fails its checksum or does not fit the
log is an error, and so is a commit index beyond the recovered log.

Messages are encoded by protobuf, of which only the round trip is used: a codec for each
message type is a parameter, `Protobuf`.

## Main results

* `RaftRecord.framing` — records of at most 16 MiB are a framing.
* `RaftRecord.next_oversized` — the scan refuses a larger record.
-/

namespace TradeCore

/-! ### Raft messages -/

/-- The types of log entries. -/
inductive EntryType where
  | normal
  | confChange
  | confChangeV2
  deriving DecidableEq, Repr

/-- A log entry. -/
structure Entry where
  index : ℕ
  term : ℕ
  entryType : EntryType
  data : List UInt8
  deriving DecidableEq, Repr

/-- Term, vote and commit index of a member. -/
structure HardState where
  term : ℕ := 0
  vote : ℕ := 0
  commit : ℕ := 0
  deriving DecidableEq, Repr

/-- A cluster configuration. -/
structure ConfState where
  voters : List ℕ := []
  learners : List ℕ := []
  deriving DecidableEq, Repr

/-- Where in the log a snapshot stands. -/
structure SnapshotMetadata where
  index : ℕ := 0
  term : ℕ := 0
  confState : ConfState := {}
  deriving DecidableEq, Repr

/-- A snapshot: its place and the application's blob. -/
structure Snapshot where
  metadata : SnapshotMetadata
  data : List UInt8
  deriving DecidableEq, Repr

/-- The encodings of the messages. -/
structure Protobuf where
  entry : ByteCodec Entry
  hardState : ByteCodec HardState
  snapshot : ByteCodec Snapshot

namespace Protobuf

/-- An entry type as a number. -/
def entryType : ByteField EntryType :=
  ByteField.nat.comap (fun | .normal => 0 | .confChange => 1 | .confChangeV2 => 2)
    (fun | 0 => .normal | 1 => .confChange | _ => .confChangeV2) (fun t => by cases t <;> rfl)

/-- A configuration as two lists of numbers. -/
def confState : ByteField ConfState :=
  ((ByteField.list .nat).pair (.list .nat)).comap (fun c => (c.voters, c.learners))
    (fun p => { voters := p.1, learners := p.2 }) (fun _ => rfl)

/-- Messages as their fields in order, numbers in base 128: codecs with the round trip that
is asked of protobuf. -/
def fields : Protobuf where
  entry := (ByteField.comap (.pair .nat (.pair .nat (.pair entryType (.list .byte))))
    (fun e : Entry => (e.index, e.term, e.entryType, e.data))
    (fun p => { index := p.1, term := p.2.1, entryType := p.2.2.1, data := p.2.2.2 })
    (fun _ => rfl)).toCodec
  hardState := (ByteField.comap (.pair .nat (.pair .nat .nat))
    (fun hs : HardState => (hs.term, hs.vote, hs.commit))
    (fun p => { term := p.1, vote := p.2.1, commit := p.2.2 }) (fun _ => rfl)).toCodec
  snapshot := (ByteField.comap (.pair .nat (.pair .nat (.pair confState (.list .byte))))
    (fun sn : Snapshot =>
      (sn.metadata.index, sn.metadata.term, sn.metadata.confState, sn.data))
    (fun p =>
      { metadata := { index := p.1, term := p.2.1, confState := p.2.2.1 }, data := p.2.2.2 })
    (fun _ => rfl)).toCodec

end Protobuf

/-! ### Records -/

/-- Magic and format version of the Raft file. -/
def STORAGE_HEADER : List UInt8 := [0x54, 0x43, 0x52, 0x46, 0x01, 0x00, 0x00, 0x00]

/-- The largest payload that opening accepts, 16 MiB. -/
def MAX_PAYLOAD : ℕ := 16 * 1024 * 1024

/-- A record of the Raft file. -/
inductive RaftRecord where
  | hardState (hs : HardState)
  | entry (e : Entry)
  | snapshot (sn : Snapshot)
  deriving DecidableEq, Repr

namespace RaftRecord

/-- The byte that tells the kind of a record. -/
def kind : RaftRecord → UInt8
  | .hardState _ => 1
  | .entry _ => 2
  | .snapshot _ => 3

variable (pb : Protobuf)

/-- The encoded message of a record. -/
def payload : RaftRecord → List UInt8
  | .hardState hs => pb.hardState.write hs
  | .entry e => pb.entry.write e
  | .snapshot sn => pb.snapshot.write sn

/-- The bytes under the checksum: kind, length and payload. -/
def frame (kind : UInt8) (payload : List UInt8) : List UInt8 :=
  kind :: (leBytes 4 payload.length ++ payload)

/-- A record as it stands in the file. -/
def bytes (r : RaftRecord) : List UInt8 :=
  frame r.kind (r.payload pb) ++ leBytes 8 (fnv1a (frame r.kind (r.payload pb))).toNat

/-- Write a record. Only a payload whose length does not fit in 32 bits is refused. -/
def write (file : List UInt8) (r : RaftRecord) : Except IoError (List UInt8) :=
  if (r.payload pb).length < 2 ^ 32 then .ok (file ++ r.bytes pb)
  else .error (.invalidInput "raft record too large")

/-- Decode a payload by the kind of its record. -/
def parse (kind : UInt8) (payload : List UInt8) : Except IoError RaftRecord :=
  let message {α : Type} (m : Option α) (record : α → RaftRecord) : Except IoError RaftRecord :=
    match m with
    | some a => .ok (record a)
    | none => .error (.invalidData "protobuf")
  if kind = 1 then message (pb.hardState.parse payload) .hardState
  else if kind = 2 then message (pb.entry.parse payload) .entry
  else if kind = 3 then message (pb.snapshot.parse payload) .snapshot
  else .error (.invalidData "unknown raft state record")

/-- The next record. The scan stops where the file ends, also inside a record. -/
def next : List UInt8 → Except IoError (Option (RaftRecord × List UInt8))
  | [] => .ok none
  | kind :: bs =>
    match readExact 4 bs with
    | none => .ok none
    | some (lengthBytes, bs) =>
      if MAX_PAYLOAD < leNat lengthBytes then
        .error (.invalidData "raft state record is too large")
      else match readExact (leNat lengthBytes) bs with
        | none => .ok none
        | some (payload, bs) =>
          match readExact 8 bs with
          | none => .ok none
          | some (checksum, rest) =>
            if fnv1a (kind :: (lengthBytes ++ payload)) ≠ UInt64.ofNat (leNat checksum) then
              .error (.invalidData "raft state checksum mismatch")
            else (parse pb kind payload).map fun r => some (r, rest)

end RaftRecord

/-! ### The recovered state -/

/-- What a scan has recovered. -/
structure Recovered where
  entries : List Entry := []
  hardState : HardState := {}
  snapshot : Option Snapshot := none
  deriving DecidableEq, Repr

namespace Recovered

/-- The index of the snapshot, or 0. -/
def snapshotIndex (s : Recovered) : ℕ := s.snapshot.elim 0 fun sn => sn.metadata.index

/-- The last index of the log, which is the snapshot's when there are no entries. -/
def durableLast (s : Recovered) : ℕ := s.entries.getLast?.elim s.snapshotIndex Entry.index

/-- Add a recovered entry. It overwrites the log from its own index on and must then follow
the last entry. -/
def appendEntry (entries : List Entry) (e : Entry) : Except IoError (List Entry) :=
  if e.index = 0 then .error (.invalidData "raft log contains index zero")
  else
    let entries := entries.takeWhile (·.index < e.index)
    match entries.getLast? with
    | none => .ok (entries ++ [e])
    | some previous =>
      if e.index ≠ previous.index + 1 then .error (.invalidData "raft log contains an index gap")
      else .ok (entries ++ [e])

/-- Fold one record. A snapshot makes the entries that it covers redundant. -/
def apply (s : Recovered) : RaftRecord → Except IoError Recovered
  | .hardState hs => .ok { s with hardState := hs }
  | .entry e => do return { s with entries := ← appendEntry s.entries e }
  | .snapshot sn => .ok
    { s with
      entries := s.entries.filter (sn.metadata.index < ·.index)
      snapshot := some sn }

/-- The end of a scan: drop what the snapshot covers and check the commit index. -/
def finish (s : Recovered) : Except IoError Recovered :=
  let s := { s with
    entries := s.snapshot.elim s.entries fun sn => s.entries.filter (sn.metadata.index < ·.index) }
  if s.durableLast < s.hardState.commit then
    .error (.invalidData "raft commit index is ahead of the durable log")
  else .ok s

end Recovered

/-! ### The file -/

namespace DurableRaftLog

variable (pb : Protobuf)

/-- Scan a file: the bytes that are left in it, and what they hold. A record cut off by the
end of the file is removed. -/
def scan (file : List UInt8) : Except IoError (List UInt8 × Recovered) :=
  match readExact STORAGE_HEADER.length file with
  | none => .error .unexpectedEof
  | some (header, rest) =>
    if header ≠ STORAGE_HEADER then
      .error (.invalidData "raft state header/version mismatch")
    else do
      let (s, torn) ← foldRecords (RaftRecord.next pb) Recovered.apply rest.length {} rest
      return (file.take (file.length - torn.length), ← s.finish)

/-- Open the file. One too short for a header is started afresh. -/
def «open» (disk : List UInt8) : Except IoError (List UInt8 × Recovered) :=
  scan pb (if disk.length < STORAGE_HEADER.length then STORAGE_HEADER else disk)

/-- The records of one call of `persist`: entries first, since the hard state may commit
them. -/
def persisted (entries : List Entry) (hardState : Option HardState) : List RaftRecord :=
  entries.map .entry ++ hardState.toList.map .hardState

/-- Append entries and a hard state. -/
def persist (file : List UInt8) (entries : List Entry) (hardState : Option HardState) :
    Except IoError (List UInt8) :=
  (persisted entries hardState).foldlM (RaftRecord.write pb) file

/-- The records of a rewritten file. A default hard state is left out. -/
def rewritten (snapshot : Option Snapshot) (entries : List Entry) (hardState : HardState) :
    List RaftRecord :=
  snapshot.toList.map .snapshot ++ entries.map .entry ++
    if hardState ≠ {} then [.hardState hardState] else []

/-- Replace the file by one that holds a snapshot, entries and a hard state. -/
def rewrite (snapshot : Option Snapshot) (entries : List Entry) (hardState : HardState) :
    Except IoError (List UInt8) :=
  (rewritten snapshot entries hardState).foldlM (RaftRecord.write pb) STORAGE_HEADER

/-- The rewrite for a snapshot received from a peer: it invalidates the whole log. -/
def installSnapshot (snapshot : Snapshot) (hardState : HardState) : Except IoError (List UInt8) :=
  rewrite pb (some snapshot) [] hardState

/-- The rewrite for a snapshot taken here: the tail of the log stays. -/
def compact (snapshot : Snapshot) (tail : List Entry) (hardState : HardState) :
    Except IoError (List UInt8) :=
  rewrite pb (some snapshot) tail hardState

end DurableRaftLog

/-! ### Raft records are framed -/

namespace RaftRecord

variable {pb : Protobuf}

@[simp] theorem length_frame (kind : UInt8) (payload : List UInt8) :
    (frame kind payload).length = 5 + payload.length := by
  simp [frame]
  omega

@[simp] theorem length_bytes (r : RaftRecord) :
    (r.bytes pb).length = 13 + (r.payload pb).length := by
  simp [bytes]
  omega

/-- The payload of a record is decoded to the record. -/
theorem parse_payload (r : RaftRecord) : parse pb r.kind (r.payload pb) = .ok r := by
  cases r with
  | hardState hs => simp [parse, kind, payload, pb.hardState.parse_write]
  | entry e => simp [parse, kind, payload, pb.entry.parse_write]
  | snapshot sn => simp [parse, kind, payload, pb.snapshot.parse_write]

/-- A record in the file, from its kind on. -/
theorem bytes_append (r : RaftRecord) (rest : List UInt8) :
    r.bytes pb ++ rest = r.kind :: (leBytes 4 (r.payload pb).length ++
      (r.payload pb ++ (leBytes 8 (fnv1a (frame r.kind (r.payload pb))).toNat ++ rest))) := by
  simp [bytes, frame]

/-- A complete record is read back. -/
theorem next_bytes {r : RaftRecord} (h : (r.payload pb).length ≤ MAX_PAYLOAD)
    (rest : List UInt8) : next pb (r.bytes pb ++ rest) = .ok (some (r, rest)) := by
  have hlen : leNat (leBytes 4 (r.payload pb).length) = (r.payload pb).length :=
    leNat_leBytes_of_lt (h.trans_lt (by decide))
  rw [bytes_append, next, readExact_append (length_leBytes 4 _)]
  simp only [hlen, not_lt.mpr h, if_false, readExact_append rfl,
    readExact_append (length_leBytes 8 _), ofNat_leNat_leBytes_eight, parse_payload]
  exact if_neg (not_not.mpr rfl)

/-- **A record above the limit is refused**, although it was written. -/
theorem next_oversized {r : RaftRecord} (h : MAX_PAYLOAD < (r.payload pb).length)
    (hw : (r.payload pb).length < 2 ^ 32) (rest : List UInt8) :
    next pb (r.bytes pb ++ rest) = .error (.invalidData "raft state record is too large") := by
  have hlen : leNat (leBytes 4 (r.payload pb).length) = (r.payload pb).length :=
    leNat_leBytes_of_lt hw
  rw [bytes_append, next, readExact_append (length_leBytes 4 _)]
  simp only [hlen]
  exact if_pos h

/-- The scan stops inside an incomplete record, wherever it is cut. -/
theorem next_torn {r : RaftRecord} (h : (r.payload pb).length ≤ MAX_PAYLOAD) {t : List UInt8}
    (ht : t <+: r.bytes pb) (hne : t ≠ r.bytes pb) : next pb t = .ok none := by
  have hlt := length_lt_of_isPrefix_ne ht hne
  have hlen : leNat (leBytes 4 (r.payload pb).length) = (r.payload pb).length :=
    leNat_leBytes_of_lt (h.trans_lt (by decide))
  have hbytes := @bytes_append pb r []
  rw [List.append_nil, List.append_nil] at hbytes
  cases t with
  | nil => rfl
  | cons kind bs =>
    rw [hbytes, List.cons_prefix_cons] at ht
    -- the file ends in the length, in the payload or in the checksum
    have hlength := readExact_of_isPrefix ht.2
    rw [length_leBytes] at hlength
    obtain hnone | ⟨bs₁, ht₁, rfl, hread⟩ := hlength
    · simp only [next, hnone]
    · simp only [next, hread, hlen, not_lt.mpr h, if_false]
      obtain hnone | ⟨bs₂, ht₂, rfl, hread⟩ := readExact_of_isPrefix ht₁
      · simp only [hnone]
      · have hshort : bs₂.length < 8 := by
          rw [length_bytes] at hlt
          simp only [List.length_cons, List.length_append, length_leBytes] at hlt
          omega
        simp only [hread, readExact_of_lt hshort]

/-- **Raft records of at most 16 MiB are framed.** -/
def framing (pb : Protobuf) : Framing IoError RaftRecord where
  enc := bytes pb
  next := next pb
  Valid := fun r => (r.payload pb).length ≤ MAX_PAYLOAD
  next_nil := rfl
  next_enc := fun _ rest h => next_bytes h rest
  next_torn := fun _ _ h ht hne => next_torn h ht hne

end RaftRecord
end TradeCore
