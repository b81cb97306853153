import TradeCore.Outbox
import TradeCore.Lib.Text

/-!
# Outbox Segments

The outbox of a shard (`execution_outbox.rs`) is a sequence of **segment** files. The writer
appends records to the newest segment through a buffer and rotates to a new one when a segment
has reached its size; sealed segments are removed at a rotation when they are fully published.
How far a segment is published stands in its cursor file, which the publisher moves after the
broker has taken a batch, or when it learns an offset from another replica.

The names of the files tell the publisher the shard and the number of a segment.

## Main results

* `outboxSegmentOrder_segmentStem` — a name is read back.
* `SegmentFile.Holds` — a file as records, a torn rest and the number of published records, with
  what the reader makes of it.
* `OutboxRecord.torn_tail_iff` — what a start makes of a segment that a crash has cut.
* `ShardOutbox.Reachable.tidy` — the segments of a shard after any history of its writer and its
  readers.
-/

open List Option

namespace TradeCore

/-! ### Names -/

/-- The name, without extension, of segment `seq` of a shard. Segment 0 is the base file. -/
def segmentStem (shard seq : ℕ) : List Char :=
  let base := "outbox-shard-".toList ++ decimal 1 shard
  if seq = 0 then base else base ++ "-seg-".toList ++ decimal 10 seq

/-- The shard and the number of a segment, from its name. -/
def outboxSegmentOrder (stem : List Char) : Option (ℕ × ℕ) := do
  let stem ← stripHead "outbox-shard-".toList stem
  match splitOnce "-seg-".toList stem with
  | some (shard, segment) => do
      let shard ← readDecimal (2 ^ 32) shard
      let segment ← readDecimal (2 ^ 64) segment
      pure (shard, segment)
  | none => do
      let shard ← readDecimal (2 ^ 32) stem
      pure (shard, 0)

/-- **A name is read back.** -/
theorem outboxSegmentOrder_segmentStem {shard seq : ℕ} (hshard : shard < 2 ^ 32)
    (hseq : seq < 2 ^ 64) : outboxSegmentOrder (segmentStem shard seq) = some (shard, seq) := by
  have hdash : '-' ∉ decimal 1 shard := not_mem_decimal (by decide) 1 shard
  rw [outboxSegmentOrder, segmentStem]
  split
  · rename_i hzero
    subst hzero
    rw [stripHead_append, bind_eq_bind, bind_some]
    have hsplit : splitOnce "-seg-".toList (decimal 1 shard) = none := splitOnce_eq_none hdash
    simp only [hsplit, readDecimal_decimal hshard, bind_eq_bind, bind_some]
    rfl
  · rw [append_assoc, append_assoc, stripHead_append, bind_eq_bind, bind_some, ← append_assoc]
    have hsplit : splitOnce "-seg-".toList
        (decimal 1 shard ++ "-seg-".toList ++ decimal 10 seq) =
        some (decimal 1 shard, decimal 10 seq) := splitOnce_append hdash _
    simp only [hsplit, readDecimal_decimal hshard, readDecimal_decimal hseq, bind_eq_bind,
      bind_some]
    rfl

/-! ### Reading records -/

namespace OutboxRecord

/-- The record that bytes of its length denote. -/
def decode (record : List UInt8) : Option OutboxRecord :=
  if h : ((record.drop 16).take REPORT_LEN).length = REPORT_LEN then
    some
      { raftGroup := UInt32.ofNat (leNat (record.take 4))
        raftIndex := indexOf record
        ordinal := UInt32.ofNat (leNat ((record.drop 12).take 4))
        reportFrame := ⟨(record.drop 16).take REPORT_LEN, h⟩ }
  else none

/-- The next record of a segment. A short rest and a wrong checksum end the scan. -/
def next (bs : List UInt8) : Except IoError (Option (OutboxRecord × List UInt8)) :=
  match readExact OUTBOX_RECORD_LEN bs with
  | none => .ok none
  | some (record, rest) =>
    if intact record then .ok ((decode record).map fun r => (r, rest)) else .ok none

@[simp] theorem length_body (r : OutboxRecord) : r.body.length = OUTBOX_RECORD_LEN - 8 := by
  simp only [body, length_append, length_leBytes, r.reportFrame.property, OUTBOX_RECORD_LEN]
  omega

@[simp] theorem length_bytes (r : OutboxRecord) : r.bytes.length = OUTBOX_RECORD_LEN := by
  rw [bytes, length_append, length_body, length_leBytes]
  rfl

theorem intact_bytes (r : OutboxRecord) : intact r.bytes = true := by
  have hbody : r.bytes.take (OUTBOX_RECORD_LEN - 8) = r.body := take_left' r.length_body
  have hsum : r.bytes.drop (OUTBOX_RECORD_LEN - 8) = leBytes 8 (fnv1a r.body).toNat :=
    drop_left' r.length_body
  rw [intact, hbody, hsum, ofNat_leNat_leBytes_eight, decide_eq_true_eq]

theorem indexOf_bytes (r : OutboxRecord) : indexOf r.bytes = r.raftIndex := by
  simp only [indexOf, bytes, body, append_assoc]
  rw [drop_left' (length_leBytes 4 _), take_left' (length_leBytes 8 _), ofNat_leNat_leBytes_eight]

/-- A record is read back. -/
theorem next_bytes (r : OutboxRecord) (rest : List UInt8) :
    next (r.bytes ++ rest) = .ok (some (r, rest)) := by
  have hgroup : r.bytes.take 4 = leBytes 4 r.raftGroup.toNat := by
    simp only [bytes, body, append_assoc]
    exact take_left' (length_leBytes 4 _)
  have hordinal : (r.bytes.drop 12).take 4 = leBytes 4 r.ordinal.toNat := by
    rw [bytes, body, append_assoc, append_assoc, drop_left' (by simp)]
    exact take_left' (length_leBytes 4 _)
  have hframe : (r.bytes.drop 16).take REPORT_LEN = r.reportFrame.val := by
    rw [bytes, body, append_assoc, drop_left' (by simp)]
    exact take_left' r.reportFrame.property
  have hdecode : decode r.bytes = some r := by
    rw [decode, dif_pos (by rw [hframe]; exact r.reportFrame.property)]
    simp only [hgroup, indexOf_bytes, hordinal, hframe, ofNat_leNat_leBytes_four]
  simp only [next, readExact_append r.length_bytes rest, intact_bytes, if_true, hdecode, map_some]

/-- Outbox records are framed. -/
def framing : Framing IoError OutboxRecord where
  enc := bytes
  next := next
  Valid := fun _ => True
  next_nil := rfl
  next_enc := fun r rest _ => next_bytes r rest
  next_torn := fun r t _ ht hne => by
    have hlt : t.length < OUTBOX_RECORD_LEN := r.length_bytes ▸ length_lt_of_isPrefix_ne ht hne
    rw [next, readExact_of_lt hlt]

end OutboxRecord

open OutboxRecord (framing length_bytes)

/-- An entry of a list with distinct keys is found under its key. -/
theorem lookup_of_mem {α β : Type} [BEq α] [LawfulBEq α] {l : List (α × β)}
    (hkeys : (l.map Prod.fst).Nodup) {a : α} {b : β} (hmem : (a, b) ∈ l) : l.lookup a = some b := by
  obtain ⟨l₁, l₂, rfl⟩ := append_of_mem hmem
  refine lookup_eq_some_iff.mpr ⟨l₁, l₂, rfl, fun e he => ?_⟩
  rw [bne_iff_ne]
  rintro rfl
  rw [map_append, nodup_append] at hkeys
  exact hkeys.2.2 _ (List.mem_map_of_mem he) _ mem_cons_self rfl

/-! ### Segment files -/

/-- A segment file, with the offset in its cursor file if there is one. File lengths are far
below `2 ^ 64`, so that the checked additions of the reader do not fail. -/
structure SegmentFile where
  bytes : List UInt8
  cursor : Option ℕ := none
  deriving DecidableEq

namespace SegmentFile

variable (f : SegmentFile)

/-- Where the reader of a segment stands: every move of a reader writes the cursor file first,
and a new reader starts from it. -/
def offset : ℕ := f.cursor.getD OUTBOX_HEADER.length

/-- The place after the header, or after a record of a file of this length. -/
def Boundary (len offset : ℕ) : Prop :=
  OUTBOX_HEADER.length ≤ offset ∧ (offset - OUTBOX_HEADER.length) % OUTBOX_RECORD_LEN = 0 ∧
    offset ≤ len

instance (len offset : ℕ) : Decidable (Boundary len offset) := inferInstanceAs (Decidable (_ ∧ _))

/-- Open a reader at the cursor. -/
def openWithCursor : Except IoError Unit :=
  match readExact OUTBOX_HEADER.length f.bytes with
  | none => .error .unexpectedEof
  | some (header, _) =>
    if header ≠ OUTBOX_HEADER then
      .error (.invalidData "execution outbox header/version mismatch")
    else
      match f.cursor with
      | none => .ok ()
      | some offset =>
        if Boundary f.bytes.length offset then .ok ()
        else .error (.invalidData "execution outbox cursor is corrupt or ahead of WAL")

/-- Up to `maxRecords` records from the reader's place. -/
def readBatch (maxRecords : ℕ) : List OutboxRecord :=
  ((foldRecords OutboxRecord.next (fun rs r => .ok (rs ++ [r])) maxRecords []
    (f.bytes.drop f.offset)).toOption.elim [] Prod.fst)

/-- Move past records that the broker has taken. -/
def acknowledge (records : ℕ) : Except IoError SegmentFile :=
  let next := f.offset + records * OUTBOX_RECORD_LEN
  if records = 0 then .ok f
  else if f.bytes.length < next then
    .error (.invalidInput "cannot acknowledge records beyond outbox end")
  else .ok { f with cursor := some next }

/-- Move to an offset learned from another replica. -/
def acknowledgeTo (offset : ℕ) : Except IoError SegmentFile :=
  if offset ≤ f.offset then .ok f
  else if Boundary f.bytes.length offset then .ok { f with cursor := some offset }
  else .error (.invalidInput "shared execution outbox cursor is invalid or ahead of local WAL")

/-- The number of records behind the reader's place. -/
def pendingRecords : ℕ := (f.bytes.length - f.offset) / OUTBOX_RECORD_LEN

/-- The cursor shows that everything in the file is published. -/
def collectable : Bool := f.cursor.any (f.bytes.length ≤ ·)

/-- The complete records behind the reader's place. -/
def unpublished : List OutboxRecord := f.readBatch f.bytes.length

/-- All complete records of the file. -/
def records : List OutboxRecord := { f with cursor := none }.unpublished

/-- The records before the reader's place. -/
def acknowledged : List OutboxRecord :=
  { f with cursor := none }.readBatch ((f.offset - OUTBOX_HEADER.length) / OUTBOX_RECORD_LEN)

/-! #### Files as records -/

/-- A file with these records, followed by the beginning of another one, of which the first
`published` ones are published. -/
structure Holds (f : SegmentFile) (records : List OutboxRecord) (torn : List UInt8)
    (published : ℕ) : Prop where
  bytes : f.bytes = OUTBOX_HEADER ++ (OutboxRecord.framing.encode records ++ torn)
  torn : OutboxRecord.framing.Torn torn
  offset : f.offset = OUTBOX_HEADER.length + OUTBOX_RECORD_LEN * published
  le : published ≤ records.length

theorem holds_new : Holds { bytes := OUTBOX_HEADER } [] [] 0 :=
  ⟨rfl, .inl rfl, rfl, Nat.le_refl 0⟩

namespace Holds

variable {f : SegmentFile} {records : List OutboxRecord} {torn : List UInt8} {published : ℕ}

section

variable (h : f.Holds records torn published)
include h

theorem length : f.bytes.length =
    OUTBOX_HEADER.length + OUTBOX_RECORD_LEN * records.length + torn.length := by
  rw [h.bytes, length_append, length_append, Framing.length_encode_of_fixed length_bytes, add_assoc]

theorem length_torn_lt : torn.length < OUTBOX_RECORD_LEN :=
  Framing.Torn.length_lt length_bytes (by decide) h.torn

theorem offset_le : f.offset ≤ f.bytes.length := by
  have hmul := Nat.mul_le_mul_left OUTBOX_RECORD_LEN h.le
  rw [h.length, h.offset]
  omega

theorem boundary : Boundary f.bytes.length f.offset := by
  refine ⟨by rw [h.offset]; omega, ?_, h.offset_le⟩
  rw [h.offset, Nat.add_sub_cancel_left, Nat.mul_mod_right]

/-- The reader opens the file. -/
theorem openWithCursor : f.openWithCursor = .ok () := by
  have hboundary := h.boundary
  rw [SegmentFile.offset] at hboundary
  rw [SegmentFile.openWithCursor, h.bytes, readExact_append rfl]
  simp only [ne_eq, not_true_eq_false, if_false]
  cases hcursor : f.cursor with
  | none => rfl
  | some offset =>
    rw [hcursor, h.bytes] at hboundary
    exact if_pos hboundary

/-- **A batch is the next records**, up to the limit. -/
theorem readBatch (maxRecords : ℕ) :
    f.readBatch maxRecords = (records.drop published).take maxRecords := by
  have hdrop : f.bytes.drop f.offset =
      framing.encode (records.drop published) ++ torn := by
    rw [h.bytes, h.offset, ← drop_drop, drop_left, drop_append_of_le_length,
      Framing.drop_encode_of_fixed length_bytes]
    rw [Framing.length_encode_of_fixed length_bytes]
    exact Nat.mul_le_mul_left _ h.le
  have hscan := @Framing.foldRecords_encode_take _ _ _ framing
    (fun rs r => (.ok (rs ++ [r]) : Except IoError (List OutboxRecord)))
    (records.drop published) (fun _ _ => trivial) torn h.torn maxRecords []
  rw [Framing.foldlM_collect] at hscan
  rw [SegmentFile.readBatch, hdrop]
  exact congrArg (fun r => r.toOption.elim [] Prod.fst) hscan

theorem unpublished : f.unpublished = records.drop published := by
  rw [SegmentFile.unpublished, h.readBatch, take_of_length_le]
  have hlen := h.length
  have hmul : records.length ≤ OUTBOX_RECORD_LEN * records.length :=
    Nat.le_mul_of_pos_left _ (by decide)
  rw [length_drop]
  omega

/-- The same file without its cursor. -/
theorem withoutCursor :
    Holds { f with cursor := none } records torn 0 := ⟨h.bytes, h.torn, rfl, Nat.zero_le _⟩

theorem records_eq : f.records = records :=
  h.withoutCursor.unpublished

theorem acknowledged : f.acknowledged = records.take published := by
  rw [SegmentFile.acknowledged, h.withoutCursor.readBatch, h.offset, Nat.add_sub_cancel_left,
    Nat.mul_div_cancel_left _ (by decide), drop_zero]

/-- What is pending is the records that are not published. -/
theorem pendingRecords : f.pendingRecords = records.length - published := by
  have hsplit : OUTBOX_RECORD_LEN * records.length =
      OUTBOX_RECORD_LEN * published + OUTBOX_RECORD_LEN * (records.length - published) := by
    rw [← mul_add, Nat.add_sub_cancel' h.le]
  have htorn := h.length_torn_lt
  rw [SegmentFile.pendingRecords, h.length, h.offset, Nat.div_eq_of_lt_le]
  · rw [mul_comm (records.length - published)]
    omega
  · rw [Nat.succ_mul, mul_comm (records.length - published)]
    omega

end

/-- More records behind the others. -/
theorem append (h : f.Holds records [] published) (more : List OutboxRecord) :
    Holds { f with bytes := f.bytes ++ framing.encode more } (records ++ more) []
      published where
  bytes := by rw [h.bytes, Framing.encode_append]; simp
  torn := .inl rfl
  offset := h.offset
  le := by rw [length_append]; exact h.le.trans (Nat.le_add_right _ _)

variable (h : f.Holds records torn published)
include h

/-- Another cursor at a record boundary. -/
theorem withCursor {k : ℕ} (hk : k ≤ records.length) :
    Holds { f with cursor := some (OUTBOX_HEADER.length + OUTBOX_RECORD_LEN * k) } records torn k :=
  ⟨h.bytes, h.torn, rfl, hk⟩

theorem acknowledge {n : ℕ} (hn : published + n ≤ records.length) :
    ∃ f', f.acknowledge n = .ok f' ∧ f'.Holds records torn (published + n) := by
  rw [SegmentFile.acknowledge]
  split
  · rename_i hzero
    subst hzero
    exact ⟨f, rfl, h⟩
  · have hnext : f.offset + n * OUTBOX_RECORD_LEN =
        OUTBOX_HEADER.length + OUTBOX_RECORD_LEN * (published + n) := by
      rw [h.offset, mul_add, mul_comm n, add_assoc]
    have hmul := Nat.mul_le_mul_left OUTBOX_RECORD_LEN hn
    rw [hnext, if_neg (by rw [h.length]; omega)]
    exact ⟨_, rfl, h.withCursor hn⟩

/-- A move by a number of records fails or ends at a record. -/
theorem of_acknowledge {n : ℕ} {f' : SegmentFile} (hn : f.acknowledge n = .ok f') :
    published + n ≤ records.length ∧ f'.Holds records torn (published + n) := by
  suffices hle : published + n ≤ records.length by
    obtain ⟨g, hg, hh⟩ := h.acknowledge hle
    rw [hn] at hg
    exact ⟨hle, Except.ok.inj hg ▸ hh⟩
  rw [SegmentFile.acknowledge] at hn
  split at hn
  · rename_i hzero
    rw [hzero]
    exact h.le
  · split at hn
    · cases hn
    · rename_i hlt
      rw [h.length, h.offset] at hlt
      have htorn := h.length_torn_lt
      refine Nat.le_of_lt_succ (Nat.lt_of_mul_lt_mul_left (a := OUTBOX_RECORD_LEN) ?_)
      rw [mul_add, Nat.mul_succ, mul_comm _ n]
      omega

/-- Moving to an offset stays where it is or moves forward to the end of a record. -/
theorem acknowledgeTo {offset : ℕ} {f' : SegmentFile} (ht : f.acknowledgeTo offset = .ok f') :
    f' = f ∨ ∃ k, published < k ∧ k ≤ records.length ∧
      offset = OUTBOX_HEADER.length + OUTBOX_RECORD_LEN * k ∧ f'.Holds records torn k := by
  rw [SegmentFile.acknowledgeTo] at ht
  split at ht
  · exact .inl (Except.ok.inj ht).symm
  · rename_i hlt
    split at ht
    · rename_i hb
      obtain ⟨hlo, hmod, hhi⟩ := hb
      obtain ⟨k, hk⟩ := Nat.dvd_of_mod_eq_zero hmod
      have hoffset : offset = OUTBOX_HEADER.length + OUTBOX_RECORD_LEN * k := by omega
      rw [h.offset, hoffset] at hlt
      rw [hoffset, h.length] at hhi
      have htorn := h.length_torn_lt
      have hpos : 0 < OUTBOX_RECORD_LEN := by decide
      have hk₁ : published < k := Nat.lt_of_mul_lt_mul_left (a := OUTBOX_RECORD_LEN) (by omega)
      have hk₂ : k < records.length + 1 := by
        refine Nat.lt_of_mul_lt_mul_left (a := OUTBOX_RECORD_LEN) ?_
        rw [Nat.mul_succ]
        omega
      rw [← Except.ok.inj ht, hoffset]
      exact .inr ⟨k, hk₁, by omega, rfl, h.withCursor (by omega)⟩
    · cases ht

/-- A file that may be removed holds no record that is not published. -/
theorem collectable (hc : f.collectable = true) : published = records.length := by
  rw [SegmentFile.collectable, Option.any_eq_true] at hc
  obtain ⟨c, hcursor, hle⟩ := hc
  have hoffset := h.offset
  rw [SegmentFile.offset, hcursor, getD_some] at hoffset
  rw [decide_eq_true_eq, hoffset, h.length] at hle
  have hle' : OUTBOX_RECORD_LEN * records.length ≤ OUTBOX_RECORD_LEN * published := by omega
  exact le_antisymm h.le (Nat.le_of_mul_le_mul_left hle' (by decide))

end Holds

end SegmentFile

/-! ### A segment after a crash -/

namespace OutboxRecord

variable {records : List OutboxRecord}

/-- Trimming keeps the records up to the largest applied index, where they are in order. -/
theorem takeWhile_applied (h : records.Pairwise (·.raftIndex ≤ ·.raftIndex)) (m : Option UInt64) :
    (records.map bytes).takeWhile (applied m) =
      (records.filter fun r => m.any (r.raftIndex ≤ ·)).map bytes := by
  have happlied : applied m ∘ bytes = fun r => m.any (r.raftIndex ≤ ·) := funext fun r => by
    rw [Function.comp, applied, intact_bytes, indexOf_bytes, Bool.true_and]
  have hkept : records.Pairwise fun a b => m.any (b.raftIndex ≤ ·) → m.any (a.raftIndex ≤ ·) := by
    refine h.imp fun hle hb => ?_
    cases m with
    | none => exact hb
    | some i => exact decide_eq_true (UInt64.le_trans hle (of_decide_eq_true hb))
  have hsame := (@ShardStart.filter_takeWhile_eq_iff _ _ _ (fun _ h => h) records).mpr hkept
  rw [takeWhile_map, happlied, ← hsame, filter_eq_self.mpr]
  exact fun r hr => @mem_takeWhile_imp _ _ _ r hr

/-- The places of a cut segment are its complete records. -/
theorem slots_take (records : List OutboxRecord) (n : ℕ) :
    DiskFile.slots { bytes := (OUTBOX_HEADER ++ framing.encode records).take n } =
      (framing.complete records (n - OUTBOX_HEADER.length)).map bytes := by
  obtain ⟨t, ht, hcut⟩ := @Framing.take_encode _ _ framing records (fun _ _ => trivial)
    (n - OUTBOX_HEADER.length)
  rw [DiskFile.slots, drop_take, drop_left, hcut]
  refine chunks_flatten (fun c hc => ?_) (ht.length_lt length_bytes (by decide))
  obtain ⟨r, -, rfl⟩ := List.mem_map.mp hc
  exact r.length_bytes

theorem unfaulted : (none : Option IoError) ≠ some .notFound :=
  nofun

/-- A start on these bytes trims and opens the segment, which holds these records then, and the
reader finds behind them what is appended later. -/
def Recovers (m : Option UInt64) (file : List UInt8) (records : List OutboxRecord) : Prop :=
  ∃ trimmed f, truncateAfterApplied (some ⟨file, none, unfaulted⟩) m = .ok trimmed ∧
    openSegment trimmed = .ok f ∧ f.bytes = OUTBOX_HEADER ++ framing.encode records ∧
    ∀ more, SegmentFile.records { bytes := f.bytes ++ framing.encode more } = records ++ more

/-- **Torn tails.** A start on any beginning of a segment finds its complete records up to the
largest applied index, unless the beginning ends within the header. -/
theorem torn_tail_iff (h : records.Pairwise (·.raftIndex ≤ ·.raftIndex)) (n : ℕ)
    (m : Option UInt64) :
    Recovers m ((OUTBOX_HEADER ++ framing.encode records).take n)
      ((framing.complete records (n - OUTBOX_HEADER.length)).filter fun r =>
        m.any (r.raftIndex ≤ ·)) ↔ n = 0 ∨ OUTBOX_HEADER.length ≤ n := by
  constructor
  · rintro ⟨trimmed, f, htrim, hopen, -⟩
    by_contra hn
    obtain ⟨hpos, hlt⟩ := not_or.mp hn
    -- the header is not complete, and the file is not empty
    have hread := @readExact_of_lt OUTBOX_HEADER.length
      ((OUTBOX_HEADER ++ framing.encode records).take n)
      ((length_take_le _ _).trans_lt (not_le.mp hlt))
    have hne : (OUTBOX_HEADER ++ framing.encode records).take n ≠ [] := by
      simp [hpos, OUTBOX_HEADER]
    simp only [truncateAfterApplied, hread] at htrim
    cases htrim
    simp [openSegment, hread, hne] at hopen
  · intro hn
    have hsound : ¬ DiskFile.Damaged
        { bytes := (OUTBOX_HEADER ++ framing.encode records).take n } := by
      rcases hn with rfl | hle
      · simp [DiskFile.Damaged]
      · simp [DiskFile.Damaged, take_take, Nat.min_eq_left hle]
    obtain ⟨f₁, f₂, htrim, hopen, hslots, hbytes⟩ := exists_recovered hsound m
    rw [slots_take, takeWhile_applied (h.sublist (framing.complete_isPrefix _ _).sublist)] at hslots
    rw [hslots] at hbytes
    refine ⟨f₁, f₂, htrim, hopen, hbytes, fun more => ?_⟩
    have hholds : SegmentFile.Holds { bytes := f₂.bytes } _ [] 0 :=
      ⟨by rw [hbytes, append_nil]; rfl, .inl rfl, rfl, Nat.zero_le _⟩
    exact (hholds.append more).records_eq

/-- Of three records, the last is torn and the second is not applied. -/
theorem torn_tail_iff_second :
    Recovers (some 3)
      ((OUTBOX_HEADER ++ framing.encode [singleReport 3, singleReport 4, singleReport 4]).take 200)
      [singleReport 3] :=
  (torn_tail_iff (by decide) 200 (some 3)).mpr (.inr (by decide))

/-- **A header that a crash has cut** stops every later start. -/
theorem torn_header_stops :
    truncateAfterApplied (some { bytes := OUTBOX_HEADER.take 1 }) none =
        .ok (some { bytes := OUTBOX_HEADER.take 1 }) ∧
      openSegment (some { bytes := OUTBOX_HEADER.take 1 }) = .error .unexpectedEof ∧
      ¬ Recovers none ((OUTBOX_HEADER ++ framing.encode []).take 1) [] := by
  refine ⟨rfl, rfl, ?_⟩
  rintro ⟨trimmed, f, htrim, hopen, -⟩
  cases htrim
  cases hopen

end OutboxRecord

/-! ### The outbox of a shard -/

/-- The outbox of a shard: its writer and its files. -/
structure ShardOutbox where
  shard : ℕ
  /-- The size at which a segment is sealed. -/
  rotateBytes : Option ℕ
  nextSegmentSeq : ℕ
  /-- The size of the newest segment, with the bytes that have not reached the file. -/
  segmentBytes : ℕ
  /-- Appended bytes that have not reached the file. -/
  buffer : List UInt8
  /-- The sealed segments with their numbers, oldest first. -/
  older : List (ℕ × SegmentFile)
  /-- The newest segment. -/
  active : ℕ × SegmentFile

namespace ShardOutbox

/-- A new outbox. A rotation size of zero disables rotation. -/
def fresh (shard : ℕ) (rotateBytes : Option ℕ) : ShardOutbox where
  shard := shard
  rotateBytes := rotateBytes.filter fun bytes => 0 < bytes
  nextSegmentSeq := 1
  segmentBytes := OUTBOX_HEADER.length
  buffer := []
  older := []
  active := (0, { bytes := OUTBOX_HEADER })

variable (o : ShardOutbox)

/-- The segments, oldest first. -/
def segments : List (ℕ × SegmentFile) := o.older ++ [o.active]

/-- The segments under the names of their files. -/
def files : List (List Char × SegmentFile) :=
  o.segments.map fun e => (segmentStem o.shard e.1, e.2)

/-- Append a record without a durability barrier. -/
def appendDeferred (r : OutboxRecord) : ShardOutbox :=
  { o with
    buffer := o.buffer ++ r.bytes
    segmentBytes := o.segmentBytes + OUTBOX_RECORD_LEN }

/-- The first `k` buffered bytes reach the file. -/
def drain (k : ℕ) : ShardOutbox :=
  { o with
    active := (o.active.1, { o.active.2 with bytes := o.active.2.bytes ++ o.buffer.take k })
    buffer := o.buffer.drop k }

/-- All buffered bytes reach the file. -/
def flushToOs : ShardOutbox := o.drain o.buffer.length

/-- Remove the sealed segments that are fully published. -/
def removePublishedSegments : ShardOutbox :=
  { o with older := o.older.filter fun e => !e.2.collectable }

/-- Seal the newest segment and start the next one. -/
def rotate : ShardOutbox :=
  { o with
    older := o.older ++ [o.active]
    active := (o.nextSegmentSeq, { bytes := OUTBOX_HEADER })
    nextSegmentSeq := o.nextSegmentSeq + 1
    segmentBytes := OUTBOX_HEADER.length }

/-- Rotate if the newest segment has reached its size, then collect published segments. -/
def maybeRotate : ShardOutbox :=
  match o.rotateBytes with
  | none => o
  | some limit =>
    if o.segmentBytes < limit then o else o.flushToOs.rotate.removePublishedSegments

/-- Append the records of a committed batch and flush them, then rotate if it is time. -/
def recordBatch (records : List OutboxRecord) : ShardOutbox :=
  (records.foldl appendDeferred o).flushToOs.maybeRotate

/-- The sealed segments that a rotation removes. -/
def collects : List (ℕ × SegmentFile) :=
  match o.rotateBytes with
  | none => []
  | some limit =>
    if o.segmentBytes < limit then []
    else o.flushToOs.rotate.older.filter fun e => e.2.collectable

/-- Change the segment with a number. -/
def mapSegment (seq : ℕ) (move : SegmentFile → SegmentFile) : ShardOutbox :=
  let at_ (e : ℕ × SegmentFile) := if e.1 = seq then (e.1, move e.2) else e
  { o with older := o.older.map at_, active := at_ o.active }

/-- The newest segment has reached its size. -/
def isFull : Bool := o.rotateBytes.any (· ≤ o.segmentBytes)

/-- The writer of a process that starts: it goes on in the newest segment. -/
def reopen : ShardOutbox :=
  { o with
    nextSegmentSeq := o.active.1 + 1
    segmentBytes := o.active.2.bytes.length
    buffer := [] }

/-- The histories of an outbox: appends, writes of the buffer, rotations (as long as the
segment counter does not overflow) and moves of its cursors. -/
inductive Reachable : ShardOutbox → Prop
  | fresh {shard : ℕ} (hshard : shard < 2 ^ 32) (rotateBytes : Option ℕ) :
      Reachable (ShardOutbox.fresh shard rotateBytes)
  | append {o : ShardOutbox} (h : Reachable o) (r : OutboxRecord) :
      Reachable (o.appendDeferred r)
  | drain {o : ShardOutbox} (h : Reachable o) (k : ℕ) : Reachable (o.drain k)
  | rotate {o : ShardOutbox} (h : Reachable o) (hseq : o.nextSegmentSeq + 1 < 2 ^ 64) :
      Reachable o.maybeRotate
  | acknowledge {o : ShardOutbox} (h : Reachable o) (seq n : ℕ) :
      Reachable (o.mapSegment seq fun f => (f.acknowledge n).toOption.getD f)
  | acknowledgeTo {o : ShardOutbox} (h : Reachable o) (seq offset : ℕ) :
      Reachable (o.mapSegment seq fun f => (f.acknowledgeTo offset).toOption.getD f)

/-- The segments of an outbox in order: the sealed ones end with a complete record, the bytes
of the newest one go on in the buffer, and the numbers ascend. -/
structure Tidy (o : ShardOutbox) : Prop where
  shard : o.shard < 2 ^ 32
  next : o.nextSegmentSeq < 2 ^ 64
  older : ∀ e ∈ o.older, ∃ records published, e.2.Holds records [] published
  active : ∃ records torn rest published, o.active.2.Holds records torn published ∧
    torn ++ o.buffer = OutboxRecord.framing.encode rest
  ascending : (o.segments.map Prod.fst).Pairwise (· < ·)
  active_lt : o.active.1 < o.nextSegmentSeq

/-! #### Numbers of segments -/

section Numbers

variable {o : ShardOutbox}

section

variable (h : (o.segments.map Prod.fst).Pairwise (· < ·))
include h

theorem le_active {e : ℕ × SegmentFile} (he : e ∈ o.segments) : e.1 ≤ o.active.1 := by
  rw [segments, map_append, pairwise_append] at h
  rcases mem_append.mp he with he | he
  · exact (h.2.2 e.1 (List.mem_map_of_mem he) o.active.1 (mem_singleton_self _)).le
  · rw [mem_singleton.mp he]

theorem ascending_rotate (hlt : o.active.1 < o.nextSegmentSeq) :
    (o.rotate.segments.map Prod.fst).Pairwise (· < ·) := by
  have hsegments : o.rotate.segments =
      o.segments ++ [(o.nextSegmentSeq, { bytes := OUTBOX_HEADER })] := rfl
  rw [hsegments, map_append, pairwise_append]
  refine ⟨h, pairwise_singleton _ _, fun a ha b hb => ?_⟩
  obtain ⟨e, he, rfl⟩ := List.mem_map.mp ha
  rw [mem_singleton.mp hb]
  exact (le_active h he).trans_lt hlt

theorem ascending_removePublishedSegments :
    (o.removePublishedSegments.segments.map Prod.fst).Pairwise (· < ·) :=
  h.sublist (((filter_sublist).append_right _).map _)

end

theorem segments_mapSegment (o : ShardOutbox) (seq : ℕ) (move : SegmentFile → SegmentFile) :
    (o.mapSegment seq move).segments =
      o.segments.map fun e => if e.1 = seq then (e.1, move e.2) else e := by
  simp [segments, mapSegment]

@[simp] theorem active_mapSegment (o : ShardOutbox) (seq : ℕ) (move : SegmentFile → SegmentFile) :
    (o.mapSegment seq move).active.1 = o.active.1 := by
  rw [mapSegment]
  dsimp only
  split <;> rfl

theorem map_fst_mapSegment (o : ShardOutbox) (seq : ℕ) (move : SegmentFile → SegmentFile) :
    (o.mapSegment seq move).segments.map Prod.fst = o.segments.map Prod.fst := by
  rw [segments_mapSegment, List.map_map]
  refine map_congr_left fun e _ => ?_
  simp only [Function.comp_apply]
  split <;> rfl

end Numbers

/-! #### Histories -/

section Tidy

variable {o : ShardOutbox}

theorem tidy_fresh {shard : ℕ} (hshard : shard < 2 ^ 32) (rotateBytes : Option ℕ) :
    (fresh shard rotateBytes).Tidy where
  shard := hshard
  next := Nat.one_lt_two_pow (by decide)
  older := fun e he => nomatch he
  active := ⟨[], [], [], 0, SegmentFile.holds_new, rfl⟩
  ascending := pairwise_singleton _ _
  active_lt := Nat.zero_lt_one

theorem Tidy.appendDeferred (h : o.Tidy) (r : OutboxRecord) : (o.appendDeferred r).Tidy where
  __ := h
  active := by
    obtain ⟨records, torn, rest, published, hh, hrest⟩ := h.active
    refine ⟨records, torn, rest ++ [r], published, hh, ?_⟩
    rw [ShardOutbox.appendDeferred, ← append_assoc, hrest, Framing.encode_append]
    exact congrArg _ (append_nil _).symm

theorem Tidy.drain (h : o.Tidy) (k : ℕ) : (o.drain k).Tidy where
  __ := h
  ascending := by
    have hasc := h.ascending
    rw [segments, map_append] at hasc ⊢
    exact hasc
  active := by
    obtain ⟨records, torn, rest, published, hh, hrest⟩ := h.active
    -- the bytes beyond the complete records, cut at the new end of the file
    obtain ⟨t, ht, htake⟩ := @Framing.take_encode _ _ framing rest
      (fun _ _ => trivial) (torn.length + k)
    obtain ⟨rest', hrest'⟩ := framing.complete_isPrefix rest (torn.length + k)
    have hnew : torn ++ o.buffer.take k =
        framing.encode (framing.complete rest (torn.length + k)) ++ t := by
      rw [← htake, ← hrest, take_length_add_append]
    refine ⟨records ++ framing.complete rest (torn.length + k), t, rest', published,
      ⟨?_, ht, hh.offset, ?_⟩, ?_⟩
    · change o.active.2.bytes ++ o.buffer.take k = _
      rw [hh.bytes, Framing.encode_append, append_assoc, append_assoc, hnew, append_assoc]
    · rw [length_append]
      exact hh.le.trans (Nat.le_add_right _ _)
    · change t ++ o.buffer.drop k = _
      refine @List.append_cancel_left _ (framing.encode
        (framing.complete rest (torn.length + k))) _ _ ?_
      rw [← Framing.encode_append, hrest', ← hrest, ← append_assoc, ← hnew,
        append_assoc, take_append_drop]

/-- After a flush the newest segment ends with a complete record as well. -/
theorem Tidy.flushToOs (h : o.Tidy) : o.flushToOs.Tidy ∧ o.flushToOs.buffer = [] ∧
    ∃ records published, o.flushToOs.active.2.Holds records [] published := by
  have hbuffer : o.flushToOs.buffer = [] := drop_length
  have htidy := h.drain o.buffer.length
  refine ⟨htidy, hbuffer, ?_⟩
  obtain ⟨records, torn, rest, published, hh, hrest⟩ := htidy.active
  rw [show (o.drain o.buffer.length).buffer = [] from hbuffer, append_nil] at hrest
  have hlen := Framing.length_encode_of_fixed (F := framing)
    length_bytes rest
  have htorn := hh.length_torn_lt
  rw [hrest, hlen] at htorn
  have hzero : rest.length = 0 := by
    by_contra hne
    exact absurd (Nat.le_mul_of_pos_right OUTBOX_RECORD_LEN (pos_of_ne_zero hne)) (by omega)
  rw [length_eq_zero_iff.mp hzero, Framing.encode_nil] at hrest
  exact ⟨records, published, hrest ▸ hh⟩

theorem Tidy.removePublishedSegments (h : o.Tidy) : o.removePublishedSegments.Tidy where
  __ := h
  older := fun e he => h.older e (mem_filter.mp he).1
  ascending := ascending_removePublishedSegments h.ascending

theorem Tidy.maybeRotate (h : o.Tidy) (hseq : o.nextSegmentSeq + 1 < 2 ^ 64) :
    o.maybeRotate.Tidy := by
  rw [ShardOutbox.maybeRotate]
  split
  · exact h
  · split
    · exact h
    · obtain ⟨hflush, hbuffer, hactive⟩ := h.flushToOs
      refine Tidy.removePublishedSegments ?_
      exact {
        shard := h.shard
        next := hseq
        older := by
          intro e he
          rcases mem_append.mp he with he | he
          · exact h.older e he
          · rw [mem_singleton.mp he]
            exact hactive
        active := ⟨[], [], [], 0, SegmentFile.holds_new, hbuffer⟩
        ascending := ascending_rotate hflush.ascending h.active_lt
        active_lt := lt_add_one _ }

/-- A change of segments that keeps their records. -/
theorem Tidy.mapSegment (h : o.Tidy) (seq : ℕ) {move : SegmentFile → SegmentFile}
    (hmove : ∀ f records torn published, f.Holds records torn published →
      ∃ published', (move f).Holds records torn published') : (o.mapSegment seq move).Tidy where
  shard := h.shard
  next := h.next
  older := by
    intro e he
    obtain ⟨e₀, he₀, rfl⟩ := List.mem_map.mp he
    obtain ⟨records, published, hh⟩ := h.older e₀ he₀
    split
    · obtain ⟨published', hh'⟩ := hmove _ _ _ _ hh
      exact ⟨records, published', hh'⟩
    · exact ⟨records, published, hh⟩
  active := by
    obtain ⟨records, torn, rest, published, hh, hrest⟩ := h.active
    rw [ShardOutbox.mapSegment]
    dsimp only
    split
    · obtain ⟨published', hh'⟩ := hmove _ _ _ _ hh
      exact ⟨records, torn, rest, published', hh', hrest⟩
    · exact ⟨records, torn, rest, published, hh, hrest⟩
  ascending := by
    rw [map_fst_mapSegment]
    exact h.ascending
  active_lt := by
    rw [active_mapSegment]
    exact h.active_lt

/-- **Every history leaves the segments in order.** -/
theorem Reachable.tidy (h : o.Reachable) : o.Tidy := by
  induction h with
  | fresh hshard rotateBytes => exact tidy_fresh hshard rotateBytes
  | append _ r ih => exact ih.appendDeferred r
  | drain _ k ih => exact ih.drain k
  | rotate _ hseq ih => exact ih.maybeRotate hseq
  | acknowledge _ seq n ih =>
    refine ih.mapSegment seq fun f records torn published hh => ?_
    cases hmove : f.acknowledge n with
    | error err => exact ⟨published, hh⟩
    | ok f' => exact ⟨_, (hh.of_acknowledge hmove).2⟩
  | acknowledgeTo _ seq offset ih =>
    refine ih.mapSegment seq fun f records torn published hh => ?_
    cases hmove : f.acknowledgeTo offset with
    | error err => exact ⟨published, hh⟩
    | ok f' =>
      rcases hh.acknowledgeTo hmove with rfl | ⟨k, -, -, -, hh'⟩
      · exact ⟨published, hh⟩
      · exact ⟨k, hh'⟩

end Tidy

/-! #### Batches -/

section Batch

variable {o : ShardOutbox}

/-- Appended records wait in the buffer. -/
theorem foldl_appendDeferred (records : List OutboxRecord) (o : ShardOutbox) :
    records.foldl appendDeferred o = { o with
      buffer := o.buffer ++ framing.encode records
      segmentBytes := o.segmentBytes + OUTBOX_RECORD_LEN * records.length } := by
  induction records generalizing o with
  | nil => simp
  | cons r records ih =>
    rw [foldl_cons, ih, appendDeferred, Framing.encode_cons, append_assoc,
      length_cons, Nat.mul_succ, add_assoc, add_comm OUTBOX_RECORD_LEN]
    rfl

/-- The outbox with records at the end of its newest segment. -/
def withRecords (o : ShardOutbox) (records : List OutboxRecord) : ShardOutbox :=
  { o with
    segmentBytes := o.segmentBytes + OUTBOX_RECORD_LEN * records.length
    active := (o.active.1,
      { o.active.2 with bytes := o.active.2.bytes ++ OutboxRecord.framing.encode records }) }

theorem ascending_withRecords (h : (o.segments.map Prod.fst).Pairwise (· < ·))
    (records : List OutboxRecord) :
    ((o.withRecords records).segments.map Prod.fst).Pairwise (· < ·) := by
  rw [segments, map_append] at h ⊢
  exact h

theorem flushToOs_foldl_appendDeferred (hbuffer : o.buffer = []) (records : List OutboxRecord) :
    (records.foldl appendDeferred o).flushToOs = o.withRecords records := by
  rw [foldl_appendDeferred, flushToOs, drain, withRecords, hbuffer]
  simp

/-- **A rotation**: when the newest segment has reached its size, it is sealed, and the sealed
segments that are fully published are removed. -/
theorem maybeRotate_cases (hbuffer : o.buffer = []) :
    (o.maybeRotate = o ∧ o.collects = [] ∧ o.isFull = false) ∨
    (o.maybeRotate = o.rotate.removePublishedSegments ∧
      o.collects = o.segments.filter (fun e => e.2.collectable) ∧ o.isFull = true) := by
  have hflush : o.flushToOs = o := by
    obtain ⟨shard, rotateBytes, next, bytes, buffer, older, active⟩ := o
    obtain rfl : buffer = [] := hbuffer
    simp [flushToOs, drain]
  rw [maybeRotate, collects, isFull, hflush]
  cases o.rotateBytes with
  | none => exact .inl ⟨rfl, rfl, rfl⟩
  | some limit =>
    dsimp only
    by_cases hlt : o.segmentBytes < limit
    · rw [if_pos hlt, if_pos hlt]
      exact .inl ⟨rfl, rfl, decide_eq_false hlt.not_ge⟩
    · rw [if_neg hlt, if_neg hlt]
      exact .inr ⟨rfl, rfl, decide_eq_true (not_lt.mp hlt)⟩

end Batch

end ShardOutbox

end TradeCore
