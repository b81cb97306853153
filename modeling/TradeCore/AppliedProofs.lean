import TradeCore.Journal

/-!
# Application Proofs

After a committed batch has been applied and its reports are in the outbox, the shard appends
a **proof** to the file `raft-batches.applied.v2`: the Raft index of the batch, the number of
its reports and their fingerprint. A start loads all proofs. The loader passes over an
incomplete last record, refuses a complete record with a wrong checksum, and refuses two
different proofs for one index.

The write appends at the end of the file, whatever the file ends with, and stamps the header
only when the file did not exist: both are right as long as a crash leaves whole records.

## Main results

* `AppliedProofs.framing` — proof records are a framing.
* `ProofRun.load_run` — when each crash leaves no file or a header with whole records, the
  loader returns exactly the proofs that are complete on disk.
* `ProofRun.load_run_torn` — a torn header or record makes the loader fail.
-/

namespace TradeCore

open Std List Option

/-- What opening and reading a file gives: its bytes or an error. -/
abbrev Stored := Except IoError (List UInt8)

/-- The proof that a batch was applied with exactly these reports. -/
structure AppliedBatchProof where
  raftIndex : UInt64
  reportCount : UInt32
  reportFingerprint : UInt64
  deriving DecidableEq

/-- Magic and format version of the proof file. -/
def APPLIED_PROOF_HEADER : List UInt8 := [0x54, 0x43, 0x41, 0x50, 0x01, 0x00, 0x00, 0x00]

/-- The length of a proof record. -/
def APPLIED_PROOF_RECORD_LEN : ℕ := 32

/-! ### Records -/

namespace AppliedBatchProof

/-- The bytes of a proof under its checksum; four of them stay zero. -/
def body (p : AppliedBatchProof) : List UInt8 :=
  leBytes 8 p.raftIndex.toNat ++ leBytes 4 p.reportCount.toNat ++ List.replicate 4 0 ++
    leBytes 8 p.reportFingerprint.toNat

/-- A proof as it stands in the file. -/
def bytes (p : AppliedBatchProof) : List UInt8 := p.body ++ leBytes 8 (fnv1a p.body).toNat

@[simp] theorem length_body (p : AppliedBatchProof) : p.body.length = 24 := by
  simp [body]

@[simp] theorem length_bytes (p : AppliedBatchProof) :
    p.bytes.length = APPLIED_PROOF_RECORD_LEN := by
  simp [bytes, APPLIED_PROOF_RECORD_LEN]

end AppliedBatchProof

/-- Append the proof of one batch. A new file gets a header first. -/
def markAppliedBatch (file : Option (List UInt8)) (p : AppliedBatchProof) : List UInt8 :=
  file.getD APPLIED_PROOF_HEADER ++ p.bytes

namespace AppliedProofs

/-- The next proof of a file. A short rest ends the scan, a wrong checksum is an error. -/
def next (bs : List UInt8) : Except IoError (Option (AppliedBatchProof × List UInt8)) :=
  match readExact APPLIED_PROOF_RECORD_LEN bs with
  | none => .ok none
  | some (record, rest) =>
    let expected := UInt64.ofNat (leNat (record.drop 24))
    if fnv1a (record.take 24) ≠ expected then
      .error (.invalidData "applied Raft proof checksum mismatch")
    else .ok (some
      ({ raftIndex := UInt64.ofNat (leNat (record.take 8))
         reportCount := UInt32.ofNat (leNat ((record.drop 8).take 4))
         reportFingerprint := UInt64.ofNat (leNat ((record.drop 16).take 8)) }, rest))

/-- Add a proof to those loaded before; another proof for its index is an error. -/
def insert (proofs : ExtTreeMap UInt64 AppliedBatchProof) (p : AppliedBatchProof) :
    Except IoError (ExtTreeMap UInt64 AppliedBatchProof) :=
  match proofs[p.raftIndex]? with
  | none => .ok (proofs.insert p.raftIndex p)
  | some previous =>
    if previous ≠ p then
      .error (.invalidData "conflicting applied Raft proofs for one index")
    else .ok (proofs.insert p.raftIndex p)

end AppliedProofs

/-- Load and validate every proof. -/
def loadAppliedBatchProofs : Stored → Except IoError (ExtTreeMap UInt64 AppliedBatchProof)
  | .error .notFound => .ok ∅
  | .error e => .error e
  | .ok file =>
    match readExact APPLIED_PROOF_HEADER.length file with
    | none => .error .unexpectedEof
    | some (header, rest) =>
      if header ≠ APPLIED_PROOF_HEADER then
        .error (.invalidData "applied Raft proof header/version mismatch")
      else (foldRecords AppliedProofs.next AppliedProofs.insert rest.length ∅ rest).map Prod.fst

/-! ### Proof records are framed -/

/-- A complete proof is read back. -/
theorem AppliedProofs.next_bytes (p : AppliedBatchProof) (rest : List UInt8) :
    AppliedProofs.next (p.bytes ++ rest) = .ok (some (p, rest)) := by
  have hread := readExact_append p.length_bytes rest
  have hbody : p.bytes.take 24 = p.body := take_left' p.length_body
  have hsum : p.bytes.drop 24 = leBytes 8 (fnv1a p.body).toNat := drop_left' p.length_body
  have hindex : p.bytes.take 8 = leBytes 8 p.raftIndex.toNat := by
    rw [AppliedBatchProof.bytes, AppliedBatchProof.body]
    simp only [append_assoc]
    exact take_left' (length_leBytes 8 _)
  have hcount : (p.bytes.drop 8).take 4 = leBytes 4 p.reportCount.toNat := by
    rw [AppliedBatchProof.bytes, AppliedBatchProof.body]
    simp only [append_assoc]
    rw [drop_left' (length_leBytes 8 _)]
    exact take_left' (length_leBytes 4 _)
  have hfingerprint : (p.bytes.drop 16).take 8 = leBytes 8 p.reportFingerprint.toNat := by
    rw [AppliedBatchProof.bytes, AppliedBatchProof.body, append_assoc, drop_left' (by simp)]
    exact take_left' (length_leBytes 8 _)
  simp [next, hread, hbody, hsum, hindex, hcount, hfingerprint]

/-- **Proof records are framed.** -/
def AppliedProofs.framing : Framing IoError AppliedBatchProof where
  enc := AppliedBatchProof.bytes
  next := AppliedProofs.next
  Valid := fun _ => True
  next_nil := rfl
  next_enc := fun p rest _ => AppliedProofs.next_bytes p rest
  next_torn := fun p t _ ht hne => by
    have hlt : t.length < APPLIED_PROOF_RECORD_LEN :=
      p.length_bytes ▸ length_lt_of_isPrefix_ne ht hne
    rw [AppliedProofs.next, readExact_of_lt hlt]

/-! ### Loading whole records -/

namespace AppliedProofs

/-- The map holds exactly these proofs. -/
def Represents (proofs : ExtTreeMap UInt64 AppliedBatchProof) (ps : List AppliedBatchProof) :
    Prop :=
  ∀ i p, proofs[i]? = some p ↔ p ∈ ps ∧ p.raftIndex = i

/-- No index has two different proofs. -/
def Consistent (ps : List AppliedBatchProof) : Prop :=
  ∀ p ∈ ps, ∀ q ∈ ps, p.raftIndex = q.raftIndex → p = q

/-- A proof that agrees with those loaded before is added to them. -/
theorem Represents.insert {proofs : ExtTreeMap UInt64 AppliedBatchProof}
    {ps : List AppliedBatchProof} (h : Represents proofs ps) {p : AppliedBatchProof}
    (hp : Consistent (ps ++ [p])) :
    AppliedProofs.insert proofs p = .ok (proofs.insert p.raftIndex p) ∧
      Represents (proofs.insert p.raftIndex p) (ps ++ [p]) := by
  have hsame : ∀ q ∈ ps, q.raftIndex = p.raftIndex → q = p :=
    fun q hq => hp q (mem_append_left _ hq) p (mem_append_right _ mem_cons_self)
  constructor
  · unfold AppliedProofs.insert
    cases hprev : proofs[p.raftIndex]? with
    | none => rfl
    | some previous =>
      obtain ⟨hmem, hindex⟩ := (h _ _).mp hprev
      exact if_neg (not_not.mpr (hsame previous hmem hindex))
  · intro i q
    rw [ExtTreeMap.getElem?_insert]
    simp only [LawfulEqCmp.compare_eq_iff_eq, mem_append, mem_singleton]
    split
    · rename_i hi
      constructor
      · rintro ⟨⟩
        exact ⟨.inr rfl, hi⟩
      · rintro ⟨hq | rfl, hqi⟩
        · rw [hsame q hq (hqi.trans hi.symm)]
        · rfl
    · rename_i hi
      rw [h]
      constructor
      · rintro ⟨hq, hqi⟩
        exact ⟨.inl hq, hqi⟩
      · rintro ⟨hq | rfl, hqi⟩
        · exact ⟨hq, hqi⟩
        · exact absurd hqi hi

/-- Any number of proofs that agree are added. -/
theorem Represents.foldlM {proofs : ExtTreeMap UInt64 AppliedBatchProof}
    {ps qs : List AppliedBatchProof} (h : Represents proofs ps) (hqs : Consistent (ps ++ qs)) :
    ∃ proofs', qs.foldlM AppliedProofs.insert proofs = .ok proofs' ∧
      Represents proofs' (ps ++ qs) := by
  induction qs generalizing proofs ps with
  | nil => exact ⟨proofs, rfl, by rwa [append_nil]⟩
  | cons q qs ih =>
    have hsplit : ps ++ q :: qs = (ps ++ [q]) ++ qs := by simp
    rw [hsplit] at hqs ⊢
    obtain ⟨hins, hrep⟩ := h.insert fun p hp p' hp' =>
      hqs p (mem_append_left _ hp) p' (mem_append_left _ hp')
    obtain ⟨proofs', hfold, hrep'⟩ := ih hrep hqs
    exact ⟨proofs', by rw [foldlM_cons, hins]; exact hfold, hrep'⟩

/-- **A file of whole, agreeing records is loaded.** -/
theorem load_encode {ps : List AppliedBatchProof} (h : Consistent ps) :
    ∃ proofs, loadAppliedBatchProofs (.ok (APPLIED_PROOF_HEADER ++ framing.encode ps)) =
      .ok proofs ∧ Represents proofs ps := by
  have hempty : Represents ∅ [] := fun i p => by simp
  obtain ⟨proofs, hfold, hrep⟩ := @Represents.foldlM ∅ [] ps hempty h
  refine ⟨proofs, ?_, hrep⟩
  have hread := @readExact_append _ APPLIED_PROOF_HEADER rfl (framing.encode ps)
  have hscan := framing.foldRecords_encode AppliedProofs.insert
    (fun p (_ : p ∈ ps) => trivial) (.inl rfl)
    (framing.length_le_encode fun p (_ : p ∈ ps) => trivial) ∅
  rw [append_nil, hfold] at hscan
  simp only [loadAppliedBatchProofs, hread]
  exact congrArg (Except.map Prod.fst) hscan

end AppliedProofs

/-! ### Runs with crashes -/

/-- What can happen to the proof file: a proof is written and synced, or the process dies
while it writes one. It then dies before the file is opened, or leaves the first bytes of
the new contents; bytes that an earlier call has synced stay. -/
inductive ProofEvent where
  | mark (p : AppliedBatchProof)
  | torn (p : AppliedBatchProof) (kept : Option ℕ)

/-- The proof that an event is about. -/
def ProofEvent.proof : ProofEvent → AppliedBatchProof
  | .mark p => p
  | .torn p _ => p

/-- The proof file, and the proofs that are complete on disk: those whose call returned, and
those of interrupted calls whose bytes were all written. -/
structure ProofRun where
  file : Option (List UInt8)
  durable : List AppliedBatchProof

namespace ProofRun

/-- What a start finds at the place of the file. -/
def stored (s : ProofRun) : Stored := s.file.elim (.error .notFound) .ok

/-- One event. -/
def step (s : ProofRun) : ProofEvent → ProofRun
  | .mark p => { file := some (markAppliedBatch s.file p), durable := s.durable ++ [p] }
  | .torn _ none => s
  | .torn p (some kept) =>
    let written := markAppliedBatch s.file p
    { file := some (written.take (max kept (s.file.getD []).length))
      durable := if written.length ≤ kept then s.durable ++ [p] else s.durable }

/-- A run from the time before the file exists. -/
def run (events : List ProofEvent) : ProofRun :=
  events.foldl step { file := none, durable := [] }

/-- An event tears nothing: a crash leaves no file, or a header and whole records. -/
def Whole (s : ProofRun) : ProofEvent → Bool
  | .mark _ => true
  | .torn p kept => (s.step (.torn p kept)).file.all fun left =>
      left.length % APPLIED_PROOF_RECORD_LEN = APPLIED_PROOF_HEADER.length

/-- No event of a run tears a record. -/
def Clean (s : ProofRun) : List ProofEvent → Bool
  | [] => true
  | event :: events => s.Whole event && (s.step event).Clean events

/-- The invariant of a run that never tears a record. -/
def Aligned (s : ProofRun) : Prop :=
  s.file.getD APPLIED_PROOF_HEADER =
      APPLIED_PROOF_HEADER ++ AppliedProofs.framing.encode s.durable ∧
    (s.file = none → s.durable = [])

/-- One event without a torn record. -/
theorem Aligned.step {s : ProofRun} (h : s.Aligned) {event : ProofEvent}
    (hwhole : s.Whole event) : (s.step event).Aligned := by
  obtain ⟨hfile, hnone⟩ := h
  have hwritten : ∀ p, markAppliedBatch s.file p =
      APPLIED_PROOF_HEADER ++ AppliedProofs.framing.encode (s.durable ++ [p]) := by
    intro p
    simp [markAppliedBatch, hfile, AppliedProofs.framing, Framing.encode]
  have hlen : ∀ ps, (APPLIED_PROOF_HEADER ++ AppliedProofs.framing.encode ps).length =
      8 + 32 * ps.length := by
    intro ps
    rw [length_append, Framing.length_encode_of_fixed AppliedBatchProof.length_bytes]
    rfl
  match event with
  | .mark p => exact ⟨hwritten p, nofun⟩
  | .torn p none => exact ⟨hfile, hnone⟩
  | .torn p (some kept) =>
    have hmod :
        min (max kept (s.file.getD []).length) (8 + 32 * (s.durable.length + 1)) % 32 = 8 := by
      have hleft : (((s.step (.torn p (some kept))).file.getD []).length % 32 = 8) :=
        of_decide_eq_true hwhole
      rwa [ProofRun.step, getD_some, length_take, hwritten, hlen, length_append,
        length_singleton] at hleft
    refine ⟨?_, nofun⟩
    simp only [ProofRun.step, hwritten, hlen, length_append, length_singleton, getD_some]
    by_cases hall : 8 + 32 * (s.durable.length + 1) ≤ kept
    · rw [if_pos hall, take_of_length_le]
      rw [hlen, length_append, length_singleton]
      exact hall.trans (le_max_left _ _)
    · -- less than the new record is left of what the call wrote, so nothing of it is
      have hold : max kept (s.file.getD []).length = 8 + 32 * s.durable.length := by
        cases hf : s.file with
        | none =>
          rw [hf] at hmod
          rw [hnone hf] at hall hmod ⊢
          simp only [length_nil, getD_none] at hall hmod ⊢
          omega
        | some bs =>
          rw [hf] at hfile hmod
          simp only [getD_some] at hfile hmod ⊢
          rw [hfile, hlen] at hmod ⊢
          omega
      rw [if_neg hall, hold, AppliedProofs.framing.encode_append, ← append_assoc,
        take_left' (hlen s.durable)]

/-- Any number of events without a torn record. -/
theorem Aligned.foldl {s : ProofRun} (h : s.Aligned) {events : List ProofEvent}
    (hclean : s.Clean events) : (events.foldl ProofRun.step s).Aligned := by
  induction events generalizing s with
  | nil => exact h
  | cons event events ih =>
    rw [Clean, Bool.and_eq_true] at hclean
    exact ih (h.step hclean.1) hclean.2

/-- A proof on disk is one that an event wrote. -/
theorem durable_foldl_subset (s : ProofRun) (events : List ProofEvent) :
    (events.foldl step s).durable ⊆ s.durable ++ events.map ProofEvent.proof := by
  induction events generalizing s with
  | nil => simp
  | cons event events ih =>
    have hstep : (s.step event).durable ⊆ s.durable ++ [event.proof] := by
      match event with
      | .mark p => exact fun q hq => hq
      | .torn p none => exact subset_append_left _ _
      | .torn p (some kept) =>
        simp only [ProofRun.step]
        split
        · exact fun q hq => hq
        · exact subset_append_left _ _
    intro p hp
    have := ih (s.step event) hp
    rw [map_cons, append_cons]
    obtain hp | hp := mem_append.mp this
    · exact mem_append_left _ (hstep hp)
    · exact mem_append_right _ hp

/-- An aligned file whose proofs agree is loaded. -/
theorem Aligned.load {s : ProofRun} (h : s.Aligned) (hagree : AppliedProofs.Consistent s.durable) :
    ∃ proofs, loadAppliedBatchProofs s.stored = .ok proofs ∧
      AppliedProofs.Represents proofs s.durable := by
  obtain ⟨hfile, hnone⟩ := h
  rw [stored]
  cases hf : s.file with
  | none => exact ⟨∅, rfl, fun i p => by simp [hnone hf]⟩
  | some bs =>
    rw [hf, getD_some] at hfile
    rw [hfile]
    exact AppliedProofs.load_encode hagree

/-- **Proofs survive crashes that tear no record.** When every crash leaves no file or a
header with whole records, and all proofs written for one index are equal, loading succeeds
after the run with exactly the proofs that are complete on disk. -/
theorem load_run (events : List ProofEvent) (hclean : Clean { file := none, durable := [] } events)
    (hagree : AppliedProofs.Consistent (events.map ProofEvent.proof)) :
    ∃ proofs, loadAppliedBatchProofs (run events).stored = .ok proofs ∧
      AppliedProofs.Represents proofs (run events).durable := by
  have hstart : Aligned { file := none, durable := [] } := ⟨rfl, fun _ => rfl⟩
  have hsub := durable_foldl_subset { file := none, durable := [] } events
  exact (hstart.foldl hclean).load fun p hp q hq => hagree p (hsub hp) q (hsub hq)

/-- Batch 1 is marked, the proof of batch 2 is lost in a crash and marked again; that of batch 3
is complete when the process dies. -/
def remarked : List ProofEvent :=
  [.mark ⟨1, 3, 77⟩, .torn ⟨2, 0, 5⟩ (some 40), .mark ⟨2, 0, 5⟩, .torn ⟨3, 1, 6⟩ (some 200)]

theorem load_run_remark : (run remarked).durable = [⟨1, 3, 77⟩, ⟨2, 0, 5⟩, ⟨3, 1, 6⟩] ∧
    ∃ proofs, loadAppliedBatchProofs (run remarked).stored = .ok proofs ∧
      AppliedProofs.Represents proofs (run remarked).durable :=
  ⟨by decide +kernel, load_run remarked (by decide +kernel)
    (by simp [remarked, AppliedProofs.Consistent, ProofEvent.proof])⟩

/-- **A torn proof file is refused.** A crash within the header leaves a file that cannot be
loaded. A crash one byte into a record is passed over at first, but the proof marked after
it is laid behind that byte, and no later start can load the file. -/
theorem load_run_torn :
    (loadAppliedBatchProofs (run [.torn ⟨1, 3, 77⟩ (some 3)]).stored).map (fun _ => ()) =
      .error .unexpectedEof ∧
    (loadAppliedBatchProofs (run [.mark ⟨1, 3, 77⟩, .torn ⟨2, 0, 5⟩ (some 41),
        .mark ⟨2, 0, 5⟩]).stored).map (fun _ => ()) =
      .error (.invalidData "applied Raft proof checksum mismatch") := by
  decide +kernel

end ProofRun
end TradeCore
