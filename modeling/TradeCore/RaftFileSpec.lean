import TradeCore.RaftFile
import TradeCore.Lib.Consecutive

/-!
# Recovery of the Raft File

What a scan of the Raft file amounts to: each record is **absorbed** in order, an entry at
index `k` replacing the log from `k` on. A log that Raft writes never leaves a gap, never
overwrites a committed entry and never commits beyond its end, and for such logs the checks
of the scan never strike.

## Main results

* `Recovered.foldlM_apply` — on admissible records the scan is the fold of `absorb`.
* `DurableRaftLog.open_encode` — opening a file of whole records with a torn rest.
* `DurableRaftLog.open_torn` — recovery from any byte prefix of the file, stable under
  further appends and cuts.
-/

open List Option

namespace TradeCore

/-! ### The meaning of a record -/

namespace Recovered

variable {rs : List RaftRecord} {s : Recovered}

/-- The effect of a record: an entry replaces the log from its own index on, a hard state
the last one, and a snapshot covers the log up to its index. -/
def absorb (s : Recovered) : RaftRecord → Recovered
  | .hardState hs => { s with hardState := hs }
  | .entry e => { s with entries := s.entries.filter (·.index < e.index) ++ [e] }
  | .snapshot sn =>
    { s with
      entries := s.entries.filter (sn.metadata.index < ·.index)
      snapshot := some sn }

/-- A recovered state without contradictions: the log continues the snapshot without a gap,
and the commit index lies between the snapshot and the end of the log. -/
structure WellFormed (s : Recovered) : Prop where
  consecutive : Consecutive Entry.index (s.snapshotIndex + 1) s.entries
  snapshot_le : s.snapshotIndex ≤ s.hardState.commit
  commit_le : s.hardState.commit ≤ s.durableLast

/-- What Raft promises of the next record: an entry is not committed yet and leaves no gap,
and a hard state commits nothing beyond the log. -/
def Admits (s : Recovered) : RaftRecord → Prop
  | .hardState hs => s.snapshotIndex ≤ hs.commit ∧ hs.commit ≤ s.durableLast
  | .entry e => s.hardState.commit < e.index ∧ e.index ≤ s.durableLast + 1
  | .snapshot _ => False

/-- The promise for several records, each after the ones before it. -/
def AdmitsAll : Recovered → List RaftRecord → Prop
  | _, [] => True
  | s, r :: rs => s.Admits r ∧ (s.absorb r).AdmitsAll rs

instance decidableAdmits (s : Recovered) : (r : RaftRecord) → Decidable (s.Admits r)
  | .hardState _ => inferInstanceAs (Decidable (_ ∧ _))
  | .entry _ => inferInstanceAs (Decidable (_ ∧ _))
  | .snapshot _ => inferInstanceAs (Decidable False)

instance decidableAdmitsAll : (s : Recovered) → (rs : List RaftRecord) → Decidable (s.AdmitsAll rs)
  | _, [] => inferInstanceAs (Decidable True)
  | s, r :: rs =>
    have := decidableAdmitsAll (s.absorb r) rs
    inferInstanceAs (Decidable (_ ∧ _))

theorem admitsAll_append {rs' : List RaftRecord} :
    s.AdmitsAll (rs ++ rs') ↔ s.AdmitsAll rs ∧ (rs.foldl absorb s).AdmitsAll rs' := by
  induction rs generalizing s with
  | nil => simp [AdmitsAll]
  | cons r rs ih => simp [AdmitsAll, ih, and_assoc]

/-- The promise is kept by the first of the records as well. -/
theorem AdmitsAll.of_isPrefix {rs' : List RaftRecord} (h : s.AdmitsAll rs') (hpre : rs <+: rs') :
    s.AdmitsAll rs := by
  obtain ⟨rest, rfl⟩ := hpre
  exact (admitsAll_append.mp h).1

section

variable (h : Consecutive Entry.index (s.snapshotIndex + 1) s.entries)
include h

/-- The end of a log without gaps. -/
theorem durableLast_eq : s.durableLast = s.snapshotIndex + s.entries.length := by
  have hlast := h.getLast?_eq
  unfold durableLast
  cases hl : s.entries.getLast? with
  | none => simp [getLast?_eq_none_iff.mp hl]
  | some e =>
    have hne : s.entries ≠ [] := fun h0 => by simp [h0] at hl
    rw [hl, if_neg hne, map_some, some.injEq] at hlast
    simp only [elim_some, hlast]
    omega

/-- Nothing is lost and nothing is refused at the end of the scan. -/
theorem finish_eq (hcommit : s.hardState.commit ≤ s.durableLast) : s.finish = .ok s := by
  have hkeep : (s.snapshot.elim s.entries fun sn =>
      s.entries.filter (sn.metadata.index < ·.index)) = s.entries := by
    cases hs : s.snapshot with
    | none => rfl
    | some sn =>
      rw [elim_some, filter_eq_self]
      intro e he
      have := (h.bounds he).1
      simp only [snapshotIndex, hs, elim_some] at this
      exact decide_eq_true (by omega)
  unfold Recovered.finish
  rw [hkeep]
  exact if_neg (not_lt.mpr hcommit)

/-- **An entry that leaves no gap is accepted**, and ends the log. -/
theorem apply_entry {e : Entry} (hlow : s.snapshotIndex < e.index)
    (hgap : e.index ≤ s.durableLast + 1) :
    s.apply (.entry e) = .ok (s.absorb (.entry e)) ∧
      Consecutive Entry.index (s.snapshotIndex + 1) (s.absorb (.entry e)).entries ∧
      (s.absorb (.entry e)).durableLast = e.index := by
  have hlast := durableLast_eq h
  set n := e.index - (s.snapshotIndex + 1) with hn
  have hfilter : s.entries.filter (·.index < e.index) = s.entries.take n := h.filter_lt e.index
  have hlen : (s.entries.take n).length = n := length_take_of_le (by omega)
  have hcons : Consecutive Entry.index (s.snapshotIndex + 1) (s.entries.take n ++ [e]) := by
    rw [Consecutive.append_iff, hlen]
    exact ⟨h.take n, Consecutive.cons_iff.mpr ⟨by omega, Consecutive.nil⟩⟩
  refine ⟨?_, by simp only [absorb, hfilter]; exact hcons, by simp [absorb, durableLast]⟩
  have hnz : e.index ≠ 0 := by omega
  have hwhile := h.takeWhile_lt e.index
  rw [← hn] at hwhile
  have hprev := (h.take n).getLast?_eq
  simp only [apply, appendEntry, if_neg hnz, hwhile, absorb, hfilter]
  cases hp : (s.entries.take n).getLast? with
  | none => rfl
  | some previous =>
    have hne : s.entries.take n ≠ [] := fun h0 => by simp [h0] at hp
    rw [hp, if_neg hne, hlen, map_some, some.injEq] at hprev
    have hpos : 0 < n := by
      rw [← hlen]
      exact length_pos_iff.mpr hne
    have hfollow : e.index = previous.index + 1 := by omega
    simp [hfollow, bind, Except.bind, pure, Except.pure]

end

/-- **An admissible record is accepted.** -/
theorem WellFormed.apply (h : s.WellFormed) {r : RaftRecord} (hr : s.Admits r) :
    s.apply r = .ok (s.absorb r) ∧ (s.absorb r).WellFormed := by
  cases r with
  | hardState hs => exact ⟨rfl, h.consecutive, hr.1, hr.2⟩
  | entry e =>
    obtain ⟨happ, hcons, hlast⟩ := apply_entry h.consecutive (h.snapshot_le.trans_lt hr.1) hr.2
    exact ⟨happ, hcons, h.snapshot_le, hlast ▸ hr.1.le⟩
  | snapshot sn => exact hr.elim

/-- **On admissible records the scan is the fold of their effects.** -/
theorem foldlM_apply (h : s.WellFormed) (hrs : s.AdmitsAll rs) :
    rs.foldlM Recovered.apply s = .ok (rs.foldl absorb s) ∧ (rs.foldl absorb s).WellFormed := by
  induction rs generalizing s with
  | nil => exact ⟨rfl, h⟩
  | cons r rs ih =>
    obtain ⟨happ, hwf⟩ := h.apply hrs.1
    obtain ⟨hfold, hwf'⟩ := ih hwf hrs.2
    exact ⟨by rw [foldlM_cons, happ]; exact hfold, hwf'⟩

theorem wellFormed_empty : WellFormed {} :=
  ⟨Consecutive.nil, le_rfl, le_rfl⟩

end Recovered

/-! ### Opening a file of records -/

namespace DurableRaftLog

open RaftRecord

variable {rs : List RaftRecord}

variable (pb : Protobuf)

/-- A file that holds some records. -/
def fileOf (rs : List RaftRecord) : List UInt8 := STORAGE_HEADER ++ (framing pb).encode rs

/-- Opening a file that has its header scans what follows. -/
theorem open_header (body : List UInt8) :
    DurableRaftLog.open pb (STORAGE_HEADER ++ body) =
      (foldRecords (framing pb).next Recovered.apply body.length {} body).bind fun res =>
        res.1.finish.map fun s =>
          ((STORAGE_HEADER ++ body).take ((STORAGE_HEADER ++ body).length - res.2.length), s) := by
  have hlong : ¬ (STORAGE_HEADER ++ body).length < STORAGE_HEADER.length := by simp
  have hread := @readExact_append _ STORAGE_HEADER rfl body
  rw [DurableRaftLog.open, if_neg hlong, scan, hread]
  refine (if_neg (not_not.mpr rfl)).trans ?_
  have hnext : RaftRecord.next pb = (framing pb).next := rfl
  rw [hnext]
  cases foldRecords (framing pb).next Recovered.apply body.length {} body with
  | error e => rfl
  | ok res =>
    simp only [bind, Except.bind]
    cases res.1.finish <;> rfl

/-- **Opening a file of records with a torn rest** folds the records and cuts off the rest. -/
theorem open_encode (h : ∀ r ∈ rs, (framing pb).Valid r) {t : List UInt8}
    (ht : (framing pb).Torn t) :
    DurableRaftLog.open pb (fileOf pb rs ++ t) =
      (rs.foldlM Recovered.apply {}).bind fun s => s.finish.map fun s => (fileOf pb rs, s) := by
  have hfuel : rs.length ≤ ((framing pb).encode rs ++ t).length := by
    have := (framing pb).length_le_encode h
    rw [length_append]
    omega
  have hcut : (fileOf pb rs ++ t).take ((fileOf pb rs ++ t).length - t.length) = fileOf pb rs :=
    take_left' (by simp)
  have hfile : fileOf pb rs ++ t = STORAGE_HEADER ++ ((framing pb).encode rs ++ t) :=
    append_assoc _ _ _
  rw [hfile] at hcut ⊢
  rw [open_header, (framing pb).foldRecords_encode Recovered.apply h ht hfuel {}]
  cases rs.foldlM Recovered.apply {} with
  | error e => rfl
  | ok s => simp only [Except.map, Except.bind, hcut]

/-- Any start of a file of records is opened as the file of its complete records. -/
theorem open_take (h : ∀ r ∈ rs, (framing pb).Valid r) (hraft : Recovered.AdmitsAll {} rs) (n : ℕ) :
    let complete := (framing pb).complete rs (n - STORAGE_HEADER.length)
    DurableRaftLog.open pb ((fileOf pb rs).take n) =
        .ok (fileOf pb complete, complete.foldl Recovered.absorb {}) ∧
      (complete.foldl Recovered.absorb {}).WellFormed := by
  intro complete
  have hpre : complete <+: rs := (framing pb).complete_isPrefix rs _
  have hvalid : ∀ r ∈ complete, (framing pb).Valid r := fun r hr => h r (hpre.subset hr)
  obtain ⟨hfold, hwf⟩ :=
    Recovered.foldlM_apply Recovered.wellFormed_empty (hraft.of_isPrefix hpre)
  refine ⟨?_, hwf⟩
  have hopen : ∀ t, (framing pb).Torn t → DurableRaftLog.open pb (fileOf pb complete ++ t) =
      .ok (fileOf pb complete, complete.foldl Recovered.absorb {}) := by
    intro t ht
    rw [open_encode pb hvalid ht, hfold]
    simp only [Except.bind, Recovered.finish_eq hwf.consecutive hwf.commit_le]
    rfl
  by_cases hn : n < STORAGE_HEADER.length
  · -- a torn header: the file is started afresh, and no record is complete
    have hnone : complete = [] := by
      have h0 : n - STORAGE_HEADER.length = 0 := by omega
      cases rs with
      | nil => exact prefix_nil.mp hpre
      | cons r rs =>
        have hpos : 0 < ((framing pb).enc r).length :=
          length_pos_iff.mpr ((framing pb).enc_ne_nil (h r mem_cons_self))
        simp only [complete, h0, Framing.complete]
        exact if_neg (by omega)
    have hshort : ((fileOf pb rs).take n).length < STORAGE_HEADER.length := by
      rw [length_take]
      omega
    have hfresh : DurableRaftLog.open pb ((fileOf pb rs).take n) =
        DurableRaftLog.open pb STORAGE_HEADER := by
      rw [DurableRaftLog.open, if_pos hshort]
      rfl
    rw [hfresh]
    have := hopen [] (.inl rfl)
    rw [hnone] at this ⊢
    simpa [fileOf] using this
  · obtain ⟨t, ht, heq⟩ := (framing pb).take_encode h (n - STORAGE_HEADER.length)
    have htake : (fileOf pb rs).take n = fileOf pb complete ++ t := by
      rw [fileOf, take_append, take_of_length_le (by omega), heq, fileOf, append_assoc]
    rw [htake]
    exact hopen t ht

/-! ### Persisted batches -/

/-- One call of `persist`. -/
structure PersistCall where
  entries : List Entry
  hardState : Option HardState

/-- The records of some calls: for each call its entries in order, then its hard state. -/
def records : List PersistCall → List RaftRecord
  | [] => []
  | ⟨entries, none⟩ :: calls => entries.map .entry ++ records calls
  | ⟨entries, some hs⟩ :: calls => entries.map .entry ++ .hardState hs :: records calls

/-- Several calls of `persist`. -/
def persistAll (file : List UInt8) (calls : List PersistCall) : Except IoError (List UInt8) :=
  calls.foldlM (fun file call => persist pb file call.entries call.hardState) file

/-- A payload within the limit can be written. -/
theorem lt_of_valid {r : RaftRecord} (h : (framing pb).Valid r) : (r.payload pb).length < 2 ^ 32 :=
  (h : (r.payload pb).length ≤ MAX_PAYLOAD).trans_lt (by decide)

/-- Writing records appends their bytes. -/
theorem foldlM_write (h : ∀ r ∈ rs, (r.payload pb).length < 2 ^ 32) (file : List UInt8) :
    rs.foldlM (RaftRecord.write pb) file = .ok (file ++ (framing pb).encode rs) := by
  induction rs generalizing file with
  | nil => simp [pure, Except.pure]
  | cons r rs ih =>
    rw [foldlM_cons, RaftRecord.write, if_pos (h r mem_cons_self)]
    have := ih (fun r hr => h r (mem_cons_of_mem _ hr)) (file ++ r.bytes pb)
    rw [append_assoc] at this
    exact this

theorem persistAll_eq {calls : List PersistCall}
    (h : ∀ r ∈ records calls, (framing pb).Valid r) (rs : List RaftRecord) :
    persistAll pb (fileOf pb rs) calls = .ok (fileOf pb (rs ++ records calls)) := by
  induction calls generalizing rs with
  | nil => simp [persistAll, records, pure, Except.pure]
  | cons call calls ih =>
    have hsplit : records (call :: calls) =
        persisted call.entries call.hardState ++ records calls := by
      obtain ⟨entries, _ | hs⟩ := call <;> simp [records, persisted]
    rw [hsplit] at h ⊢
    have hfirst := foldlM_write pb
      (fun r hr => lt_of_valid pb (h r (mem_append_left _ hr))) (fileOf pb rs)
    have hfile : fileOf pb rs ++ (framing pb).encode (persisted call.entries call.hardState) =
        fileOf pb (rs ++ persisted call.entries call.hardState) := by
      simp [fileOf]
    rw [hfile] at hfirst
    rw [persistAll, foldlM_cons, persist, hfirst, ← append_assoc]
    exact ih (fun r hr => h r (mem_append_right _ hr)) _

/-- **Recovery from any torn tail.** Take any calls of `persist` on an empty file, with
records within the limit and admissible to Raft. Opening any byte prefix of the file
succeeds, cuts the file back to its complete records (a fresh header when there are none),
and returns the fold of these records, which is a log without gaps that holds the committed
part. Further calls and cuts behave as if the torn bytes had never existed. -/
theorem open_torn (calls : List PersistCall)
    (hsize : ∀ r ∈ records calls, (r.payload pb).length ≤ MAX_PAYLOAD)
    (hraft : Recovered.AdmitsAll {} (records calls)) :
    ∃ file, persistAll pb STORAGE_HEADER calls = .ok file ∧ ∀ n,
      let complete := (framing pb).complete (records calls) (n - STORAGE_HEADER.length)
      let s := complete.foldl Recovered.absorb {}
      DurableRaftLog.open pb (file.take n) = .ok (fileOf pb complete, s) ∧ s.WellFormed ∧
      ∀ more : List PersistCall, (∀ r ∈ records more, (r.payload pb).length ≤ MAX_PAYLOAD) →
        s.AdmitsAll (records more) →
        ∃ file', persistAll pb (fileOf pb complete) more = .ok file' ∧ ∀ m,
          let complete' :=
            (framing pb).complete (complete ++ records more) (m - STORAGE_HEADER.length)
          DurableRaftLog.open pb (file'.take m) =
            .ok (fileOf pb complete', complete'.foldl Recovered.absorb {}) := by
  have hfile := persistAll_eq pb hsize []
  rw [nil_append, fileOf, Framing.encode_nil, append_nil] at hfile
  refine ⟨_, hfile, fun n => ?_⟩
  intro complete s
  have hpre : complete <+: records calls := (framing pb).complete_isPrefix _ _
  obtain ⟨hopen, hwf⟩ := open_take pb hsize hraft n
  refine ⟨hopen, hwf, fun more hmore hdedupe => ⟨_, persistAll_eq pb hmore complete, fun m => ?_⟩⟩
  have hall : Recovered.AdmitsAll {} (complete ++ records more) :=
    Recovered.admitsAll_append.mpr ⟨hraft.of_isPrefix hpre, hdedupe⟩
  have hvalid : ∀ r ∈ complete ++ records more, (framing pb).Valid r := by
    intro r hr
    obtain hr | hr := mem_append.mp hr
    · exact hsize r (hpre.subset hr)
    · exact hmore r hr
  exact (open_take pb hvalid hall m).1

/-- Two calls, the second of which overwrites an entry of the first. -/
theorem open_torn_overwrite :
    let calls : List PersistCall :=
      [{ entries := [⟨1, 1, .normal, [7]⟩, ⟨2, 1, .normal, [8]⟩],
         hardState := some { term := 1, vote := 1, commit := 1 } },
       { entries := [⟨2, 2, .normal, [9]⟩], hardState := none }]
    ∃ file, persistAll .fields STORAGE_HEADER calls = .ok file ∧ ∀ n,
      let complete := (framing .fields).complete (records calls) (n - STORAGE_HEADER.length)
      let s := complete.foldl Recovered.absorb {}
      DurableRaftLog.open .fields (file.take n) = .ok (fileOf .fields complete, s) ∧
      s.WellFormed ∧
      ∀ more : List PersistCall,
        (∀ r ∈ records more, (r.payload .fields).length ≤ MAX_PAYLOAD) →
        s.AdmitsAll (records more) →
        ∃ file', persistAll .fields (fileOf .fields complete) more = .ok file' ∧ ∀ m,
          let complete' :=
            (framing .fields).complete (complete ++ records more) (m - STORAGE_HEADER.length)
          DurableRaftLog.open .fields (file'.take m) =
            .ok (fileOf .fields complete', complete'.foldl Recovered.absorb {}) :=
  open_torn .fields _ (by decide) (by decide)

end DurableRaftLog
end TradeCore
