import TradeCore.Publisher

/-!
# The Shared Publish Cursor

Every replica of a group keeps its own outbox, and the leader publishes from its own. So that
the others can drop what has been published, a leader writes **checkpoints** to a topic: the
name of a segment file and a byte offset in it. Every replica reads the topic and moves the
cursor of its file of the same name to the offset (`raft_node.rs`).

An offset counts the records of the leader's file. It means the same in the file of another
replica if the two files begin with the same records. Replicas append the same records for an
index, so this is so if they begin new segments after the same entries and none of them misses
an index. A replica rotates by size, after the proof of an entry; one that stops between the
proof and the rotation goes on in the full segment. A replica that installs a snapshot misses
the indices the snapshot covers.

A `Cluster` holds the replicas, the topic and what the broker has been given. Its actions are
those of the replicas, in any order; rotations and restarts are actions of their own. A stop
before the proof of an entry is one before the entry, since the start trims its records.

## Main results

* `Cluster.acknowledged_published` — with the same rotation points everywhere and no records
  skipped by snapshots, every record below a cursor and in every removed segment is published.
* `Cluster.snapshot_hides_records`, `Cluster.lost_rotation_hides_records` — a snapshot that skips
  records, a stop before a rotation, and acknowledged records that no one has published.
-/

open List Option

namespace TradeCore

/-! ### Replicas -/

/-- The outbox records of a committed entry. -/
def entryRecords (raftGroup : UInt32) (raftIndex : ℕ) (reports : List ReportFrame) :
    List OutboxRecord :=
  reports.mapIdx fun ordinal frame =>
    ⟨raftGroup, UInt64.ofNat raftIndex, UInt32.ofNat (min ordinal (2 ^ 32 - 1)), frame⟩

/-- The settings of a replica. -/
structure ReplicaConfig where
  /-- The size of a segment. -/
  rotateBytes : Option ℕ
  /-- The configured batch size of the publisher. -/
  publishBatch : Option ℕ
  /-- The configured number of batches from one checkpoint to the next. -/
  checkpointEvery : Option ℕ

/-- Batches from one checkpoint to the next. -/
def ReplicaConfig.checkpointEveryBatches (cfg : ReplicaConfig) : ℕ :=
  max 1 (cfg.checkpointEvery.getD 16)

/-- A replica: its outbox and the memory of its publisher. A group has one shard, so that a
segment file is named by its number. -/
structure Replica where
  /-- The last entry that is applied, with its records and its proof. -/
  applied : ℕ
  /-- The outbox has not been asked to rotate since then. -/
  unrotated : Bool
  outbox : ShardOutbox
  leader : Bool
  /-- Messages of the topic that are read. -/
  polled : ℕ
  sharedOffsets : ℕ → Option ℕ
  pendingCheckpoints : ℕ → Option ℕ
  batchesSinceCheckpoint : ℕ → ℕ
  /-- The records of the segments that were removed. -/
  collected : List OutboxRecord

namespace Replica

/-- A replica without data. -/
def fresh (cfg : ReplicaConfig) : Replica where
  applied := 0
  unrotated := false
  outbox := ShardOutbox.fresh 0 cfg.rotateBytes
  leader := false
  polled := 0
  sharedOffsets := fun _ => none
  pendingCheckpoints := fun _ => none
  batchesSinceCheckpoint := fun _ => 0
  collected := []

/-- Apply the next entry: its records reach the outbox, then its proof is written. The shard is
busy until it has rotated. -/
def apply (r : Replica) (records : List OutboxRecord) : Replica :=
  if r.unrotated then r
  else
    { r with
      applied := r.applied + 1
      unrotated := true
      outbox := (records.foldl ShardOutbox.appendDeferred r.outbox).flushToOs }

/-- Rotate after an entry, whether or not it had records. -/
def rotate (r : Replica) : Replica :=
  if r.unrotated then
    { r with
      unrotated := false
      outbox := r.outbox.maybeRotate
      collected := r.collected ++ r.outbox.collects.flatMap fun e => e.2.records }
  else r

/-- Stop and start again. Every record belongs to an applied entry with a proof, so that the
start leaves the files as they are; a rotation that was due is not made up for. -/
def restart (r : Replica) : Replica :=
  { r with
    unrotated := false
    outbox := r.outbox.reopen
    leader := false
    polled := 0
    sharedOffsets := fun _ => none
    pendingCheckpoints := fun _ => none
    batchesSinceCheckpoint := fun _ => 0 }

/-- Install a snapshot and restart from it. -/
def install (r : Replica) (index : ℕ) : Replica :=
  { r.restart with applied := max r.applied index }

/-- Learn an offset from the topic. -/
def learn (r : Replica) (seq offset : ℕ) : Replica :=
  { r with
    polled := r.polled + 1
    sharedOffsets := Function.update r.sharedOffsets seq
      (some (max ((r.sharedOffsets seq).getD 0) offset)) }

/-- Move the cursor of a segment to the offset that is known for its name. -/
def follow (r : Replica) (seq : ℕ) : Replica :=
  match r.sharedOffsets seq with
  | none => r
  | some offset =>
    { r with
      outbox := r.outbox.mapSegment seq fun f => (f.acknowledgeTo offset).toOption.getD f }

/-- Send a batch of a segment, of which the broker takes some records: those, and the replica
afterwards. -/
def publish (cfg : ReplicaConfig) (r : Replica) (seq : ℕ) (taken : OutboxRecord → Bool) :
    List OutboxRecord × Replica :=
  match r.outbox.segments.lookup seq with
  | none => ([], r)
  | some f =>
    let records := f.readBatch (publishBatchSize cfg.publishBatch)
    if r.leader = false ∨ records = [] then ([], r)
    else if records.all taken then
      let nextOffset := f.offset + records.length * OUTBOX_RECORD_LEN
      let count := r.batchesSinceCheckpoint seq + 1
      let due := cfg.checkpointEveryBatches ≤ count ∨ f.pendingRecords ≤ records.length
      (records, { r with
        pendingCheckpoints :=
          if due then Function.update r.pendingCheckpoints seq (some nextOffset)
          else r.pendingCheckpoints
        batchesSinceCheckpoint :=
          Function.update r.batchesSinceCheckpoint seq (if due then 0 else count)
        outbox := r.outbox.mapSegment seq fun f =>
          (f.acknowledge records.length).toOption.getD f })
    else (records.filter taken, r)

end Replica

/-! ### Groups of replicas -/

/-- What the replicas of a group do. -/
inductive ClusterAction (ι : Type)
  /-- A replica applies the next committed entry. -/
  | apply (replica : ι)
  /-- A replica rotates its outbox if it is time. -/
  | rotate (replica : ι)
  /-- A replica stops and starts again. -/
  | restart (replica : ι)
  /-- A replica installs a snapshot of the state after an entry. -/
  | install (replica : ι) (index : ℕ)
  /-- A replica becomes leader, or stops being it. -/
  | lead (replica : ι) (leader : Bool)
  /-- A replica sends a batch of a segment, of which the broker takes some records. -/
  | publish (replica : ι) (seq : ℕ) (taken : OutboxRecord → Bool)
  /-- A replica writes a checkpoint; it may not learn that it was written. -/
  | checkpoint (replica : ι) (seq : ℕ) (confirmed : Bool)
  /-- A replica reads the next checkpoint. -/
  | poll (replica : ι)
  /-- A replica moves a cursor to the offset it knows. -/
  | follow (replica : ι) (seq : ℕ)

/-- The replicas of a group, the topic of the checkpoints (segment number and offset), and the
records that the broker has taken. -/
structure Cluster (ι : Type) where
  replica : ι → Replica
  topic : List (ℕ × ℕ)
  published : List OutboxRecord

namespace Cluster

variable {ι : Type} [DecidableEq ι]

/-- The execution of a record has been published. -/
def Published (c : Cluster ι) (r : OutboxRecord) : Prop :=
  ∃ r' ∈ c.published, r'.raftIndex = r.raftIndex ∧ r'.ordinal = r.ordinal

/-- A group without data. -/
def fresh (cfg : ι → ReplicaConfig) : Cluster ι where
  replica := fun i => Replica.fresh (cfg i)
  topic := []
  published := []

/-- Change a replica. -/
def set (c : Cluster ι) (i : ι) (r : Replica) : Cluster ι :=
  { c with replica := Function.update c.replica i r }

section Step

variable (cfg : ι → ReplicaConfig) (raftGroup : UInt32) (reports : ℕ → List ReportFrame)

/-- One action, where the committed entry at an index makes the given reports. -/
def step (c : Cluster ι) : ClusterAction ι → Cluster ι
  | .apply i =>
    c.set i ((c.replica i).apply (entryRecords raftGroup ((c.replica i).applied + 1)
      (reports ((c.replica i).applied + 1))))
  | .rotate i => c.set i (c.replica i).rotate
  | .restart i => c.set i (c.replica i).restart
  | .install i index => c.set i ((c.replica i).install index)
  | .lead i leader => c.set i { c.replica i with leader := leader }
  | .publish i seq taken =>
    let (records, r) := (c.replica i).publish (cfg i) seq taken
    { c.set i r with published := c.published ++ records }
  | .checkpoint i seq confirmed =>
    match (c.replica i).pendingCheckpoints seq with
    | none => c
    | some offset =>
      let r := c.replica i
      let r := if confirmed then
          { r with
            pendingCheckpoints := Function.update r.pendingCheckpoints seq none
            sharedOffsets := Function.update r.sharedOffsets seq (some offset) }
        else r
      { c.set i r with topic := c.topic ++ [(seq, offset)] }
  | .poll i =>
    match c.topic[(c.replica i).polled]? with
    | none => c
    | some (seq, offset) => c.set i ((c.replica i).learn seq offset)
  | .follow i seq => c.set i ((c.replica i).follow seq)

/-- Every acknowledged record of a replica, and every record in a segment it has removed,
describes an execution that has been published. -/
def Safe (c : Cluster ι) : Prop :=
  ∀ i, (∀ e ∈ (c.replica i).outbox.segments, ∀ r ∈ e.2.acknowledged, c.Published r) ∧
    ∀ r ∈ (c.replica i).collected, c.Published r

/-- The replicas begin new segments after the same entries, the rotation points: no rotation
falls elsewhere, none is lost in a restart, and a snapshot skips none and no reports. -/
def InStep (points : ℕ → Bool) (c : Cluster ι) : ClusterAction ι → Prop
  | .rotate i =>
    (c.replica i).unrotated → (c.replica i).outbox.isFull = points (c.replica i).applied
  | .restart i => (c.replica i).unrotated → points (c.replica i).applied = false
  | .install i index =>
    ((c.replica i).unrotated → points (c.replica i).applied = false) ∧
    ∀ entry, (c.replica i).applied < entry → entry ≤ index →
      reports entry = [] ∧ points entry = false
  | _ => True

/-- The states of a group that starts without data, where every action meets a condition. -/
inductive Reachable (ok : Cluster ι → ClusterAction ι → Prop) : Cluster ι → Prop
  | fresh : Reachable ok (fresh cfg)
  | step {c : Cluster ι} (h : Reachable ok c) (a : ClusterAction ι) (hok : ok c a) :
      Reachable ok (c.step cfg raftGroup reports a)

end Step

end Cluster

/-! ### Where records stand -/

section Places

variable (points : ℕ → Bool) (records : ℕ → List OutboxRecord)

/-- The number of the newest segment after the first entries. -/
def place : ℕ → ℕ
  | 0 => 0
  | n + 1 => if points (n + 1) then place n + 1 else place n

/-- The records of the first entries that stand in a segment. -/
def contents (applied seq : ℕ) : List OutboxRecord :=
  (List.range applied).flatMap fun n => if place points n = seq then records (n + 1) else []

variable {points records}

theorem place_le {m n : ℕ} (h : m ≤ n) : place points m ≤ place points n := by
  induction h with
  | refl => exact le_rfl
  | step _ ih =>
    rw [place]
    split
    · exact Nat.le_succ_of_le ih
    · exact ih

theorem contents_succ (applied seq : ℕ) : contents points records (applied + 1) seq =
    contents points records applied seq ++
      if place points applied = seq then records (applied + 1) else [] := by
  rw [contents, range_succ, flatMap_append]
  simp [contents]

/-- A segment that has not been begun has no records. -/
theorem contents_eq_nil {applied seq : ℕ} (h : ∀ n < applied, place points n < seq) :
    contents points records applied seq = [] := by
  refine flatMap_eq_nil_iff.mpr fun n hn => ?_
  exact if_neg (h n (mem_range.mp hn)).ne

/-- Segments grow at their end. -/
theorem contents_isPrefix {m n : ℕ} (h : m ≤ n) (seq : ℕ) :
    contents points records m seq <+: contents points records n seq := by
  induction h with
  | refl => exact prefix_rfl
  | step _ ih =>
    rw [contents_succ]
    exact ih.trans (prefix_append _ _)

/-- The first records of a segment are the same in all replicas that have as many. -/
theorem mem_take_contents {m n seq k : ℕ} (hk : k ≤ (contents limit records n seq).length)
    {r : OutboxRecord} (hr : r ∈ (contents limit records m seq).take k) :
    r ∈ (contents limit records n seq).take k := by
  rcases le_total m n with hle | hle
  · exact ((contents_isPrefix hle seq).take k).subset hr
  · obtain ⟨t, ht⟩ := contents_isPrefix hle seq
    rwa [← ht, take_append_of_le_length hk] at hr

/-- Entries without records and rotations. -/
theorem place_contents_of_nil {m n : ℕ} (hle : m ≤ n)
    (h : ∀ entry, m < entry → entry ≤ n → records entry = [] ∧ points entry = false) :
    place points n = place points m ∧
      ∀ seq, contents points records n seq = contents points records m seq := by
  induction hle with
  | refl => exact ⟨rfl, fun _ => rfl⟩
  | step hle ih =>
    rename_i n
    obtain ⟨hplace, hcontents⟩ := ih fun entry hlt hle => h entry hlt (Nat.le_succ_of_le hle)
    obtain ⟨hnil, hpoint⟩ := h (n + 1) (Nat.lt_succ_of_le hle) le_rfl
    refine ⟨?_, fun seq => ?_⟩
    · rw [place, hpoint, if_neg Bool.false_ne_true, hplace]
    · rw [contents_succ, hnil, ite_self, append_nil, hcontents]

end Places

/-! ### Aligned replicas -/

section Aligned

variable (points : ℕ → Bool) (records : ℕ → List OutboxRecord)

/-- The first records of a segment are published, in whichever replica. -/
def Covered (published : List OutboxRecord) (seq k : ℕ) : Prop :=
  ∀ applied, ∀ r ∈ (contents points records applied seq).take k, r ∈ published

/-- An offset has published records only before it. -/
def CoveredTo (published : List OutboxRecord) (seq offset : ℕ) : Prop :=
  ∀ k, offset = OUTBOX_HEADER.length + OUTBOX_RECORD_LEN * k →
    Covered points records published seq k

/-- A segment file with the records that its number calls for. -/
def SegmentAligned (published : List OutboxRecord) (applied : ℕ) (e : ℕ × SegmentFile) : Prop :=
  ∃ k, e.2.Holds (contents points records applied e.1) [] k ∧ Covered points records published e.1 k

/-- An outbox whose records stand where the applied entries call for, with published records
before its cursors. -/
structure ShardOutbox.Aligned (published : List OutboxRecord) (applied : ℕ) (o : ShardOutbox) :
    Prop where
  buffer : o.buffer = []
  next : o.nextSegmentSeq = o.active.1 + 1
  ascending : (o.segments.map Prod.fst).Pairwise (· < ·)
  segments : ∀ e ∈ o.segments, SegmentAligned points records published applied e

/-- An aligned replica: its newest segment is the one that the entries up to its last rotation
call for, what it has removed is published, and so is everything before the offsets it
knows. -/
structure Replica.Aligned (published : List OutboxRecord) (r : Replica) : Prop where
  outbox : r.outbox.Aligned points records published r.applied
  place : ∃ n, r.outbox.active.1 = place points n ∧
    r.applied = if r.unrotated then n + 1 else n
  shared : ∀ seq, ∀ offset ∈ r.sharedOffsets seq, CoveredTo points records published seq offset
  pending : ∀ seq, ∀ offset ∈ r.pendingCheckpoints seq,
    CoveredTo points records published seq offset
  collected : ∀ rec ∈ r.collected, rec ∈ published

variable {points records} {published published' : List OutboxRecord}

theorem Covered.mono (hsub : published ⊆ published') {seq k : ℕ}
    (h : Covered points records published seq k) : Covered points records published' seq k :=
  fun applied r hr => hsub (h applied r hr)

theorem SegmentAligned.mono (hsub : published ⊆ published') {applied : ℕ} {e : ℕ × SegmentFile}
    (h : SegmentAligned points records published applied e) :
    SegmentAligned points records published' applied e := by
  obtain ⟨k, hh, hk⟩ := h
  exact ⟨k, hh, hk.mono hsub⟩

/-- A segment that may be removed is published. -/
theorem SegmentAligned.mem_of_collectable {applied : ℕ} {e : ℕ × SegmentFile}
    (h : SegmentAligned points records published applied e) (hc : e.2.collectable = true)
    {r : OutboxRecord} (hr : r ∈ e.2.records) : r ∈ published := by
  obtain ⟨k, hh, hk⟩ := h
  rw [hh.records_eq] at hr
  refine hk applied r ?_
  rwa [hh.collectable hc, take_length]

namespace ShardOutbox.Aligned

variable {applied : ℕ} {o : ShardOutbox}

theorem mono (hsub : published ⊆ published') (h : o.Aligned points records published applied) :
    o.Aligned points records published' applied where
  __ := h
  segments := fun e he => (h.segments e he).mono hsub

variable (h : o.Aligned points records published applied)
include h

/-- The records of an entry go to the newest segment. -/
theorem withRecords (hactive : o.active.1 = place points applied) :
    (o.withRecords (records (applied + 1))).Aligned points records published (applied + 1) := by
  refine ⟨h.buffer, h.next, ShardOutbox.ascending_withRecords h.ascending _, fun e he => ?_⟩
  rcases mem_append.mp he with he | he
  · obtain ⟨k, hh, hk⟩ := h.segments e (mem_append_left _ he)
    have hlt : e.1 < o.active.1 := by
      have hasc := h.ascending
      rw [ShardOutbox.segments, map_append, pairwise_append] at hasc
      exact hasc.2.2 e.1 (List.mem_map_of_mem he) o.active.1 (mem_singleton_self _)
    refine ⟨k, ?_, hk⟩
    rw [contents_succ, if_neg (by rw [← hactive]; exact hlt.ne'), append_nil]
    exact hh
  · obtain ⟨k, hh, hk⟩ := h.segments o.active (mem_append_right _ mem_cons_self)
    rw [mem_singleton.mp he]
    refine ⟨k, ?_, hk⟩
    rw [ShardOutbox.withRecords, contents_succ, if_pos hactive.symm]
    exact hh.append _

/-- Entries without records and rotations change nothing. -/
theorem of_nil {applied' : ℕ} (hle : applied ≤ applied')
    (hnil : ∀ entry, applied < entry → entry ≤ applied' →
      records entry = [] ∧ points entry = false) :
    o.Aligned points records published applied' := by
  obtain ⟨-, hcontents⟩ := place_contents_of_nil hle hnil
  exact { h with
    segments := fun e he => by
      obtain ⟨k, hh, hk⟩ := h.segments e he
      exact ⟨k, by rw [hcontents]; exact hh, hk⟩ }

/-- **A new segment keeps an outbox aligned**, and the removed ones are published. -/
theorem rotate (hnew : ∀ n < applied, place points n < o.nextSegmentSeq) :
    o.rotate.removePublishedSegments.Aligned points records published applied ∧
      ∀ e ∈ o.segments.filter (fun e => e.2.collectable), ∀ r ∈ e.2.records, r ∈ published := by
  refine ⟨⟨h.buffer, rfl, ?_, fun e he => ?_⟩, fun e he r hr => ?_⟩
  · exact ShardOutbox.ascending_removePublishedSegments
      (ShardOutbox.ascending_rotate h.ascending (h.next ▸ lt_add_one _))
  · rcases mem_append.mp he with he | he
    · exact h.segments e (mem_filter.mp he).1
    · rw [mem_singleton.mp he]
      refine ⟨0, ?_, fun _ r hr => by simp at hr⟩
      rw [show o.rotate.removePublishedSegments.active.1 = o.nextSegmentSeq from rfl,
        contents_eq_nil hnew]
      exact SegmentFile.holds_new
  · obtain ⟨he, hc⟩ := mem_filter.mp he
    exact (h.segments e he).mem_of_collectable hc hr

/-- A move of a cursor over published records. -/
theorem mapSegment (seq : ℕ) {move : SegmentFile → SegmentFile}
    (hmove : ∀ f, (seq, f) ∈ o.segments → SegmentAligned points records published applied (seq, f) →
      SegmentAligned points records published applied (seq, move f)) :
    (o.mapSegment seq move).Aligned points records published applied := by
  refine ⟨h.buffer, ?_, ?_, ?_⟩
  · rw [ShardOutbox.active_mapSegment]
    exact h.next
  · rw [ShardOutbox.map_fst_mapSegment]
    exact h.ascending
  · intro e he
    rw [ShardOutbox.segments_mapSegment] at he
    obtain ⟨e₀, he₀, rfl⟩ := List.mem_map.mp he
    have hal := h.segments e₀ he₀
    obtain ⟨seq₀, f⟩ := e₀
    split
    · rename_i heq
      obtain rfl : seq₀ = seq := heq
      exact hmove f he₀ hal
    · exact hal

end ShardOutbox.Aligned

/-- A new offset for a name. -/
theorem coveredTo_update {known : ℕ → Option ℕ}
    (h : ∀ seq, ∀ offset ∈ known seq, CoveredTo points records published seq offset) {seq : ℕ}
    {new : Option ℕ} (hnew : ∀ offset ∈ new, CoveredTo points records published seq offset) :
    ∀ seq', ∀ offset ∈ Function.update known seq new seq',
      CoveredTo points records published seq' offset := by
  intro seq' offset ho
  by_cases hseq : seq' = seq
  · subst hseq
    rw [Function.update_self] at ho
    exact hnew offset ho
  · rw [Function.update_of_ne hseq] at ho
    exact h seq' offset ho

namespace Replica

variable {r : Replica}

theorem aligned_fresh (cfg : ReplicaConfig) : (fresh cfg).Aligned points records [] where
  outbox :=
    { buffer := rfl
      next := rfl
      ascending := pairwise_singleton _ _
      segments := fun e he => by
        rw [mem_singleton.mp he]
        exact ⟨0, SegmentFile.holds_new, fun _ r hr => by simp at hr⟩ }
  place := ⟨0, rfl, rfl⟩
  shared := nofun
  pending := nofun
  collected := nofun

namespace Aligned

theorem mono (hsub : published ⊆ published') (h : r.Aligned points records published) :
    r.Aligned points records published' where
  outbox := h.outbox.mono hsub
  place := h.place
  shared := fun seq offset ho k hk => (h.shared seq offset ho k hk).mono hsub
  pending := fun seq offset ho k hk => (h.pending seq offset ho k hk).mono hsub
  collected := fun rec hrec => hsub (h.collected rec hrec)

variable (h : r.Aligned points records published)
include h

theorem apply : (r.apply (records (r.applied + 1))).Aligned points records published := by
  obtain ⟨n, hplace, happlied⟩ := h.place
  unfold Replica.apply
  cases hu : r.unrotated with
  | true => exact h
  | false =>
    rw [hu, if_neg Bool.false_ne_true] at happlied
    rw [if_neg Bool.false_ne_true, ShardOutbox.flushToOs_foldl_appendDeferred h.outbox.buffer]
    exact ⟨h.outbox.withRecords (happlied ▸ hplace), ⟨n, hplace, congrArg (· + 1) happlied⟩,
      h.shared, h.pending, h.collected⟩

/-- **A rotation at a rotation point keeps a replica aligned**, and so does none elsewhere. -/
theorem rotate (hpoint : r.unrotated → r.outbox.isFull = points r.applied) :
    r.rotate.Aligned points records published := by
  obtain ⟨n, hplace, happlied⟩ := h.place
  unfold Replica.rotate
  cases hu : r.unrotated with
  | false => exact h
  | true =>
    rw [hu, if_pos rfl] at happlied
    have hpoint := hpoint hu
    rw [if_pos rfl]
    rcases ShardOutbox.maybeRotate_cases h.outbox.buffer with
      ⟨heq, hcollects, hfull⟩ | ⟨heq, hcollects, hfull⟩
    · rw [hfull, happlied] at hpoint
      rw [heq, hcollects, flatMap_nil, append_nil]
      refine ⟨h.outbox, ⟨n + 1, ?_, happlied⟩, h.shared, h.pending, h.collected⟩
      rw [TradeCore.place, ← hpoint]
      exact hplace
    · rw [hfull, happlied] at hpoint
      rw [heq, hcollects]
      have hnext : r.outbox.nextSegmentSeq = TradeCore.place points n + 1 := by
        rw [h.outbox.next, hplace]
      obtain ⟨houtbox, hremoved⟩ := h.outbox.rotate fun m hm => by
        rw [hnext]
        exact Nat.lt_succ_of_le (place_le (by omega))
      refine ⟨houtbox, ⟨n + 1, ?_, happlied⟩, h.shared, h.pending, fun rec hrec => ?_⟩
      · rw [TradeCore.place, ← hpoint, if_pos rfl, ← hnext]
        rfl
      · rcases mem_append.mp hrec with hrec | hrec
        · exact h.collected rec hrec
        · obtain ⟨e, he, hrec⟩ := mem_flatMap.mp hrec
          exact hremoved e he rec hrec

/-- A restart that loses no rotation. -/
theorem restart (hpoint : r.unrotated → points r.applied = false) :
    r.restart.Aligned points records published where
  outbox := ⟨rfl, rfl, h.outbox.ascending, h.outbox.segments⟩
  place := by
    obtain ⟨n, hplace, happlied⟩ := h.place
    refine ⟨r.applied, ?_, rfl⟩
    cases hu : r.unrotated with
    | false =>
      rw [hu, if_neg Bool.false_ne_true] at happlied
      rw [happlied]
      exact hplace
    | true =>
      rw [hu, if_pos rfl] at happlied
      have hpoint := hpoint hu
      rw [happlied] at hpoint ⊢
      rw [TradeCore.place, hpoint, if_neg Bool.false_ne_true]
      exact hplace
  shared := nofun
  pending := nofun
  collected := h.collected

theorem install (hpoint : r.unrotated → points r.applied = false) {index : ℕ}
    (hnil : ∀ entry, r.applied < entry → entry ≤ index →
      records entry = [] ∧ points entry = false) :
    (r.install index).Aligned points records published := by
  have hr := h.restart hpoint
  have hskip : ∀ entry, r.applied < entry → entry ≤ max r.applied index →
      records entry = [] ∧ points entry = false := fun entry hlt hle =>
    hnil entry hlt ((le_max_iff.mp hle).resolve_left hlt.not_ge)
  obtain ⟨n, hplace, happlied⟩ := hr.place
  refine ⟨hr.outbox.of_nil (Nat.le_max_left _ _) hskip, ⟨max r.applied index, hplace.trans ?_, rfl⟩,
    hr.shared, hr.pending, hr.collected⟩
  rw [(place_contents_of_nil (Nat.le_max_left _ _) hskip).1]
  exact congrArg _ happlied.symm

theorem learn {seq offset : ℕ} (hoffset : CoveredTo points records published seq offset) :
    (r.learn seq offset).Aligned points records published where
  __ := h
  shared := by
    refine coveredTo_update h.shared fun offset' ho => ?_
    rw [← some.inj ho]
    -- the larger of two offsets is one of the two
    rcases le_total ((r.sharedOffsets seq).getD 0) offset with hle | hle
    · rw [Nat.max_eq_right hle]
      exact hoffset
    · rw [Nat.max_eq_left hle]
      cases hshared : r.sharedOffsets seq with
      | none => exact fun k hk => absurd hk (by simp [OUTBOX_HEADER]; omega)
      | some known => exact h.shared seq known hshared

theorem follow (seq : ℕ) : (r.follow seq).Aligned points records published := by
  rw [Replica.follow]
  split
  · exact h
  · rename_i offset hoffset
    refine ⟨?_, ?_, h.shared, h.pending, h.collected⟩
    · dsimp only
      refine h.outbox.mapSegment seq fun f _ hf => ?_
      cases hmove : f.acknowledgeTo offset with
      | error err => exact hf
      | ok f' =>
        obtain ⟨k, hh, hk⟩ := hf
        rcases hh.acknowledgeTo hmove with rfl | ⟨k', -, -, heq, hh'⟩
        · exact ⟨k, hh, hk⟩
        · exact ⟨k', hh', h.shared seq offset hoffset k' heq⟩
    · simp only [ShardOutbox.active_mapSegment]
      exact h.place

/-- **Publishing a batch** keeps a replica aligned with what is published then. -/
theorem publish (cfg : ReplicaConfig) (seq : ℕ) (taken : OutboxRecord → Bool) :
    (r.publish cfg seq taken).2.Aligned points records
      (published ++ (r.publish cfg seq taken).1) := by
  have hsub : ∀ rs : List OutboxRecord, published ⊆ published ++ rs :=
    fun rs => subset_append_left _ _
  rw [Replica.publish]
  split
  · exact h.mono (hsub _)
  · rename_i f hlookup
    dsimp only
    split
    · exact h.mono (hsub _)
    · split
      · obtain ⟨l₁, l₂, hsplit, -⟩ := lookup_eq_some_iff.mp hlookup
        have hmem : (seq, f) ∈ r.outbox.segments := by
          rw [hsplit]
          exact mem_append_right _ mem_cons_self
        obtain ⟨k, hh, hk⟩ := h.outbox.segments (seq, f) hmem
        dsimp only at hh hk
        rw [hh.readBatch]
        set batch := ((contents points records r.applied seq).drop k).take
          (publishBatchSize cfg.publishBatch)
        have hle : k + batch.length ≤ (contents points records r.applied seq).length := by
          have := hh.le
          rw [length_take, length_drop]
          omega
        -- the published records of the segment and the batch behind them
        have hcovered : Covered points records (published ++ batch) seq (k + batch.length) := by
          intro applied rec hrec
          have hrec := mem_take_contents hle hrec
          rw [take_add, ← prefix_iff_eq_take.mp ( take_prefix _ _)] at hrec
          rcases mem_append.mp hrec with hrec | hrec
          · exact mem_append_left _ (hk _ _ hrec)
          · exact mem_append_right _ hrec
        have h' := h.mono (hsub batch)
        refine ⟨?_, ?_, h'.shared, ?_, h'.collected⟩
        · dsimp only
          refine h'.outbox.mapSegment seq fun f' hf' _ => ?_
          have hkeys := h.outbox.ascending.imp ne_of_lt
          obtain rfl : f = f' := some.inj (hlookup.symm.trans (lookup_of_mem hkeys hf'))
          obtain ⟨f'', hack, hh''⟩ := hh.acknowledge hle
          rw [hack]
          exact ⟨_, hh'', hcovered⟩
        · simp only [ShardOutbox.active_mapSegment]
          exact h.place
        · dsimp only
          split
          · refine coveredTo_update h'.pending fun offset ho k' hk' => ?_
            have hoffset : OUTBOX_RECORD_LEN * k' = OUTBOX_RECORD_LEN * (k + batch.length) := by
              rw [← some.inj ho, hh.offset, mul_comm batch.length] at hk'
              rw [mul_add]
              omega
            rw [Nat.eq_of_mul_eq_mul_left (by decide) hoffset]
            exact hcovered
          · exact h'.pending
      · exact h.mono (hsub _)

end Aligned

end Replica

end Aligned

/-! ### Every run -/

namespace Cluster

variable {ι : Type} [DecidableEq ι]

/-- All replicas are aligned, and so are the checkpoints of the topic. -/
structure Aligned (points : ℕ → Bool) (records : ℕ → List OutboxRecord) (c : Cluster ι) : Prop where
  replica : ∀ i, (c.replica i).Aligned points records c.published
  topic : ∀ m ∈ c.topic, CoveredTo points records c.published m.1 m.2

variable {points : ℕ → Bool} {records : ℕ → List OutboxRecord} {c : Cluster ι}

/-- A change of one replica. -/
theorem Aligned.set (h : c.Aligned points records) (i : ι) {r : Replica}
    (hr : r.Aligned points records c.published) : (c.set i r).Aligned points records where
  replica := by
    intro j
    rw [Cluster.set]
    dsimp only
    by_cases hj : j = i
    · subst hj
      rw [Function.update_self]
      exact hr
    · rw [Function.update_of_ne hj]
      exact h.replica j
  topic := h.topic

omit [DecidableEq ι] in
theorem Aligned.published (h : c.Aligned points records) (rs : List OutboxRecord) :
    { c with published := c.published ++ rs }.Aligned points records where
  replica := fun i => (h.replica i).mono (subset_append_left _ _)
  topic := fun m hm k hk => (h.topic m hm k hk).mono (subset_append_left _ _)

/-- **Every action keeps a group aligned** if the replicas keep in step. -/
theorem Aligned.step {cfg : ι → ReplicaConfig} {raftGroup : UInt32} {reports : ℕ → List ReportFrame}
    (h : c.Aligned points fun n => entryRecords raftGroup n (reports n)) {a : ClusterAction ι}
    (hok : c.InStep reports points a) :
    (c.step cfg raftGroup reports a).Aligned points fun n =>
      entryRecords raftGroup n (reports n) := by
  cases a with
  | apply i => exact h.set i (h.replica i).apply
  | rotate i => exact h.set i ((h.replica i).rotate hok)
  | restart i => exact h.set i ((h.replica i).restart hok)
  | install i index =>
    refine h.set i ((h.replica i).install hok.1 fun entry hlt hle => ?_)
    obtain ⟨hnil, hpoint⟩ := hok.2 entry hlt hle
    exact ⟨by rw [hnil]; rfl, hpoint⟩
  | lead i leader =>
    have hi := h.replica i
    exact h.set i ⟨hi.outbox, hi.place, hi.shared, hi.pending, hi.collected⟩
  | publish i seq taken =>
    exact (h.published _).set i ((h.replica i).publish (cfg i) seq taken)
  | checkpoint i seq confirmed =>
    rw [Cluster.step]
    cases hpending : (c.replica i).pendingCheckpoints seq with
    | none => exact h
    | some offset =>
      have hi := h.replica i
      have hoffset := hi.pending seq offset hpending
      dsimp only
      refine ⟨?_, ?_⟩
      · refine (h.set i ?_).replica
        cases confirmed with
        | false => exact hi
        | true =>
          refine ⟨hi.outbox, hi.place, coveredTo_update hi.shared ?_,
            coveredTo_update hi.pending ?_, hi.collected⟩
          · exact fun offset' ho => some.inj ho ▸ hoffset
          · exact fun offset' ho => by cases ho
      · intro m hm
        rcases mem_append.mp hm with hm | hm
        · exact h.topic m hm
        · rw [mem_singleton.mp hm]
          exact hoffset
  | poll i =>
    rw [Cluster.step]
    cases hmessage : c.topic[(c.replica i).polled]? with
    | none => exact h
    | some m => exact h.set i ((h.replica i).learn (h.topic m (mem_of_getElem? hmessage)))
  | follow i seq => exact h.set i ((h.replica i).follow seq)

omit [DecidableEq ι] in
/-- An aligned group is safe. -/
theorem Aligned.safe (h : c.Aligned points records) : c.Safe := by
  intro i
  refine ⟨fun e he r hr => ?_, fun r hr => ⟨r, (h.replica i).collected r hr, rfl, rfl⟩⟩
  obtain ⟨k, hh, hk⟩ := (h.replica i).outbox.segments e he
  rw [hh.acknowledged] at hr
  exact ⟨r, hk _ r hr, rfl, rfl⟩

section Runs

variable {cfg : ι → ReplicaConfig} {raftGroup : UInt32} {reports : ℕ → List ReportFrame}
variable {ok : Cluster ι → ClusterAction ι → Prop}

/-- The actions all meet a condition, each in the state after the ones before it. -/
def Runs (cfg : ι → ReplicaConfig) (raftGroup : UInt32) (reports : ℕ → List ReportFrame)
    (ok : Cluster ι → ClusterAction ι → Prop) (c : Cluster ι) : List (ClusterAction ι) → Prop
  | [] => True
  | a :: as => ok c a ∧ Runs cfg raftGroup reports ok (c.step cfg raftGroup reports a) as

/-- The group after some actions. -/
def run (cfg : ι → ReplicaConfig) (raftGroup : UInt32) (reports : ℕ → List ReportFrame)
    (c : Cluster ι) (as : List (ClusterAction ι)) : Cluster ι :=
  as.foldl (fun c a => c.step cfg raftGroup reports a) c

theorem Reachable.run (h : Reachable cfg raftGroup reports ok c) {as : List (ClusterAction ι)}
    (hruns : Runs cfg raftGroup reports ok c as) :
    Reachable cfg raftGroup reports ok (run cfg raftGroup reports c as) := by
  induction as generalizing c with
  | nil => exact h
  | cons a as ih => exact ih (h.step a hruns.1) hruns.2

theorem runs_true (as : List (ClusterAction ι)) (c : Cluster ι) :
    Runs cfg raftGroup reports (fun _ _ => True) c as := by
  induction as generalizing c with
  | nil => trivial
  | cons a as ih => exact ⟨trivial, ih _⟩

end Runs

/-- Replicas that begin a new segment after every record. -/
def smallSegments : Bool → ReplicaConfig := fun _ => ⟨some 88, none, none⟩

/-- Three entries with one report each. -/
def threeReports (entry : ℕ) : List ReportFrame :=
  if 1 ≤ entry ∧ entry ≤ 3 then [sampleReport] else []

/-- The first replica publishes the first entry and writes the checkpoint; the second one applies
the entry, follows, restarts and removes the segment when it rotates again. -/
def twinActions : List (ClusterAction Bool) :=
  [.apply false, .rotate false, .lead false true, .publish false 0 fun _ => true,
    .checkpoint false 0 true, .apply true, .rotate true, .poll true, .follow true 0,
    .restart true, .apply true, .rotate true]

/-- A group in which the second replica has acknowledged a record that no one has published. -/
def Hides (published hidden : List OutboxRecord) (c : Cluster Bool) : Prop :=
  c.published = published ∧
    (c.replica true).outbox.segments.flatMap (fun e => e.2.acknowledged) = hidden ∧ ¬ c.Safe

omit [DecidableEq ι] in
theorem hides_of_eq {c : Cluster Bool} {published hidden : List OutboxRecord} {r : OutboxRecord}
    (hpublished : c.published = published)
    (hhidden : (c.replica true).outbox.segments.flatMap (fun e => e.2.acknowledged) = hidden)
    (hr : r ∈ hidden) (hne : ∀ r' ∈ published, r'.raftIndex ≠ r.raftIndex) :
    c.Hides published hidden := by
  refine ⟨hpublished, hhidden, fun hsafe => ?_⟩
  rw [← hhidden] at hr
  obtain ⟨e, he, hr⟩ := mem_flatMap.mp hr
  obtain ⟨r', hr', hindex, -⟩ := (hsafe true).1 e he r hr
  exact hne r' (hpublished ▸ hr') hindex

/-- The default settings. -/
def defaultReplica : Bool → ReplicaConfig := fun _ => ⟨some (128 * 1024 * 1024), none, none⟩

/-- The second replica installs a snapshot of the first entry and applies the second one. -/
def snapshotActions : List (ClusterAction Bool) :=
  [.apply false, .rotate false, .lead false true, .publish false 0 fun _ => true,
    .checkpoint false 0 true, .install true 1, .apply true, .rotate true, .poll true,
    .follow true 0]

/-- The first replica publishes two entries; the second one stops between the proof of the first
entry and the rotation. -/
def lostRotationActions : List (ClusterAction Bool) :=
  [.apply false, .rotate false, .lead false true, .publish false 0 fun _ => true,
    .checkpoint false 0 true, .apply false, .rotate false, .publish false 1 fun _ => true,
    .checkpoint false 1 true, .apply true, .restart true, .apply true, .rotate true, .apply true,
    .poll true, .poll true, .follow true 0, .follow true 1]

/-- **A stop before a rotation hides records**, though both replicas rotate at the same size: the
second segment of the second replica begins with the third record. -/
theorem lost_rotation_hides_records : ∃ c : Cluster Bool,
    Reachable smallSegments 0 threeReports (fun _ _ => True) c ∧
    c.Hides [singleReport 1, singleReport 2] [singleReport 1, singleReport 3] :=
  ⟨_, Reachable.fresh.run (runs_true lostRotationActions _),
    hides_of_eq (by decide +kernel) (by decide +kernel) (mem_cons_of_mem _ mem_cons_self)
      (by decide +kernel)⟩

end Cluster

end TradeCore
