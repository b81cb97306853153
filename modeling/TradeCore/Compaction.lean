import TradeCore.SharedCursor

/-!
# Compaction and Publication

The Raft runtime of a node (`raft_node.rs`) drops the log up to the index of the engine snapshot
when the execution outbox is published. It learns that from a gauge, the number of pending
records, which the publisher stores once or twice in a pass. The runtime reads the gauge and
then loads the snapshot, and the matching shard goes on in the meantime: a snapshot can cover
batches that were appended after the gauge was stored.

An `OutboxNode` holds what the three threads share; they act in any order. To speak about the
age of a gauge value, the node remembers the last applied index at the directory scan that the
value is based on.

## Main results

* `OutboxNode.compaction_published` — a compaction drops published history only, if its
  snapshot is not newer than that scan.
* `OutboxNode.stale_gauge_compacts` — a compaction past a record that is not published.
-/

open List Option

namespace TradeCore

/-- The shared state of a node: matching shard, publisher and Raft runtime. -/
structure OutboxNode where
  outbox : ShardOutbox
  /-- The last batch that the shard has applied. -/
  lastRaftIndex : ℕ
  /-- The index of the engine snapshot on disk. -/
  snapshotIndex : ℕ
  /-- The segments that the publisher has found. -/
  readers : List ℕ
  /-- The gauge: pending records. -/
  pending : ℕ
  healthy : Bool
  /-- The last entry that the Raft node has handed out. -/
  appliedIndex : ℕ
  /-- The index through which the Raft log is compacted. -/
  raftSnapshotIndex : ℕ
  /-- The runtime has read a gauge of zero. -/
  sawDrained : Bool
  /-- The runtime has then read that the publisher is healthy. -/
  sawHealthy : Bool
  /-- All records that were ever appended. -/
  appended : List OutboxRecord
  /-- All records that the broker has acknowledged. -/
  acknowledged : List OutboxRecord
  /-- The last applied batch at the last directory scan. -/
  scanIndex : ℕ
  /-- The same for the scan on which the gauge is based. -/
  gaugeIndex : ℕ
  /-- The same for the gauge value that the runtime has read. -/
  sawIndex : ℕ

/-- What the threads of a node do. -/
inductive NodeAction
  /-- The Raft node hands out the next entry. -/
  | commit
  /-- The shard applies a batch. -/
  | apply (index : ℕ) (reports : List ReportFrame)
  /-- The shard writes the engine snapshot. -/
  | snapshot
  /-- The publisher lists the directory. -/
  | scan
  /-- The broker acknowledges records that another leader has sent. -/
  | remote (records : List OutboxRecord)
  /-- The publisher moves the cursor of a segment to an offset from the shared topic. -/
  | follow (seq offset : ℕ)
  /-- The publisher sends a batch of a segment, of which the broker takes some records. -/
  | publish (seq : ℕ) (taken : OutboxRecord → Bool)
  /-- The publisher stores the gauge. -/
  | gauge
  /-- The publisher stores its health. -/
  | health (healthy : Bool)
  /-- The runtime reads the gauge. -/
  | readGauge
  /-- The runtime reads the health. -/
  | readHealth
  /-- The runtime loads the snapshot and compacts. -/
  | compact

namespace OutboxNode

/-- A node without data. -/
def fresh (rotateBytes : Option ℕ) : OutboxNode where
  outbox := ShardOutbox.fresh 0 rotateBytes
  lastRaftIndex := 0
  snapshotIndex := 0
  readers := []
  pending := 0
  healthy := false
  appliedIndex := 0
  raftSnapshotIndex := 0
  sawDrained := false
  sawHealthy := false
  appended := []
  acknowledged := []
  scanIndex := 0
  gaugeIndex := 0
  sawIndex := 0

/-- The pending records of the segments that the publisher has found. -/
def pendingRecords (n : OutboxNode) : ℕ :=
  (n.readers.map fun seq => (n.outbox.segments.lookup seq).elim 0 SegmentFile.pendingRecords).sum

/-- The runtime compacts through an index when it loads the snapshot now. -/
def Compacts (threshold : ℕ) (n : OutboxNode) (index : ℕ) : Prop :=
  0 < threshold ∧ n.sawDrained = true ∧ n.sawHealthy = true ∧ index = n.snapshotIndex ∧
    index ≤ n.appliedIndex ∧ min (n.raftSnapshotIndex + threshold) (2 ^ 64 - 1) ≤ index

instance (threshold : ℕ) (n : OutboxNode) (index : ℕ) : Decidable (n.Compacts threshold index) :=
  inferInstanceAs (Decidable (_ ∧ _))

section Step

variable (raftGroup : UInt32) (publishBatch : Option ℕ) (threshold : ℕ)

/-- One action. The shard applies batches in the order in which they are handed out. -/
def step (n : OutboxNode) : NodeAction → OutboxNode
  | .commit => { n with appliedIndex := n.appliedIndex + 1 }
  | .apply index reports =>
    if n.lastRaftIndex < index ∧ index ≤ n.appliedIndex ∧ index < 2 ^ 64 then
      let records := entryRecords raftGroup index reports
      { n with
        outbox := n.outbox.recordBatch records
        lastRaftIndex := index
        appended := n.appended ++ records }
    else n
  | .snapshot => { n with snapshotIndex := n.lastRaftIndex }
  | .scan =>
    { n with readers := n.outbox.segments.map Prod.fst, scanIndex := n.lastRaftIndex }
  | .remote records => { n with acknowledged := n.acknowledged ++ records }
  | .follow seq offset =>
    if seq ∈ n.readers then
      { n with
        outbox := n.outbox.mapSegment seq fun f => (f.acknowledgeTo offset).toOption.getD f }
    else n
  | .publish seq taken =>
    match n.outbox.segments.lookup seq with
    | none => n
    | some f =>
      let records := f.readBatch (publishBatchSize publishBatch)
      if seq ∉ n.readers then n
      else if records.all taken then
        { n with
          acknowledged := n.acknowledged ++ records
          outbox := n.outbox.mapSegment seq fun f =>
            (f.acknowledge records.length).toOption.getD f }
      else { n with acknowledged := n.acknowledged ++ records.filter taken, healthy := false }
  | .gauge => { n with pending := n.pendingRecords, gaugeIndex := n.scanIndex }
  | .health healthy => { n with healthy := healthy }
  | .readGauge =>
    { n with sawDrained := n.pending = 0, sawHealthy := false, sawIndex := n.gaugeIndex }
  | .readHealth => { n with sawHealthy := n.healthy }
  | .compact =>
    { n with
      raftSnapshotIndex :=
        if n.Compacts threshold n.snapshotIndex then n.snapshotIndex else n.raftSnapshotIndex
      sawDrained := false
      sawHealthy := false }

/-- The states of a node that starts without data, where every action meets a condition. -/
inductive Reachable (rotateBytes : Option ℕ) (ok : OutboxNode → NodeAction → Prop) :
    OutboxNode → Prop
  | fresh : Reachable rotateBytes ok (fresh rotateBytes)
  | step {n : OutboxNode} (h : Reachable rotateBytes ok n) (a : NodeAction) (hok : ok n a) :
      Reachable rotateBytes ok (n.step raftGroup publishBatch threshold a)

end Step

/-- Every record of this node up to an index has been acknowledged by the broker. -/
def PublishedThrough (n : OutboxNode) (index : ℕ) : Prop :=
  ∀ r ∈ n.appended, r.raftIndex.toNat ≤ index → r ∈ n.acknowledged

/-- The records before an offset that the publisher follows are acknowledged by the broker; a
snapshot that is loaded for a compaction is not newer than the directory scan on which the
gauge value is based. -/
def Timely (n : OutboxNode) : NodeAction → Prop
  | .follow seq offset =>
    ∀ f ∈ n.outbox.segments.lookup seq, ∀ f' ∈ (f.acknowledgeTo offset).toOption,
      ∀ r ∈ f'.acknowledged, r ∈ n.acknowledged
  | .compact => n.snapshotIndex ≤ n.sawIndex
  | _ => True

/-! ### What the gauge says -/

/-- A segment whose acknowledged records the broker has acknowledged; a segment that the
publisher has not found holds batches after its scan. -/
def Tracks (acknowledged : List OutboxRecord) (readers : List ℕ) (scanIndex : ℕ)
    (e : ℕ × SegmentFile) : Prop :=
  ∃ records k, e.2.Holds records [] k ∧ (∀ r ∈ records.take k, r ∈ acknowledged) ∧
    (e.1 ∉ readers → ∀ r ∈ records, scanIndex < r.raftIndex.toNat)

/-- What holds in every state: every record is in a segment or acknowledged, and a gauge of
zero speaks for the batches before its scan. -/
structure Accounts (n : OutboxNode) : Prop where
  buffer : n.outbox.buffer = []
  ascending : (n.outbox.segments.map Prod.fst).Pairwise (· < ·)
  active_lt : n.outbox.active.1 < n.outbox.nextSegmentSeq
  segments : ∀ e ∈ n.outbox.segments, Tracks n.acknowledged n.readers n.scanIndex e
  kept : ∀ r ∈ n.appended, r ∈ n.acknowledged ∨ ∃ e ∈ n.outbox.segments, r ∈ e.2.records
  scan_le : n.scanIndex ≤ n.lastRaftIndex
  gauge_le : n.gaugeIndex ≤ n.lastRaftIndex
  saw_le : n.sawIndex ≤ n.lastRaftIndex
  gauge : n.pending = 0 → n.PublishedThrough n.gaugeIndex
  saw : n.sawDrained = true → n.PublishedThrough n.sawIndex

theorem accounts_fresh (rotateBytes : Option ℕ) : (fresh rotateBytes).Accounts where
  buffer := rfl
  ascending := pairwise_singleton _ _
  active_lt := Nat.zero_lt_one
  segments := fun e he => by
    rw [mem_singleton.mp he]
    exact ⟨[], 0, SegmentFile.holds_new, fun r hr => by simp at hr, nofun⟩
  kept := nofun
  scan_le := Nat.le_refl 0
  gauge_le := Nat.le_refl 0
  saw_le := Nat.le_refl 0
  gauge := nofun
  saw := nofun

theorem mem_entryRecords {raftGroup : UInt32} {index : ℕ} {reports : List ReportFrame}
    (hindex : index < 2 ^ 64) {r : OutboxRecord} (hr : r ∈ entryRecords raftGroup index reports) :
    r.raftIndex.toNat = index := by
  rw [entryRecords, mem_mapIdx] at hr
  obtain ⟨i, hi, rfl⟩ := hr
  exact (UInt64.toNat_ofNat_of_lt' hindex)

namespace Accounts

variable {n : OutboxNode}

/-- **A batch** goes to the newest segment, and the segments it removes are acknowledged. -/
theorem apply (h : n.Accounts) (raftGroup : UInt32) {index : ℕ} (reports : List ReportFrame)
    (hlt : n.lastRaftIndex < index) (hindex : index < 2 ^ 64) :
    Accounts { n with
      outbox := n.outbox.recordBatch (entryRecords raftGroup index reports)
      lastRaftIndex := index
      appended := n.appended ++ entryRecords raftGroup index reports } := by
  have hnew : ∀ r ∈ entryRecords raftGroup index reports, r.raftIndex.toNat = index :=
    fun r hr => mem_entryRecords hindex hr
  set records := entryRecords raftGroup index reports
  have hthrough : ∀ i ≤ n.lastRaftIndex, n.PublishedThrough i → ∀ r ∈ n.appended ++ records,
      r.raftIndex.toNat ≤ i → r ∈ n.acknowledged := by
    intro i hi hpub r hr hle
    rcases mem_append.mp hr with hr | hr
    · exact hpub r hr hle
    · have := hnew r hr
      omega
  -- the segments with the new records
  have hsegments : ∀ e ∈ (n.outbox.withRecords records).segments,
      Tracks n.acknowledged n.readers n.scanIndex e := by
    intro e he
    rcases mem_append.mp he with he | he
    · exact h.segments e (mem_append_left _ he)
    · obtain ⟨old, k, hh, hk, hscan⟩ :=
        h.segments n.outbox.active (mem_append_right _ mem_cons_self)
      rw [mem_singleton.mp he]
      refine ⟨old ++ records, k, hh.append records, fun r hr => ?_, fun hne r hr => ?_⟩
      · rw [take_append_of_le_length hh.le] at hr
        exact hk r hr
      · rcases mem_append.mp hr with hr | hr
        · exact hscan hne r hr
        · rw [hnew r hr]
          exact h.scan_le.trans_lt hlt
  have hkept : ∀ r ∈ n.appended ++ records, r ∈ n.acknowledged ∨
      ∃ e ∈ (n.outbox.withRecords records).segments, r ∈ e.2.records := by
    obtain ⟨old, k, hh, -, -⟩ :=
      h.segments n.outbox.active (mem_append_right _ mem_cons_self)
    have hactive : (n.outbox.withRecords records).active.2.records = old ++ records :=
      (hh.append records).records_eq
    have hmem : (n.outbox.withRecords records).active ∈ (n.outbox.withRecords records).segments :=
      mem_append_right _ mem_cons_self
    intro r hr
    rcases mem_append.mp hr with hr | hr
    · refine (h.kept r hr).imp_right fun ⟨e, he, hre⟩ => ?_
      rcases mem_append.mp he with he | he
      · exact ⟨e, mem_append_left _ he, hre⟩
      · rw [mem_singleton.mp he, hh.records_eq] at hre
        exact ⟨_, hmem, hactive ▸ mem_append_left _ hre⟩
    · exact .inr ⟨_, hmem, hactive ▸ mem_append_right _ hr⟩
  have hasc := ShardOutbox.ascending_withRecords h.ascending records
  rw [ShardOutbox.recordBatch, ShardOutbox.flushToOs_foldl_appendDeferred h.buffer]
  rcases ShardOutbox.maybeRotate_cases (o := n.outbox.withRecords records) h.buffer with
    ⟨heq, -, -⟩ | ⟨heq, -, -⟩
  · rw [heq]
    exact ⟨h.buffer, hasc, h.active_lt, hsegments, hkept, h.scan_le.trans hlt.le,
      h.gauge_le.trans hlt.le, h.saw_le.trans hlt.le, fun hz => hthrough _ h.gauge_le (h.gauge hz),
      fun hs => hthrough _ h.saw_le (h.saw hs)⟩
  · rw [heq]
    refine ⟨h.buffer, ?_, lt_add_one _, ?_, ?_, h.scan_le.trans hlt.le,
      h.gauge_le.trans hlt.le, h.saw_le.trans hlt.le, fun hz => hthrough _ h.gauge_le (h.gauge hz),
      fun hs => hthrough _ h.saw_le (h.saw hs)⟩
    · exact ShardOutbox.ascending_removePublishedSegments
        (ShardOutbox.ascending_rotate hasc h.active_lt)
    · intro e he
      rcases mem_append.mp he with he | he
      · exact hsegments e (mem_filter.mp he).1
      · rw [mem_singleton.mp he]
        exact ⟨[], 0, SegmentFile.holds_new, fun r hr => by simp at hr, nofun⟩
    · intro r hr
      rcases hkept r hr with hr | ⟨e, he, hre⟩
      · exact .inl hr
      · by_cases hc : e.2.collectable = true
        · obtain ⟨all, k, hh, hk, -⟩ := hsegments e he
          rw [hh.records_eq] at hre
          exact .inl (hk r (by rwa [hh.collectable hc, take_length]))
        · exact .inr ⟨e, mem_append_left _ (mem_filter.mpr ⟨he, by simpa using hc⟩), hre⟩

/-- A move of a cursor over acknowledged records. -/
theorem mapSegment (h : n.Accounts) (seq : ℕ) {acknowledged : List OutboxRecord}
    (hsub : n.acknowledged ⊆ acknowledged) {move : SegmentFile → SegmentFile}
    (hmove : ∀ f, n.outbox.segments.lookup seq = some f →
      ∀ records k, f.Holds records [] k → (∀ r ∈ records.take k, r ∈ n.acknowledged) →
        ∃ k', (move f).Holds records [] k' ∧ ∀ r ∈ records.take k', r ∈ acknowledged) :
    Accounts { n with
      outbox := n.outbox.mapSegment seq move, acknowledged := acknowledged } := by
  have hkeys := h.ascending.imp ne_of_lt
  have hthrough : ∀ i, n.PublishedThrough i → ∀ r ∈ n.appended, r.raftIndex.toNat ≤ i →
      r ∈ acknowledged := fun i hpub r hr hle => hsub (hpub r hr hle)
  have hholds : ∀ e ∈ n.outbox.segments,
      ∃ records k, e.2.Holds records [] k ∧ (∀ r ∈ records.take k, r ∈ acknowledged) ∧
        (e.1 ∉ n.readers → ∀ r ∈ records, n.scanIndex < r.raftIndex.toNat) ∧
        (e.1 = seq → ∃ k', (move e.2).Holds records [] k' ∧
          ∀ r ∈ records.take k', r ∈ acknowledged) := by
    intro e he
    obtain ⟨records, k, hh, hk, hscan⟩ := h.segments e he
    refine ⟨records, k, hh, fun r hr => hsub (hk r hr), hscan, ?_⟩
    rintro rfl
    exact hmove e.2 (lookup_of_mem hkeys he) records k hh hk
  refine ⟨h.buffer, ?_, ?_, ?_, ?_, h.scan_le, h.gauge_le, h.saw_le,
    fun hz => hthrough _ (h.gauge hz), fun hs => hthrough _ (h.saw hs)⟩
  · rw [ShardOutbox.map_fst_mapSegment]
    exact h.ascending
  · rw [ShardOutbox.active_mapSegment]
    exact h.active_lt
  · intro e he
    rw [ShardOutbox.segments_mapSegment] at he
    obtain ⟨e₀, he₀, rfl⟩ := List.mem_map.mp he
    obtain ⟨records, k, hh, hk, hscan, hmoved⟩ := hholds e₀ he₀
    split
    · rename_i heq
      obtain ⟨k', hh', hk'⟩ := hmoved heq
      exact ⟨records, k', hh', hk', hscan⟩
    · exact ⟨records, k, hh, hk, hscan⟩
  · intro r hr
    rcases h.kept r hr with hr | ⟨e, he, hre⟩
    · exact .inl (hsub hr)
    · obtain ⟨records, k, hh, -, -, hmoved⟩ := hholds e he
      refine .inr ⟨_, by rw [ShardOutbox.segments_mapSegment]; exact List.mem_map_of_mem he, ?_⟩
      rw [hh.records_eq] at hre
      split
      · rename_i heq
        obtain ⟨k', hh', -⟩ := hmoved heq
        rw [hh'.records_eq]
        exact hre
      · rw [hh.records_eq]
        exact hre

/-- More acknowledged records. -/
theorem acknowledge (h : n.Accounts) {acknowledged : List OutboxRecord}
    (hsub : n.acknowledged ⊆ acknowledged) (healthy : Bool) :
    Accounts { n with acknowledged := acknowledged, healthy := healthy } where
  __ := h
  segments := fun e he => by
    obtain ⟨records, k, hh, hk, hscan⟩ := h.segments e he
    exact ⟨records, k, hh, fun r hr => hsub (hk r hr), hscan⟩
  kept := fun r hr => (h.kept r hr).imp_left fun hr => hsub hr
  gauge := fun hz r hr hle => hsub (h.gauge hz r hr hle)
  saw := fun hs r hr hle => hsub (h.saw hs r hr hle)

/-- **A gauge of zero**: every batch before the scan is published. -/
theorem publishedThrough_of_pending (h : n.Accounts) (hzero : n.pendingRecords = 0) :
    n.PublishedThrough n.scanIndex := by
  intro r hr hle
  rcases h.kept r hr with hr | ⟨e, he, hre⟩
  · exact hr
  · obtain ⟨records, k, hh, hk, hscan⟩ := h.segments e he
    rw [hh.records_eq] at hre
    by_cases hfound : e.1 ∈ n.readers
    · rw [pendingRecords, sum_eq_zero_iff] at hzero
      have hnone := hzero _ (List.mem_map_of_mem hfound)
      rw [lookup_of_mem (h.ascending.imp ne_of_lt) he, elim_some, hh.pendingRecords] at hnone
      refine hk r ?_
      rwa [take_of_length_le (by omega)]
    · have := hscan hfound r hre
      omega

/-- **Every action keeps the accounts.** -/
theorem step (h : n.Accounts) {raftGroup : UInt32} {publishBatch : Option ℕ} {threshold : ℕ}
    {a : NodeAction} (hok : n.Timely a) : (n.step raftGroup publishBatch threshold a).Accounts := by
  cases a with
  | commit => exact { h with }
  | apply index reports =>
    rw [OutboxNode.step]
    split
    · rename_i hindex
      exact h.apply raftGroup reports hindex.1 hindex.2.2
    · exact h
  | snapshot => exact { h with }
  | scan =>
    refine { h with segments := fun e he => ?_, scan_le := le_rfl }
    obtain ⟨records, k, hh, hk, -⟩ := h.segments e he
    exact ⟨records, k, hh, hk, fun hne => absurd (List.mem_map_of_mem he) hne⟩
  | remote records => exact h.acknowledge (subset_append_left _ _) n.healthy
  | follow seq offset =>
    rw [OutboxNode.step]
    split
    · refine h.mapSegment seq (List.Subset.refl _) fun f hf records k hh hk => ?_
      cases hmove : f.acknowledgeTo offset with
      | error err => exact ⟨k, hh, hk⟩
      | ok f' =>
        rcases hh.acknowledgeTo hmove with rfl | ⟨k', -, -, -, hh'⟩
        · exact ⟨k, hh, hk⟩
        · refine ⟨k', hh', fun r hr => hok f hf f' (by rw [hmove]; rfl) r ?_⟩
          rw [hh'.acknowledged]
          exact hr
    · exact h
  | publish seq taken =>
    rw [OutboxNode.step]
    split
    · exact h
    · rename_i f hf
      dsimp only
      split
      · exact h
      · split
        · refine h.mapSegment seq (subset_append_left _ _) fun f' hf' records k hh hk => ?_
          obtain rfl : f = f' := some.inj (hf.symm.trans hf')
          rw [hh.readBatch]
          -- the records of the batch stand behind those that were acknowledged before
          have hbatch : records.take (k + ((records.drop k).take
              (publishBatchSize publishBatch)).length) =
              records.take k ++ (records.drop k).take (publishBatchSize publishBatch) := by
            rw [take_add, length_take, ← take_take, take_length]
          obtain ⟨f₁, hf₁, hh₁⟩ := hh.acknowledge
            (n := ((records.drop k).take (publishBatchSize publishBatch)).length) (by
              have := hh.le
              simp only [length_take, length_drop]
              omega)
          refine ⟨_, by rw [hf₁]; exact hh₁, fun r hr => ?_⟩
          rw [hbatch] at hr
          exact (mem_append.mp hr).elim (fun hr => mem_append_left _ (hk r hr))
            fun hr => mem_append_right _ hr
        · exact h.acknowledge (subset_append_left _ _) false
  | gauge => exact { h with gauge_le := h.scan_le, gauge := h.publishedThrough_of_pending }
  | health healthy => exact { h with }
  | readGauge =>
    exact { h with saw_le := h.gauge_le, saw := fun hs => h.gauge (of_decide_eq_true hs) }
  | readHealth => exact { h with }
  | compact => exact { h with saw := nofun }

end Accounts

section Compaction

variable {raftGroup : UInt32} {publishBatch rotateBytes : Option ℕ} {threshold : ℕ}
variable {n : OutboxNode}

theorem Reachable.accounts (h : Reachable raftGroup publishBatch threshold rotateBytes Timely n) :
    n.Accounts := by
  induction h with
  | fresh => exact accounts_fresh rotateBytes
  | step _ a hok ih => exact ih.step hok

/-- **A timely compaction drops published history only**: in every run where the publisher
follows offsets of acknowledged records and every compaction loads a snapshot that is not newer
than the scan behind the gauge value, everything before the compacted index is acknowledged by
the broker. -/
theorem compaction_published
    (hreach : Reachable raftGroup publishBatch threshold rotateBytes Timely n)
    (htimely : n.Timely .compact) {index : ℕ} (hcompacts : n.Compacts threshold index) :
    n.PublishedThrough index := by
  obtain ⟨-, hsaw, -, rfl, -, -⟩ := hcompacts
  intro r hr hle
  exact hreach.accounts.saw hsaw r hr (hle.trans htimely)

end Compaction

/-! ### A compaction in time and a compaction too early -/

/-- The node after a list of actions, which compacts after every entry. -/
def run (actions : List NodeAction) : OutboxNode :=
  actions.foldl (fun n a => n.step 0 none 1 a) (fresh none)

theorem reachable_run {ok : OutboxNode → NodeAction → Prop} {actions : List NodeAction}
    (hok : ∀ n, ∀ a ∈ actions, ok n a) : Reachable 0 none 1 none ok (run actions) := by
  induction actions using List.reverseRecOn with
  | nil => exact .fresh
  | append_singleton actions a ih =>
    rw [run, foldl_append]
    exact .step (ih fun n a ha => hok n a (mem_append_left _ ha)) a
      (hok _ a (mem_append_right _ mem_cons_self))

/-- The report is appended and published before the gauge is stored. -/
def drainedActions : List NodeAction :=
  [.commit, .apply 1 [sampleReport], .scan, .publish 0 fun _ => true, .health true, .gauge,
    .snapshot, .readGauge, .readHealth]

theorem compaction_published_drained : ∃ n : OutboxNode,
    Reachable 0 none 1 none Timely n ∧ n.Timely .compact ∧ n.Compacts 1 1 ∧
    n.appended = [singleReport 1] ∧ n.PublishedThrough 1 := by
  have hreach : Reachable 0 none 1 none Timely (run drainedActions) := by
    refine reachable_run fun n a ha => ?_
    simp only [drainedActions, mem_cons, not_mem_nil, or_false] at ha
    rcases ha with rfl | rfl | rfl | rfl | rfl | rfl | rfl | rfl | rfl <;> trivial
  have htimely : (run drainedActions).snapshotIndex ≤ (run drainedActions).sawIndex := by
    decide +kernel
  have hcompacts : (run drainedActions).Compacts 1 1 := by decide +kernel
  exact ⟨_, hreach, htimely, hcompacts, by decide +kernel,
    compaction_published hreach htimely hcompacts⟩

/-- The gauge is stored before the report is appended, and read after the snapshot. -/
def staleActions : List NodeAction :=
  [.scan, .gauge, .health true, .commit, .apply 1 [sampleReport], .snapshot, .readGauge,
    .readHealth]

/-- **A stale gauge compacts too early**: the runtime compacts through an entry whose report is
in the outbox and was never sent. -/
theorem stale_gauge_compacts : ∃ n : OutboxNode,
    Reachable 0 none 1 none (fun _ _ => True) n ∧ n.Compacts 1 1 ∧
    n.appended = [singleReport 1] ∧ n.acknowledged = [] ∧ ¬ n.PublishedThrough 1 := by
  have happended : (run staleActions).appended = [singleReport 1] := by decide +kernel
  have hacknowledged : (run staleActions).acknowledged = [] := by decide +kernel
  refine ⟨_, reachable_run fun _ _ _ => trivial, by decide +kernel, happended, hacknowledged,
    fun hpub => ?_⟩
  have hmem := hpub (singleReport 1) (by rw [happended]; exact mem_cons_self) (by decide)
  rw [hacknowledged] at hmem
  cases hmem

end OutboxNode

end TradeCore
