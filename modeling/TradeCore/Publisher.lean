import TradeCore.Segments

/-!
# The Publisher

The publisher of `raft_node.rs` sends the outbox records of a node to the broker, pass after
pass. A pass sorts the segments of the directory by shard and number and looks at the first
segment of every shard: it sends a batch of the records behind its cursor, and moves the cursor
when the broker has taken all of them. The other segments of the shard wait, so that a newer
segment is not published before an older one.

The first segment of a shard is the oldest file that still exists, not the oldest with
something left to send, and published segments are removed at the next rotation only. Until
then, nothing behind a drained segment is published.

## Main results

* `Directory.Oldest.recordsOf_publisherRun` — any number of passes publishes records of the oldest
  segment only, in order.
* `publishes_iff` — passes make progress up to the last record exactly when no segment but
  the oldest one holds an unpublished record.
* `drained_segment_blocks` — a shard on which the publisher is stuck.
-/

open List Option

namespace TradeCore

/-! ### A pass over the directory -/

/-- The segment files of an outbox directory, under their names, as they are listed. -/
abbrev Directory := List (List Char × SegmentFile)

namespace Directory

/-- Write a segment file back. -/
def set (dir : Directory) (stem : List Char) (f : SegmentFile) : Directory :=
  dir.map fun e => if e.1 = stem then (e.1, f) else e

/-- The segments of a shard. -/
def ofShard (dir : Directory) (shard : ℕ) : Directory :=
  dir.filter fun e => (outboxSegmentOrder e.1).any fun order => order.1 = shard

end Directory

/-- The number of records that are sent together. -/
def publishBatchSize (configured : Option ℕ) : ℕ := min (max 1 (configured.getD 4096)) 10000

/-- The place of a segment in a pass. -/
def segmentKey (stem : List Char) : ℕ ×ₗ ℕ :=
  toLex ((outboxSegmentOrder stem).getD (2 ^ 32 - 1, 2 ^ 64 - 1))

/-- The segments that can be read, sorted. -/
def publishPaths (dir : Directory) : List (List Char) :=
  ((dir.filter fun e => e.2.openWithCursor.isOk).map Prod.fst).insertionSort
    fun a b => segmentKey a ≤ segmentKey b

/-- Send the next batch of a segment: the records that the broker has taken, and the segment
afterwards. -/
def SegmentFile.publish (f : SegmentFile) (accepts : List OutboxRecord → Bool) (batchSize : ℕ) :
    List OutboxRecord × SegmentFile :=
  let records := f.readBatch batchSize
  if records ≠ [] ∧ accepts records then
    (records, (f.acknowledge records.length).toOption.getD f)
  else ([], f)

/-- What a pass has done so far: the files, the shards it has looked at, and the batches that
the broker has taken, each with its shard. -/
structure PublisherPass where
  dir : Directory
  visitedShards : List ℕ := []
  batches : List (ℕ × List OutboxRecord) := []

/-- The records of a shard among batches. -/
def recordsOf (shard : ℕ) (batches : List (ℕ × List OutboxRecord)) : List OutboxRecord :=
  (batches.filter fun b => b.1 = shard).flatMap Prod.snd

section Pass

variable (leader : Bool) (accepts : List OutboxRecord → Bool) (batchSize : ℕ)

/-- Visit a segment. -/
def PublisherPass.visit (s : PublisherPass) (stem : List Char) : PublisherPass :=
  match outboxSegmentOrder stem with
  | none => s
  | some (shard, _) =>
    if shard ∈ s.visitedShards then s
    else
      let s := { s with visitedShards := shard :: s.visitedShards }
      match s.dir.lookup stem with
      | none => s
      | some f =>
        if leader then
          let (records, f') := f.publish accepts batchSize
          { s with dir := s.dir.set stem f', batches := s.batches ++ [(shard, records)] }
        else s

/-- One pass. -/
def publisherPass (dir : Directory) : PublisherPass :=
  (publishPaths dir).foldl (PublisherPass.visit leader accepts batchSize) { dir := dir }

/-- Passes with an idle writer: the files they leave, and the batches that the broker took. -/
def publisherRun : ℕ → Directory → Directory × List (ℕ × List OutboxRecord)
  | 0, dir => (dir, [])
  | n + 1, dir =>
    let s := publisherPass leader accepts batchSize dir
    let (dir, batches) := publisherRun n s.dir
    (dir, s.batches ++ batches)

end Pass

/-! ### Directories -/

namespace Directory

variable {dir : Directory} {stem : List Char} {f f' : SegmentFile} {shard : ℕ}

theorem map_fst_set : (dir.set stem f).map Prod.fst = dir.map Prod.fst := by
  rw [set, List.map_map]
  refine map_congr_left fun e _ => ?_
  simp only [Function.comp_apply]
  split <;> rfl

/-- Writing a file back changes the shard of the file only. -/
theorem ofShard_set_of_ne
    (h : (outboxSegmentOrder stem).any (fun order => order.1 = shard) = false) :
    (dir.set stem f).ofShard shard = dir.ofShard shard := by
  have hmap : ∀ e : List Char × SegmentFile,
      (outboxSegmentOrder (if e.1 = stem then (e.1, f) else e).1).any (fun o => o.1 = shard) =
        (outboxSegmentOrder e.1).any fun o => o.1 = shard := by
    intro e
    split <;> rfl
  rw [ofShard, ofShard, set, List.filter_map]
  simp only [Function.comp_def, hmap]
  refine (map_congr_left fun e he => ?_).trans (List.map_id _)
  split
  · rename_i heq
    have hshard := (mem_filter.mp he).2
    rw [heq, h] at hshard
    cases hshard
  · rfl

/-- Writing back a segment of the shard. -/
theorem ofShard_set_perm {rest : Directory} (h : (dir.ofShard shard).Perm ((stem, f) :: rest))
    (hrest : stem ∉ rest.map Prod.fst) :
    ((dir.set stem f').ofShard shard).Perm ((stem, f') :: rest) := by
  have hmap : (dir.set stem f').ofShard shard = (dir.ofShard shard).set stem f' := by
    rw [ofShard, ofShard, set, set, List.filter_map]
    congr 1
    refine filter_congr fun e _ => ?_
    simp only [Function.comp_apply]
    split <;> rfl
  have hkeep : rest.map (fun e => if e.1 = stem then (e.1, f') else e) = rest := by
    refine (map_congr_left fun e he => ?_).trans (List.map_id _)
    exact if_neg fun heq : e.1 = stem => hrest (heq ▸ List.mem_map_of_mem he)
  rw [hmap]
  refine (h.map _).trans ?_
  rw [map_cons, if_pos rfl, hkeep]

end Directory

@[simp] theorem recordsOf_append (shard : ℕ) (bs bs' : List (ℕ × List OutboxRecord)) :
    recordsOf shard (bs ++ bs') = recordsOf shard bs ++ recordsOf shard bs' := by
  rw [recordsOf, filter_append, flatMap_append]
  rfl

/-! ### What a pass does for a shard -/

section Visit

variable {leader : Bool} {accepts : List OutboxRecord → Bool} {batchSize shard : ℕ}
variable {s : PublisherPass} {stem : List Char}

/-- A pass keeps the names of the files. -/
theorem map_fst_visit : (s.visit leader accepts batchSize stem).dir.map Prod.fst =
    s.dir.map Prod.fst := by
  rw [PublisherPass.visit]
  split
  · rfl
  · split
    · rfl
    · dsimp only
      split
      · rfl
      · split
        · exact Directory.map_fst_set
        · rfl

theorem map_fst_foldl_visit (stems : List (List Char)) (s : PublisherPass) :
    (stems.foldl (PublisherPass.visit leader accepts batchSize) s).dir.map Prod.fst =
      s.dir.map Prod.fst := by
  induction stems generalizing s with
  | nil => rfl
  | cons stem stems ih => rw [foldl_cons, ih, map_fst_visit]

/-- Two states of a pass agree on a shard. -/
def PublisherPass.SameOn (shard : ℕ) (s s' : PublisherPass) : Prop :=
  s'.dir.ofShard shard = s.dir.ofShard shard ∧
    recordsOf shard s'.batches = recordsOf shard s.batches ∧
    (shard ∈ s'.visitedShards ↔ shard ∈ s.visitedShards)

/-- Visiting a segment of another shard, or of a shard that has been looked at, does nothing
for the shard. -/
theorem visit_sameOn (h : (outboxSegmentOrder stem).any (fun order => order.1 = shard) = false ∨
    shard ∈ s.visitedShards) : s.SameOn shard (s.visit leader accepts batchSize stem) := by
  rw [PublisherPass.visit]
  cases horder : outboxSegmentOrder stem with
  | none => exact ⟨rfl, rfl, Iff.rfl⟩
  | some order =>
    obtain ⟨shard', seq⟩ := order
    dsimp only
    split
    · exact ⟨rfl, rfl, Iff.rfl⟩
    · rename_i hnew
      have hne : shard' ≠ shard := by
        rintro rfl
        rcases h with h | h
        · rw [horder, any_some, decide_eq_false_iff_not] at h
          exact h rfl
        · exact hnew h
      have hvisited : shard ∈ shard' :: s.visitedShards ↔ shard ∈ s.visitedShards := by
        rw [mem_cons, or_iff_right hne.symm]
      split
      · exact ⟨rfl, rfl, hvisited⟩
      · split
        · refine ⟨Directory.ofShard_set_of_ne ?_, ?_, hvisited⟩
          · rw [horder, any_some, decide_eq_false_iff_not]
            exact hne
          · rw [recordsOf_append, recordsOf, recordsOf, filter_cons_of_neg (by simpa using hne)]
            exact append_nil _
        · exact ⟨rfl, rfl, hvisited⟩

theorem foldl_visit_sameOn {stems : List (List Char)} (s : PublisherPass)
    (h : (∀ stem ∈ stems, (outboxSegmentOrder stem).any (fun order => order.1 = shard) = false) ∨
      shard ∈ s.visitedShards) :
    s.SameOn shard (stems.foldl (PublisherPass.visit leader accepts batchSize) s) := by
  induction stems generalizing s with
  | nil => exact ⟨rfl, rfl, Iff.rfl⟩
  | cons stem stems ih =>
    have hvisit := @visit_sameOn leader accepts batchSize shard s stem
      (h.imp_left fun h => h stem mem_cons_self)
    have hrest := ih (s.visit leader accepts batchSize stem)
      (h.imp (fun h stem' hmem => h stem' (mem_cons_of_mem _ hmem)) hvisit.2.2.mpr)
    exact ⟨hrest.1.trans hvisit.1, hrest.2.1.trans hvisit.2.1, hrest.2.2.trans hvisit.2.2⟩

end Visit

/-- The files of a shard in a directory: the oldest segment, and others with larger numbers. -/
structure Directory.Oldest (dir : Directory) (shard seq : ℕ) (f : SegmentFile)
    (rest : Directory) : Prop where
  names : (dir.map Prod.fst).Nodup
  perm : (dir.ofShard shard).Perm ((segmentStem shard seq, f) :: rest)
  order : outboxSegmentOrder (segmentStem shard seq) = some (shard, seq)
  later : ∀ e ∈ rest, ∃ seq', seq < seq' ∧ outboxSegmentOrder e.1 = some (shard, seq')

namespace Directory.Oldest

variable {dir : Directory} {shard seq : ℕ} {f : SegmentFile} {rest : Directory}
  {records : List OutboxRecord} {torn : List UInt8} {published : ℕ}

/-- Sending a batch of a segment moves it past the batch. -/
theorem publish (hf : f.Holds records torn published) (batchSize : ℕ) :
    ∃ f', f.publish (fun _ => true) batchSize = ((records.drop published).take batchSize, f') ∧
      f'.Holds records torn (published + ((records.drop published).take batchSize).length) := by
  rw [SegmentFile.publish, hf.readBatch]
  split
  · have hle : published + ((records.drop published).take batchSize).length ≤ records.length := by
      have := hf.le
      rw [length_take, length_drop]
      omega
    obtain ⟨f', hack, hf'⟩ := hf.acknowledge hle
    exact ⟨f', by rw [hack]; rfl, hf'⟩
  · rename_i hnil
    have hnil' : (records.drop published).take batchSize = [] := by
      by_contra hne
      exact hnil ⟨hne, rfl⟩
    refine ⟨f, by rw [hnil'], ?_⟩
    rw [hnil']
    exact hf

theorem of_sameOn {s s' : PublisherPass} (h : s.dir.Oldest shard seq f rest)
    (hsame : s.SameOn shard s') (hnames : s'.dir.map Prod.fst = s.dir.map Prod.fst) :
    s'.dir.Oldest shard seq f rest where
  names := by
    rw [hnames]
    exact h.names
  perm := by
    rw [hsame.1]
    exact h.perm
  order := h.order
  later := h.later

variable (h : dir.Oldest shard seq f rest)
include h

theorem mem : (segmentStem shard seq, f) ∈ dir :=
  (mem_filter.mp (h.perm.mem_iff.mpr mem_cons_self)).1

theorem not_mem_rest : segmentStem shard seq ∉ rest.map Prod.fst := by
  intro hmem
  obtain ⟨e, he, heq⟩ := List.mem_map.mp hmem
  obtain ⟨seq', hlt, horder⟩ := h.later e he
  rw [heq, h.order] at horder
  exact hlt.ne (Prod.mk.inj (some.inj horder)).2

/-- No segment of the shard stands before its oldest one in a pass. -/
theorem publishPaths_eq (hopen : f.openWithCursor = .ok ()) :
    ∃ l₁ l₂, publishPaths dir = l₁ ++ segmentStem shard seq :: l₂ ∧
      ∀ stem ∈ l₁, (outboxSegmentOrder stem).any (fun order => order.1 = shard) = false := by
  have hperm := perm_insertionSort (fun a b => segmentKey a ≤ segmentKey b)
    ((dir.filter fun e => e.2.openWithCursor.isOk).map Prod.fst)
  have hnodup : (publishPaths dir).Nodup :=
    hperm.nodup_iff.mpr (h.names.sublist ((filter_sublist).map _))
  have hsorted : (publishPaths dir).Pairwise fun a b => segmentKey a ≤ segmentKey b := by
    have htotal : Std.Total fun a b : List Char => segmentKey a ≤ segmentKey b :=
      ⟨fun a b => le_total _ _⟩
    have htrans : IsTrans (List Char) fun a b => segmentKey a ≤ segmentKey b :=
      ⟨fun a b c => le_trans⟩
    exact pairwise_insertionSort _ _
  have hmem : segmentStem shard seq ∈ publishPaths dir := by
    refine hperm.mem_iff.mpr (List.mem_map.mpr ⟨_, mem_filter.mpr ⟨h.mem, ?_⟩, rfl⟩)
    simp only [hopen]
    rfl
  obtain ⟨l₁, l₂, hsplit⟩ := append_of_mem hmem
  refine ⟨l₁, l₂, hsplit, fun stem hstem => ?_⟩
  rw [hsplit, pairwise_append] at hsorted
  have hle := hsorted.2.2 stem hstem _ mem_cons_self
  by_contra hany
  rw [Bool.not_eq_false] at hany
  -- a segment of the shard in front of its oldest one would have a smaller number
  have hin : stem ∈ (dir.ofShard shard).map Prod.fst := by
    have hpaths : stem ∈ publishPaths dir := hsplit ▸ mem_append_left _ hstem
    obtain ⟨e, he, rfl⟩ := List.mem_map.mp (hperm.mem_iff.mp hpaths)
    exact List.mem_map_of_mem (mem_filter.mpr ⟨(mem_filter.mp he).1, hany⟩)
  rw [(h.perm.map Prod.fst).mem_iff, map_cons, mem_cons] at hin
  rcases hin with rfl | hin
  · rw [hsplit, nodup_append] at hnodup
    exact hnodup.2.2 _ hstem _ mem_cons_self rfl
  · obtain ⟨e, he, rfl⟩ := List.mem_map.mp hin
    obtain ⟨seq', hlt, horder⟩ := h.later e he
    rw [segmentKey, segmentKey, horder, h.order, getD_some, getD_some,
      Prod.Lex.toLex_le_toLex] at hle
    rcases hle with hle | ⟨-, hle⟩
    · exact hle.ne rfl
    · exact hlt.not_ge hle

theorem set (f' : SegmentFile) : (dir.set (segmentStem shard seq) f').Oldest shard seq f' rest where
  names := by
    rw [Directory.map_fst_set]
    exact h.names
  perm := ofShard_set_perm h.perm h.not_mem_rest
  order := h.order
  later := h.later

/-- **A pass sends a batch of the oldest segment** and nothing else of the shard. -/
theorem of_publisherPass (hf : f.Holds records torn published) (batchSize : ℕ) :
    ∃ f', (publisherPass true (fun _ => true) batchSize dir).dir.Oldest shard seq f' rest ∧
      f'.Holds records torn (published + ((records.drop published).take batchSize).length) ∧
      recordsOf shard (publisherPass true (fun _ => true) batchSize dir).batches =
        (records.drop published).take batchSize := by
  obtain ⟨l₁, l₂, hpaths, hl₁⟩ := h.publishPaths_eq hf.openWithCursor
  obtain ⟨f', hpublish, hf'⟩ := publish hf batchSize
  -- the segments before the oldest one belong to other shards
  have hsame :=
    @foldl_visit_sameOn true (fun _ => true) batchSize shard l₁ { dir := dir } (.inl hl₁)
  have hnames := @map_fst_foldl_visit true (fun _ => true) batchSize l₁ { dir := dir }
  set s := l₁.foldl (PublisherPass.visit true (fun _ => true) batchSize) { dir := dir }
  have hold : s.dir.Oldest shard seq f rest :=
    @of_sameOn shard seq f rest { dir := dir } s h hsame hnames
  have hnew : shard ∉ s.visitedShards := fun hmem => nomatch hsame.2.2.mp hmem
  have hvisit : s.visit true (fun _ => true) batchSize (segmentStem shard seq) =
      { dir := s.dir.set (segmentStem shard seq) f'
        visitedShards := shard :: s.visitedShards
        batches := s.batches ++ [(shard, (records.drop published).take batchSize)] } := by
    rw [PublisherPass.visit, hold.order]
    simp only [hnew, if_false, lookup_of_mem hold.names hold.mem, hpublish, if_true]
  have hlast : publisherPass true (fun _ => true) batchSize dir =
      l₂.foldl (PublisherPass.visit true (fun _ => true) batchSize)
        (s.visit true (fun _ => true) batchSize (segmentStem shard seq)) := by
    rw [publisherPass, hpaths, foldl_append, foldl_cons]
  rw [hlast, hvisit]
  have hsame₂ := @foldl_visit_sameOn true (fun _ => true) batchSize shard l₂
    { dir := s.dir.set (segmentStem shard seq) f'
      visitedShards := shard :: s.visitedShards
      batches := s.batches ++ [(shard, (records.drop published).take batchSize)] }
    (.inr mem_cons_self)
  refine ⟨f', of_sameOn (hold.set f') hsame₂ (map_fst_foldl_visit l₂ _), hf', ?_⟩
  rw [hsame₂.2.1, recordsOf_append, hsame.2.1]
  simp [recordsOf]

/-- **Any number of passes publishes the oldest segment in order**, and nothing else of the
shard. -/
theorem recordsOf_publisherRun (hf : f.Holds records torn published) (batchSize n : ℕ) :
    recordsOf shard (publisherRun true (fun _ => true) batchSize n dir).2 =
      (records.drop published).take (n * batchSize) := by
  induction n generalizing dir f published with
  | zero =>
    rw [zero_mul, take_zero]
    rfl
  | succ n ih =>
    obtain ⟨f', hold, hf', hrecords⟩ := h.of_publisherPass hf batchSize
    have hdrop : (records.drop published).drop ((records.drop published).take batchSize).length =
        (records.drop published).drop batchSize := by
      rw [length_take]
      rcases le_total batchSize (records.drop published).length with hle | hle
      · rw [Nat.min_eq_left hle]
      · rw [Nat.min_eq_right hle, drop_length, drop_of_length_le hle]
    rw [publisherRun, recordsOf_append, hrecords, ih hold hf', Nat.succ_mul,
      add_comm (n * batchSize), take_add, ← drop_drop, hdrop]

end Directory.Oldest

/-! ### Progress -/

/-- The complete records of an outbox that are not published, oldest first. -/
def ShardOutbox.unpublished (o : ShardOutbox) : List OutboxRecord :=
  o.segments.flatMap fun e => e.2.unpublished

/-- The publisher gets ahead with an outbox: a pass publishes the oldest records first, and
something if something is left, and some number of passes publishes everything. The node is
leader and the broker takes every batch. -/
structure Publishes (batchSize : ℕ) (dir : Directory) (o : ShardOutbox) : Prop where
  oldest : recordsOf o.shard (publisherPass true (fun _ => true) batchSize dir).batches <+:
    o.unpublished
  progress : o.unpublished ≠ [] →
    recordsOf o.shard (publisherPass true (fun _ => true) batchSize dir).batches ≠ []
  eventually : ∃ n, recordsOf o.shard (publisherRun true (fun _ => true) batchSize n dir).2 =
    o.unpublished

/-- A directory that lists the files of an outbox, among others. -/
theorem ShardOutbox.Tidy.oldest {o : ShardOutbox} (h : o.Tidy) {dir : Directory}
    (hnames : (dir.map Prod.fst).Nodup) (hdir : (dir.ofShard o.shard).Perm o.files) :
    ∃ e segments, o.segments = e :: segments ∧
      dir.Oldest o.shard e.1 e.2 (segments.map fun e => (segmentStem o.shard e.1, e.2)) ∧
      ∃ records torn published, e.2.Holds records torn published := by
  have hlt : ∀ e ∈ o.segments, e.1 < 2 ^ 64 := fun e he =>
    ((le_active h.ascending he).trans_lt h.active_lt).trans h.next
  have hholds : ∀ e ∈ o.segments, ∃ records torn published, e.2.Holds records torn published := by
    intro e he
    rcases mem_append.mp he with he | he
    · obtain ⟨records, published, hh⟩ := h.older e he
      exact ⟨records, [], published, hh⟩
    · obtain ⟨records, torn, -, published, hh, -⟩ := h.active
      rw [mem_singleton.mp he]
      exact ⟨records, torn, published, hh⟩
  have hasc := h.ascending
  rw [files] at hdir
  cases hseg : o.segments with
  | nil => exact absurd hseg (append_ne_nil_of_right_ne_nil _ (cons_ne_nil _ _))
  | cons e segments =>
    rw [hseg] at hasc hdir hlt hholds
    rw [map_cons, pairwise_cons] at hasc
    refine ⟨e, segments, rfl, ⟨hnames, hdir, ?_, ?_⟩, hholds e mem_cons_self⟩
    · exact outboxSegmentOrder_segmentStem h.shard (hlt e mem_cons_self)
    · intro e' he'
      obtain ⟨e₁, he₁, rfl⟩ := List.mem_map.mp he'
      exact ⟨e₁.1, hasc.1 e₁.1 (List.mem_map_of_mem he₁),
        outboxSegmentOrder_segmentStem h.shard (hlt e₁ (mem_cons_of_mem _ he₁))⟩

/-- **The publisher gets ahead exactly when nothing waits behind the oldest segment**: for
every history of an outbox, in every directory that lists its files. -/
theorem publishes_iff {o : ShardOutbox} (h : o.Reachable) {dir : Directory}
    (hnames : (dir.map Prod.fst).Nodup) (hdir : (dir.ofShard o.shard).Perm o.files)
    (configured : Option ℕ) :
    Publishes (publishBatchSize configured) dir o ↔
      ∀ e ∈ o.segments.tail, e.2.unpublished = [] := by
  obtain ⟨e, segments, hseg, hold, records, torn, published, hh⟩ := h.tidy.oldest hnames hdir
  have hsize : 0 < publishBatchSize configured := by
    rw [publishBatchSize]
    omega
  obtain ⟨-, -, -, hpass⟩ := hold.of_publisherPass hh (publishBatchSize configured)
  have hrun := hold.recordsOf_publisherRun hh (publishBatchSize configured)
  have hall :
      o.unpublished = records.drop published ++ segments.flatMap fun e => e.2.unpublished := by
    rw [ShardOutbox.unpublished, hseg, flatMap_cons, hh.unpublished]
  rw [hseg, tail_cons]
  constructor
  · rintro ⟨-, -, n, heventually⟩
    -- nothing but the oldest segment is ever published
    rw [hrun, hall] at heventually
    have hlen := congrArg List.length heventually
    rw [length_append, length_take] at hlen
    have hnil : segments.flatMap (fun e => e.2.unpublished) = [] :=
      length_eq_zero_iff.mp (by omega)
    exact fun e he => flatMap_eq_nil_iff.mp hnil e he
  · intro hrest
    have hnil : segments.flatMap (fun e => e.2.unpublished) = [] :=
      flatMap_eq_nil_iff.mpr hrest
    rw [hnil, append_nil] at hall
    refine ⟨?_, fun hne => ?_, records.length, ?_⟩
    · rw [hpass, hall]
      exact take_prefix _ _
    · rw [hpass, ne_eq, take_eq_nil_iff, not_or]
      exact ⟨hsize.ne', hall ▸ hne⟩
    · rw [hrun, hall, take_of_length_le]
      rw [length_drop]
      exact (Nat.sub_le _ _).trans (Nat.le_mul_of_pos_right _ hsize)

/-- An outbox with one record in its only segment. -/
def onePending : ShardOutbox :=
  ((ShardOutbox.fresh 0 none).appendDeferred (singleReport 1)).drain OUTBOX_RECORD_LEN

theorem publishes_iff_onePending : Publishes (publishBatchSize none) onePending.files onePending :=
  (publishes_iff (.drain (.append (.fresh (by decide) none) _) _) (by decide +kernel)
    (by decide +kernel) none).mpr (by decide +kernel)

/-- Two batches with one report each, a rotation between them, and the first one published. -/
def drainedOldest : ShardOutbox :=
  ((((ShardOutbox.fresh 0 (some 88)).appendDeferred (singleReport 1)).maybeRotate.appendDeferred
    (singleReport 2)).drain OUTBOX_RECORD_LEN).mapSegment 0 fun f =>
      (f.acknowledge 1).toOption.getD f

/-- **A drained segment blocks its shard**: the record of the second batch is complete in its
segment, and no number of passes publishes it. -/
theorem drained_segment_blocks : drainedOldest.Reachable ∧
    drainedOldest.unpublished = [singleReport 2] ∧
    ∀ n, recordsOf 0
      (publisherRun true (fun _ => true) (publishBatchSize none) n drainedOldest.files).2 = [] := by
  have hreach : drainedOldest.Reachable :=
    .acknowledge (.drain (.append
      (.rotate (.append (.fresh (by decide) _) _) (by decide +kernel)) _) _) 0 1
  refine ⟨hreach, by decide +kernel, fun n => ?_⟩
  obtain ⟨e, segments, hseg, hold, records, torn, published, hh⟩ :=
    @ShardOutbox.Tidy.oldest _ hreach.tidy drainedOldest.files (by decide +kernel)
      (by decide +kernel)
  have hdrained : e.2.unpublished = [] := by
    have hhead : drainedOldest.segments.head?.map (fun e => e.2.unpublished) = some [] := by
      decide +kernel
    rw [hseg] at hhead
    exact some.inj hhead
  rw [hh.unpublished] at hdrained
  have hrun := hold.recordsOf_publisherRun hh (publishBatchSize none) n
  rw [hdrained, take_nil] at hrun
  exact hrun

end TradeCore
