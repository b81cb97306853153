import TradeCore.RouteControl

/-!
# Forwarding and the Migration Fence

The path from a consumed Kafka batch to a Raft group (`order_api.rs`): `RaftForwarder::submit`
asks the control plane for each record whether its category is accepted and which group it
belongs to, and afterwards hands one job to the queue of each group; a worker per group takes
jobs from its queue and sends their batches. All of this runs next to the callers of the control
plane, one lock acquisition or channel operation at a time.

A `begin` does not wait for batches on their way: the operator lets the pipeline drain before
the freeze index is captured (`freeze_migration`).

* `Forwarding.step` — one step of a caller, of a `submit` or of a worker.
* `Drained` — `frozen` is called for a category only when nothing carries its frames any more.
* `forwarding_fenced` — if so, frames are handed to a queue and sent to a group only while the
  group owns their category and the category is not beyond `Freezing`; and when a category
  moves, nothing carries its frames.
* `handed_during_freeze` — frames are handed over after a `begin`; if the operator does not wait,
  also after `activate`, to the old group.
-/

open Std Interleaving List Option

namespace TradeCore

/-- The bytes of a command. -/
abbrev CommandBytes := List UInt8

/-- The part of a consumed record that the forwarder reads. -/
structure KafkaRecord where
  categoryId : ℕ
  frame : CommandBytes
  deriving DecidableEq

def raftBatchMaxCommands : ℕ := 10000

/-- A job for the worker of a group: batches of frames, with the category that each batch is of,
and the channel for the reply. -/
structure RaftForwardJob where
  batches : List (ℕ × List CommandBytes)
  reply : ℕ
  deriving DecidableEq

/-- The frames of a `submit` by group and category. -/
abbrev Grouped := List (ExtTreeMap ℕ (List CommandBytes))

def Grouped.push (grouped : Grouped) (group category : ℕ) (frame : CommandBytes) : Grouped :=
  grouped.modify group fun categories =>
    categories.insert category (categories.getD category [] ++ [frame])

/-- The batches of the categories of one group. -/
def batchesOf (categories : ExtTreeMap ℕ (List CommandBytes)) : List (ℕ × List CommandBytes) :=
  categories.toList.flatMap fun e =>
    (e.2.toChunks raftBatchMaxCommands).map fun chunk => (e.1, chunk)

/-- The groups with frames, with the batches of their jobs. -/
def jobsOf (grouped : Grouped) : List (ℕ × List (ℕ × List CommandBytes)) :=
  (grouped.zipIdx.filter fun e => !e.1.isEmpty).map fun e => (e.2, batchesOf e.1)

/-- Where a `submit` stands. -/
inductive ForwardPc
  | returned (result : Except String Unit)
  /-- `accepts` comes next for a record. -/
  | checking (record : KafkaRecord) (rest : List KafkaRecord) (grouped : Grouped)
  /-- The record is accepted and `group_for` comes next. -/
  | looking (record : KafkaRecord) (rest : List KafkaRecord) (grouped : Grouped)
  /-- Jobs are handed to their queues, and then the replies are awaited. -/
  | sending (jobs : List (ℕ × List (ℕ × List CommandBytes))) (replies : List ℕ)

/-- The loop over the records. -/
def ForwardPc.next : List KafkaRecord → Grouped → ForwardPc
  | [], grouped => .sending (jobsOf grouped) []
  | record :: rest, grouped => .checking record rest grouped

/-- Where a worker stands. -/
inductive WorkerPc
  | waiting
  | working (batches : List (ℕ × List CommandBytes)) (reply : ℕ)
  | stopped

inductive ForwardPlace
  | caller (pc : RoutePc)
  | forwarder (pc : ForwardPc)
  | worker (group : ℕ) (pc : WorkerPc)

/-- What a step reads from outside: the call that a caller starts, the records of a `submit`,
the outcome of sending a batch to a group, a panic in the thread of a worker. -/
inductive ForwardInput
  | call (call : RouteCall)
  | submit (records : List KafkaRecord)
  | sent (result : Except String Unit)
  | died

/-- The control plane, the queues of the groups and their capacity, the groups whose worker has
stopped, the replies of the workers by channel (`none` if the channel was dropped without one),
and the batches that were sent to the groups, newest first. -/
structure Forwarding (ι : Type) where
  control : Control ι
  queues : List (List RaftForwardJob)
  capacity : ℕ
  stopped : List ℕ
  channels : ℕ
  replies : ExtTreeMap ℕ (Option (Except String Unit))
  delivered : List (ℕ × ℕ × List CommandBytes)

namespace Forwarding

variable {ι : Type}

/-- A step of `submit`. It waits at `accepts` while a caller holds the migrations, at a full
queue, and for a reply. A group without a queue would be a panic. -/
def submit (s : Forwarding ι) : ForwardPc → ForwardInput → Option (Forwarding ι × ForwardPc)
  | .returned _, .submit records =>
    if s.queues.isEmpty then some (s, .returned (.error "no Raft groups configured"))
    else some (s, .next records (List.replicate s.queues.length ∅))
  | .checking record rest grouped, _ =>
    if s.control.holder.isSome then none
    else if s.control.plane.accepts record.categoryId then some (s, .looking record rest grouped)
    else some (s, .returned (.error
      ("category " ++ toString record.categoryId ++ " is frozen for migration")))
  | .looking record rest grouped, _ =>
    let group := s.control.plane.groupFor record.categoryId
    if group < grouped.length then
      some (s, .next rest (grouped.push group record.categoryId record.frame))
    else none
  | .sending ((group, batches) :: jobs) replies, _ =>
    match s.queues[group]? with
    | none => none
    | some queue =>
      if group ∈ s.stopped then
        some (s, .returned (.error
          ("Raft group " ++ toString group ++ " forwarding worker stopped")))
      else if queue.length < s.capacity then
        some ({ s with
          queues := s.queues.set group (queue ++ [⟨batches, s.channels⟩])
          channels := s.channels + 1 }, .sending jobs (replies ++ [s.channels]))
      else none
  | .sending [] [], _ => some (s, .returned (.ok ()))
  | .sending [] (reply :: replies), _ =>
    match s.replies[reply]? with
    | none => none
    | some none =>
      some (s, .returned (.error "Raft forwarding worker dropped acknowledgement"))
    | some (some (.ok _)) => some (s, .sending [] replies)
    | some (some (.error e)) => some (s, .returned (.error e))
  | _, _ => none

/-- The thread of a worker ends. Its end of the queue goes with it, and so do the jobs there and
the channels of their replies. -/
def stop (s : Forwarding ι) (group reply : ℕ) : Forwarding ι :=
  let dropped := reply :: (s.queues.getD group []).map RaftForwardJob.reply
  { s with
    queues := s.queues.set group []
    stopped := group :: s.stopped
    replies := dropped.foldl (fun replies r => replies.insert r none) s.replies }

/-- A step of the worker of a group: take a job, send its next batch, or reply. A batch that
fails, or in which the thread ends, may still have reached the group; the rest of the job is not
sent. -/
def work (s : Forwarding ι) (group : ℕ) : WorkerPc → ForwardInput →
    Option (Forwarding ι × WorkerPc)
  | .waiting, _ =>
    match s.queues[group]? with
    | some (job :: queue) =>
      some ({ s with queues := s.queues.set group queue }, .working job.batches job.reply)
    | _ => none
  | .working [] reply, _ =>
    some ({ s with replies := s.replies.insert reply (some (.ok ())) }, .waiting)
  | .working ((category, frames) :: batches) reply, .sent result =>
    let s := { s with delivered := (group, category, frames) :: s.delivered }
    match result with
    | .ok _ => some (s, .working batches reply)
    | .error e =>
      some ({ s with replies := s.replies.insert reply (some (.error
        ("Raft group " ++ toString group ++ " batch commit failed: " ++ e))) }, .waiting)
  | .working ((category, frames) :: _) reply, .died =>
    some (stop { s with delivered := (group, category, frames) :: s.delivered } group reply,
      .stopped)
  | _, _ => none

/-- One step of one thread. -/
def step (i : ι) (s : Forwarding ι) : ForwardPlace → ForwardInput →
    Option (Forwarding ι × ForwardPlace)
  | .caller pc, .call call =>
    (s.control.step i pc call).map fun r => ({ s with control := r.1 }, .caller r.2)
  | .caller _, _ => none
  | .forwarder pc, input => (s.submit pc input).map fun r => (r.1, .forwarder r.2)
  | .worker group pc, input => (s.work group pc input).map fun r => (r.1, .worker group r.2)

/-- No thread has begun a call, and the queues are empty. -/
def start (plane : RouteControlPlane) (groups capacity : ℕ) (roles : ι → ForwardPlace) :
    Config ι (Forwarding ι) ForwardPlace :=
  ⟨⟨⟨plane, none, []⟩, List.replicate groups [], capacity, [], 0, ∅, []⟩, roles⟩

end Forwarding

/-- A thread that has begun no call. -/
def ForwardPlace.AtRest : ForwardPlace → Prop
  | .caller pc => pc = .idle
  | .forwarder pc => pc = .returned (.ok ())
  | .worker _ pc => pc = .waiting

/-! ### What is on its way -/

def Grouped.carried (grouped : Grouped) : List (ℕ × ℕ) :=
  grouped.zipIdx.flatMap fun e => e.1.keys.map fun category => (e.2, category)

def carriedBatches (group : ℕ) (batches : List (ℕ × List CommandBytes)) : List (ℕ × ℕ) :=
  batches.map fun batch => (group, batch.1)

/-- The groups and categories of the frames that a thread is about to hand over or to send. -/
def ForwardPlace.carried : ForwardPlace → List (ℕ × ℕ)
  | .forwarder (.checking _ _ grouped) | .forwarder (.looking _ _ grouped) => grouped.carried
  | .forwarder (.sending jobs _) => jobs.flatMap fun job => carriedBatches job.1 job.2
  | .worker group (.working batches _) => carriedBatches group batches
  | _ => []

/-- The category of the record that was accepted and has no group yet. -/
def ForwardPlace.accepted : ForwardPlace → Option ℕ
  | .forwarder (.looking record _ _) => some record.categoryId
  | _ => none

/-- The groups and categories of the frames in the queues. -/
def Forwarding.queued {ι : Type} (s : Forwarding ι) : List (ℕ × ℕ) :=
  s.queues.zipIdx.flatMap fun e => e.1.flatMap fun job => carriedBatches e.2 job.batches

/-- Nothing carries frames of a category: no `submit` has accepted one that it has not handed
over, no queue has one and no worker has one to send. -/
def Forwarding.Clear {ι : Type} (c : Config ι (Forwarding ι) ForwardPlace) (category : ℕ) : Prop :=
  (∀ j, (c.threads j).accepted ≠ some category ∧
    ∀ e ∈ (c.threads j).carried, e.2 ≠ category) ∧
  ∀ e ∈ c.shared.queued, e.2 ≠ category

/-- The category that a caller is about to freeze. -/
def ForwardPlace.freezes : ForwardPlace → ForwardInput → Option ℕ
  | .caller .idle, .call (.frozen category _) => some category
  | _, _ => none

/-- The pipeline of a category has drained when it is frozen. -/
def Forwarding.Drained {ι : Type} (c : Config ι (Forwarding ι) ForwardPlace) (i : ι)
    (input : ForwardInput) : Prop :=
  ∀ category ∈ (c.threads i).freezes input, Forwarding.Clear c category

variable {grouped : Grouped} {e : ℕ × ℕ}

theorem Grouped.mem_carried :
    e ∈ grouped.carried ↔ ∃ categories, grouped[e.1]? = some categories ∧ e.2 ∈ categories := by
  simp only [carried, mem_flatMap, List.mem_map, ExtTreeMap.mem_keys]
  constructor
  · rintro ⟨⟨categories, g⟩, hmem, category, hcategory, rfl⟩
    exact ⟨categories, mk_mem_zipIdx_iff_getElem?.mp hmem, hcategory⟩
  · rintro ⟨categories, hget, hcategory⟩
    exact ⟨(categories, e.1), mk_mem_zipIdx_iff_getElem?.mpr hget, e.2, hcategory, rfl⟩

theorem Grouped.mem_carried_push {group category : ℕ} {frame : CommandBytes}
    (h : e ∈ (grouped.push group category frame).carried) :
    e ∈ grouped.carried ∨ e = (group, category) := by
  obtain ⟨categories, hget, hmem⟩ := mem_carried.mp h
  rw [push, getElem?_modify] at hget
  obtain ⟨old, hold, hnew⟩ := map_eq_some_iff.mp hget
  split at hnew
  case isTrue hgroup =>
    subst hnew
    rw [ExtTreeMap.mem_insert] at hmem
    obtain heq | hmem := hmem
    · right
      rw [Std.compare_eq_iff_eq] at heq
      rw [hgroup, heq]
    · exact .inl (mem_carried.mpr ⟨old, hold, hmem⟩)
  case isFalse =>
    obtain rfl : old = categories := hnew
    exact .inl (mem_carried.mpr ⟨old, hold, hmem⟩)

theorem Grouped.not_mem_carried_replicate {n : ℕ} :
    e ∉ carried (List.replicate n ∅) := by
  intro h
  obtain ⟨categories, hget, hmem⟩ := mem_carried.mp h
  rw [getElem?_replicate] at hget
  split at hget
  · cases hget
    exact ExtTreeMap.not_mem_empty hmem
  · cases hget

theorem mem_carried_jobsOf
    (h : e ∈ (jobsOf grouped).flatMap fun job => carriedBatches job.1 job.2) :
    e ∈ grouped.carried := by
  simp only [jobsOf, carriedBatches, mem_flatMap, List.mem_map, mem_filter] at h
  obtain ⟨-, ⟨⟨categories, g⟩, ⟨hmem, -⟩, rfl⟩, batch, hbatch, rfl⟩ := h
  obtain ⟨⟨category, frames⟩, hframes, hchunk⟩ := mem_flatMap.mp hbatch
  obtain ⟨chunk, -, rfl⟩ := List.mem_map.mp hchunk
  refine Grouped.mem_carried.mpr ⟨categories, mk_mem_zipIdx_iff_getElem?.mp hmem, ?_⟩
  rw [ExtTreeMap.mem_toList_iff_getElem?_eq_some] at hframes
  exact ExtTreeMap.mem_iff_isSome_getElem?.mpr (isSome_of_eq_some hframes)

/-- The frames that a `submit` carries into its next record are those it has grouped. -/
theorem ForwardPlace.mem_carried_next {records : List KafkaRecord}
    (h : e ∈ (ForwardPlace.forwarder (.next records grouped)).carried) :
    e ∈ grouped.carried := by
  cases records with
  | nil => exact mem_carried_jobsOf h
  | cons record rest => exact h

theorem ForwardPlace.accepted_next (records : List KafkaRecord) (grouped : Grouped) :
    (ForwardPlace.forwarder (.next records grouped)).accepted = none := by
  cases records <;> rfl

namespace Forwarding

variable {ι : Type} {s s' : Forwarding ι}

theorem mem_queued {e : ℕ × ℕ} :
    e ∈ s.queued ↔ ∃ queue, s.queues[e.1]? = some queue ∧
      ∃ job ∈ queue, e ∈ carriedBatches e.1 job.batches := by
  simp only [queued, mem_flatMap]
  constructor
  · rintro ⟨⟨queue, g⟩, hmem, job, hjob, he⟩
    obtain ⟨batch, hbatch, rfl⟩ := List.mem_map.mp he
    exact ⟨queue, mk_mem_zipIdx_iff_getElem?.mp hmem, job, hjob, he⟩
  · rintro ⟨queue, hget, job, hjob, he⟩
    exact ⟨(queue, e.1), mk_mem_zipIdx_iff_getElem?.mpr hget, job, hjob, he⟩

/-- What is queued after a queue was replaced. -/
theorem mem_queued_set {g : ℕ} {queue : List RaftForwardJob} {e : ℕ × ℕ}
    (hqueues : s'.queues = s.queues.set g queue) (h : e ∈ s'.queued) :
    e ∈ s.queued ∨ (e.1 = g ∧ ∃ job ∈ queue, e ∈ carriedBatches g job.batches) := by
  obtain ⟨queue', hget, hjob⟩ := mem_queued.mp h
  rw [hqueues, getElem?_set] at hget
  split at hget
  case isTrue hg =>
    split at hget
    · cases hget
      subst hg
      exact .inr ⟨rfl, hjob⟩
    · cases hget
  case isFalse => exact .inl (mem_queued.mpr ⟨queue', hget, hjob⟩)

/-- **What a step of `submit` or of a worker does**: it leaves the control plane alone; it carries
what it carried before, a job from a queue, or the record it has just found the group of; it goes
on with a record only if its category is accepted; and what it adds to a queue or sends it has
carried. -/
structure Advances (s : Forwarding ι) (place : ForwardPlace) (s' : Forwarding ι)
    (place' : ForwardPlace) : Prop where
  control : s'.control = s.control
  carried : ∀ e ∈ place'.carried, e ∈ place.carried ∨ e ∈ s.queued ∨
    ∃ c ∈ place.accepted, e = (s.control.plane.groupFor c, c)
  accepted : ∀ c ∈ place'.accepted, s.control.plane.accepts c = true
  queued : ∀ e ∈ s'.queued, e ∈ s.queued ∨ e ∈ place.carried
  delivered : s'.delivered = s.delivered ∨ ∃ group category frames,
    s'.delivered = (group, category, frames) :: s.delivered ∧ (group, category) ∈ place.carried

/-- A step of `submit` that carries no more than before, accepts nothing and leaves the queues
alone. -/
theorem Advances.quiet {pc pc' : ForwardPc}
    (hcarried : ∀ e ∈ (ForwardPlace.forwarder pc').carried, e ∈ (ForwardPlace.forwarder pc).carried)
    (haccepted : (ForwardPlace.forwarder pc').accepted = none) :
    Advances s (.forwarder pc) s (.forwarder pc') := by
  refine ⟨rfl, fun e he => .inl (hcarried e he), fun c hc => ?_, fun e he => .inl he, .inl rfl⟩
  rw [haccepted] at hc
  cases hc

theorem Advances.returned (s : Forwarding ι) (pc : ForwardPc) (result : Except String Unit) :
    Advances s (.forwarder pc) s (.forwarder (.returned result)) :=
  .quiet (fun _ he => (not_mem_nil he).elim) rfl

theorem advances_of_submit {pc pc' : ForwardPc} {input : ForwardInput}
    (h : s.submit pc input = some (s', pc')) :
    Advances s (.forwarder pc) s' (.forwarder pc') := by
  cases pc with
  | returned result =>
    cases input with
    | submit records =>
      rw [submit] at h
      split at h
      · cases h
        exact .returned s _ _
      · cases h
        refine .quiet (fun e he => ?_) (ForwardPlace.accepted_next _ _)
        exact absurd (ForwardPlace.mem_carried_next he) Grouped.not_mem_carried_replicate
    | call | sent | died => cases h
  | checking record rest grouped =>
    rw [submit] at h
    split at h
    · cases h
    · split at h
      case isTrue haccepts =>
        cases h
        refine ⟨rfl, fun e he => .inl he, fun c hc => ?_, fun e he => .inl he, .inl rfl⟩
        cases hc
        exact haccepts
      case isFalse =>
        cases h
        exact .returned s _ _
  | looking record rest grouped =>
    rw [submit] at h
    split at h
    case isTrue =>
      cases h
      refine ⟨rfl, fun e he => ?_, fun c hc => ?_, fun e he => .inl he, .inl rfl⟩
      · obtain hold | rfl := Grouped.mem_carried_push (ForwardPlace.mem_carried_next he)
        · exact .inl hold
        · exact .inr (.inr ⟨record.categoryId, rfl, rfl⟩)
      · rw [ForwardPlace.accepted_next] at hc
        cases hc
    case isFalse => cases h
  | sending jobs replies =>
    cases jobs with
    | cons job jobs =>
      obtain ⟨group, batches⟩ := job
      rw [submit] at h
      split at h
      case h_1 => cases h
      case h_2 queue hqueue =>
        split_ifs at h
        · cases h
          exact .returned s _ _
        · cases h
          refine ⟨rfl, fun e he => .inl (mem_append_right _ he), nofun, fun e he => ?_, .inl rfl⟩
          obtain hold | ⟨hgroup, job, hjob, he⟩ := mem_queued_set rfl he
          · exact .inl hold
          · obtain hjob | hjob := mem_append.mp hjob
            · left
              rw [← hgroup] at hqueue he
              exact mem_queued.mpr ⟨queue, hqueue, job, hjob, he⟩
            · cases mem_singleton.mp hjob
              exact .inr (mem_append_left _ he)
    | nil =>
      cases replies with
      | nil =>
        cases h
        exact .returned s _ _
      | cons reply replies =>
        rw [submit] at h
        split at h
        · cases h
        · cases h
          exact .returned s _ _
        · cases h
          exact .quiet (fun e he => he) rfl
        · cases h
          exact .returned s _ _

theorem advances_of_work {group : ℕ} {pc pc' : WorkerPc} {input : ForwardInput}
    (h : s.work group pc input = some (s', pc')) :
    Advances s (.worker group pc) s' (.worker group pc') := by
  cases pc with
  | waiting =>
    rw [work] at h
    split at h
    case h_1 job queue hqueue =>
      cases h
      refine ⟨rfl, fun e he => ?_, nofun, fun e he => .inl ?_, .inl rfl⟩
      · refine .inr (.inl ?_)
        have hgroup : e.1 = group := by
          obtain ⟨batch, -, rfl⟩ := List.mem_map.mp he
          rfl
        rw [← hgroup] at hqueue he
        exact mem_queued.mpr ⟨_, hqueue, job, mem_cons_self, he⟩
      · obtain hold | ⟨hgroup, job', hjob, he⟩ := mem_queued_set rfl he
        · exact hold
        · rw [← hgroup] at hqueue he
          exact mem_queued.mpr ⟨_, hqueue, job', mem_cons_of_mem _ hjob, he⟩
    case h_2 => cases h
  | working batches reply =>
    cases batches with
    | nil =>
      cases h
      exact ⟨rfl, fun e he => .inl he, nofun, fun e he => .inl he, .inl rfl⟩
    | cons batch batches =>
      obtain ⟨category, frames⟩ := batch
      cases input with
      | sent result =>
        cases result with
        | ok _ =>
          cases h
          exact ⟨rfl, fun e he => .inl (mem_cons_of_mem _ he), nofun, fun e he => .inl he,
            .inr ⟨group, category, frames, rfl, mem_cons_self⟩⟩
        | error e =>
          cases h
          exact ⟨rfl, fun e he => (not_mem_nil he).elim, nofun, fun e he => .inl he,
            .inr ⟨group, category, frames, rfl, mem_cons_self⟩⟩
      | died =>
        cases h
        refine ⟨rfl, fun e he => (not_mem_nil he).elim, nofun, fun e he => .inl ?_,
          .inr ⟨group, category, frames, rfl, mem_cons_self⟩⟩
        obtain hold | ⟨-, job, hjob, -⟩ := mem_queued_set (s := s) rfl he
        · exact hold
        · cases hjob
      | call | submit => cases h
  | stopped => cases h

/-- **What a step does**: a caller takes a step on the control plane, or `submit` or a worker
advances. -/
theorem step_cases {i : ι} {place place' : ForwardPlace} {input : ForwardInput}
    (h : s.step i place input = some (s', place')) :
    (∃ pc call control pc', place = .caller pc ∧ input = .call call ∧
      s.control.step i pc call = some (control, pc') ∧ s' = { s with control := control } ∧
      place' = .caller pc') ∨ (∀ pc, place' ≠ .caller pc) ∧ Advances s place s' place' := by
  cases place with
  | caller pc =>
    cases input with
    | call call =>
      obtain ⟨⟨control, pc'⟩, hcall, hr⟩ := map_eq_some_iff.mp h
      cases hr
      exact .inl ⟨pc, call, control, pc', rfl, rfl, hcall, rfl, rfl⟩
    | submit | sent | died => cases h
  | forwarder pc =>
    obtain ⟨⟨s₁, pc'⟩, hsubmit, hr⟩ := map_eq_some_iff.mp h
    cases hr
    exact .inr ⟨fun _ => ForwardPlace.noConfusion, advances_of_submit hsubmit⟩
  | worker group pc =>
    obtain ⟨⟨s₁, pc'⟩, hwork, hr⟩ := map_eq_some_iff.mp h
    cases hr
    exact .inr ⟨fun _ => ForwardPlace.noConfusion, advances_of_work hwork⟩

end Forwarding

/-! ### The fence and the pipeline -/

namespace RouteControlPlane

/-- A category without migration, or with one that has not been frozen yet. -/
def Open (p : RouteControlPlane) (category : ℕ) : Prop :=
  ∀ m ∈ p.active category, m.state = .freezing

/-- The frames of an open category may be on their way to its group. -/
def Owns (p : RouteControlPlane) (e : ℕ × ℕ) : Prop := p.Open e.2 ∧ p.groupFor e.2 = e.1

theorem open_of_accepts {p : RouteControlPlane} {category : ℕ} (h : p.accepts category = true) :
    p.Open category := by
  intro m hm
  rw [accepts, isNone_iff_eq_none] at h
  rw [h] at hm
  cases hm

end RouteControlPlane

namespace Control

/-- A call keeps an open category in its group, and open unless it freezes it. -/
theorem Effect.keeps_open {ι : Type} {i : ι} {s s' : Control ι} {pc pc' : RoutePc}
    {call : RouteCall} (h : Effect i s pc call s' pc') (hat : At i s pc) {c : ℕ}
    (hopen : s.plane.Open c) : s'.plane.groupFor c = s.plane.groupFor c ∧
      ((pc = .idle → ∀ index, call ≠ .frozen c index) → s'.plane.Open c) := by
  cases h with
  | refuse | route | claim | hold | finish => exact ⟨rfl, fun _ => hopen⟩
  | insert cat tgt g =>
    refine ⟨rfl, fun _ m hm => ?_⟩
    simp only [RouteControlPlane.beginInsert, RouteControlPlane.active_put] at hm
    split at hm
    · cases hm
      rfl
    · exact hopen m hm
  | freeze cat index m =>
    refine ⟨rfl, fun hdrained m hm => hopen m ?_⟩
    have hne : cat ≠ c := by
      rintro rfl
      exact hdrained rfl index rfl
    simpa [hne] using hm
  | verify cat index fingerprint m hfree hactive hstate =>
    have hne : cat ≠ c := by
      rintro rfl
      exact MigrationState.noConfusion (hstate.symm.trans (hopen m hactive))
    refine ⟨rfl, fun _ m hm => hopen m ?_⟩
    simpa [hne] using hm
  | move cat m =>
    have hne : cat ≠ c := by
      rintro rfl
      exact MigrationState.noConfusion (hat.2.2.symm.trans (hopen m hat.2.1))
    refine ⟨by simp [RouteControlPlane.activateMove, hne], fun _ m hm => hopen m ?_⟩
    simpa [RouteControlPlane.activateMove, hne] using hm
  | abort cat =>
    refine ⟨rfl, fun _ m hm => ?_⟩
    simp only [RouteControlPlane.active_drop] at hm
    split at hm
    · cases hm
    · exact hopen m hm

end Control

namespace Forwarding

variable {ι : Type} {i : ι} {s s' : Forwarding ι} {place place' : ForwardPlace}
  {input : ForwardInput}

/-- The fence holds, and what is queued may be on its way. -/
structure Guarded (s : Forwarding ι) : Prop where
  fenced : s.control.Fenced
  queued : ∀ e ∈ s.queued, s.control.plane.Owns e

/-- What a thread relies on between two of its steps. -/
structure Fits (i : ι) (s : Forwarding ι) (place : ForwardPlace) : Prop where
  caller : ∀ pc, place = .caller pc → Control.At i s.control pc
  carried : ∀ e ∈ place.carried, s.control.plane.Owns e
  accepted : ∀ c ∈ place.accepted, s.control.plane.Open c

theorem Fits.congr (h : Fits i s place) (hcontrol : s'.control = s.control) : Fits i s' place := by
  obtain ⟨hcaller, hcarried, haccepted⟩ := h
  rw [← hcontrol] at hcaller hcarried haccepted
  exact ⟨hcaller, hcarried, haccepted⟩

/-- **A step of a caller** that does not freeze a category with frames on their way. -/
theorem guarded_of_call {c : Config ι (Forwarding ι) ForwardPlace} {pc pc' : RoutePc}
    {call : RouteCall} {control : Control ι} (hs : c.shared.Guarded)
    (hfits : ∀ j, Fits j c.shared (c.threads j)) (hplace : c.threads i = .caller pc)
    (hdrained : ∀ cat index, pc = .idle → call = .frozen cat index → Clear c cat)
    (hstep : c.shared.control.step i pc call = some (control, pc')) :
    Guarded { c.shared with control := control } ∧
    Fits i { c.shared with control := control } (.caller pc') ∧
    ∀ j ≠ i, Fits j { c.shared with control := control } (c.threads j) := by
  have heffect := Control.effect_of_step hstep
  have hat := (hfits i).caller pc hplace
  refine ⟨⟨heffect.fenced hat hs.fenced, fun e he => ?_⟩, ⟨fun pc₁ h => ?_, ?_, ?_⟩,
    fun j hj => ⟨fun pc₁ h => ?_, fun e he => ?_, fun cat hcat => ?_⟩⟩
  · obtain ⟨hopen, hgroup⟩ := hs.queued e he
    obtain ⟨hgroup', hopen'⟩ := heffect.keeps_open hat hopen
    exact ⟨hopen' fun hidle index hcall => (hdrained e.2 index hidle hcall).2 e he rfl,
      hgroup'.trans hgroup⟩
  · cases h
    exact heffect.own hat hs.fenced
  · intro e he
    cases he
  · intro cat hcat
    cases hcat
  · exact heffect.others hat hj ((hfits j).caller pc₁ h)
  · obtain ⟨hopen, hgroup⟩ := (hfits j).carried e he
    obtain ⟨hgroup', hopen'⟩ := heffect.keeps_open hat hopen
    exact ⟨hopen' fun hidle index hcall => ((hdrained e.2 index hidle hcall).1 j).2 e he rfl,
      hgroup'.trans hgroup⟩
  · exact (heffect.keeps_open hat ((hfits j).accepted cat hcat)).2 fun hidle index hcall =>
      ((hdrained cat index hidle hcall).1 j).1 hcat

variable [DecidableEq ι] {groupCount groups capacity : ℕ} {pins : ExtTreeMap ℕ ℕ}
  {plane : RouteControlPlane} {roles : ι → ForwardPlace}
  {c c' : Config ι (Forwarding ι) ForwardPlace}

omit [DecidableEq ι] in
theorem guarded_start (hnew : RouteControlPlane.new groupCount pins = some plane)
    (hrest : ∀ i, (roles i).AtRest) :
    (start plane groups capacity roles).shared.Guarded ∧
      ∀ j, Fits j (start plane groups capacity roles).shared (roles j) := by
  refine ⟨⟨Control.fenced_of_new hnew, fun e he => ?_⟩, fun j => ?_⟩
  · obtain ⟨queue, hqueue, job, hjob, -⟩ := mem_queued.mp he
    rw [start, getElem?_replicate] at hqueue
    split at hqueue
    · cases hqueue
      cases hjob
    · cases hqueue
  · have hj := hrest j
    cases hrole : roles j with
    | caller pc =>
      rw [hrole] at hj
      obtain rfl : pc = .idle := hj
      refine ⟨fun pc h => ?_, fun e he => (not_mem_nil he).elim, nofun⟩
      cases h
      exact (some_ne_none j).symm
    | forwarder pc =>
      rw [hrole] at hj
      obtain rfl : pc = .returned (.ok ()) := hj
      exact ⟨nofun, fun e he => (not_mem_nil he).elim, nofun⟩
    | worker group pc =>
      rw [hrole] at hj
      obtain rfl : pc = .waiting := hj
      exact ⟨nofun, fun e he => (not_mem_nil he).elim, nofun⟩

/-- **Every interleaving keeps the pipeline inside the fence.** -/
theorem guarded_of_reachable (hnew : RouteControlPlane.new groupCount pins = some plane)
    (hrest : ∀ i, (roles i).AtRest)
    (hreach : Reachable step Drained (start plane groups capacity roles) c) :
    c.shared.Guarded ∧ ∀ j, Fits j c.shared (c.threads j) := by
  refine hreach.invariant (guarded_start hnew hrest) ?_
  intro c i input s place _ hok hs hfits hstep
  obtain ⟨pc, call, control, pc', hplace, rfl, hcall, rfl, rfl⟩ | ⟨hcaller, hspec⟩ :=
    step_cases hstep
  · refine guarded_of_call hs hfits hplace (fun cat index hidle hcall => hok cat ?_) hcall
    rw [hplace, hidle, hcall]
    rfl
  · have hcontrol := hspec.control
    refine ⟨⟨hcontrol ▸ hs.fenced, fun e he => ?_⟩, ⟨fun pc h => absurd h (hcaller pc),
      fun e he => ?_, fun cat hcat => ?_⟩, fun j _ => (hfits j).congr hcontrol⟩ <;> rw [hcontrol]
    · exact (hspec.queued e he).elim (hs.queued e) ((hfits i).carried e)
    · obtain hold | hold | ⟨cat, hcat, rfl⟩ := hspec.carried e he
      · exact (hfits i).carried e hold
      · exact hs.queued e hold
      · exact ⟨(hfits i).accepted cat hcat, rfl⟩
    · exact RouteControlPlane.open_of_accepts (hspec.accepted cat hcat)

/-- What a step of any thread adds to the queues and sends, it has carried; and only the `activate`
of a verified migration moves a category. -/
theorem step_spec (hfits : ∀ j, Fits j c.shared (c.threads j))
    (hstep : c.step step i input = some c') :
    (∀ e ∈ c'.shared.queued, e ∈ c.shared.queued ∨ e ∈ (c.threads i).carried) ∧
    (c'.shared.delivered = c.shared.delivered ∨ ∃ group category frames,
      c'.shared.delivered = (group, category, frames) :: c.shared.delivered ∧
      (group, category) ∈ (c.threads i).carried) ∧
    ∀ category, c'.shared.control.plane.groupFor category ≠
      c.shared.control.plane.groupFor category → ¬ c.shared.control.plane.Open category := by
  obtain ⟨s, place, hnext, rfl⟩ := Config.step_eq_some hstep
  obtain ⟨pc, call, control, pc', hplace, rfl, hcall, rfl, -⟩ | ⟨-, hspec⟩ := step_cases hnext
  · exact ⟨fun e he => .inl he, .inl rfl, fun category hne hopen => hne
      ((Control.effect_of_step hcall).keeps_open ((hfits i).caller pc hplace) hopen).1⟩
  · refine ⟨hspec.queued, hspec.delivered, fun category hne => absurd ?_ hne⟩
    rw [hspec.control]

/-- **The forwarding path and the fence**: if categories are frozen only after their pipeline has
drained, then in every interleaving each batch of frames is handed to the queue of a group, and
sent to it, at a moment when the group owns the category of the frames and the category has no
migration beyond `Freezing`; and when a category moves to another group, no thread and no queue
carries frames of it. -/
theorem forwarding_fenced (hnew : RouteControlPlane.new groupCount pins = some plane)
    (hrest : ∀ i, (roles i).AtRest)
    (hreach : Reachable step Drained (start plane groups capacity roles) c) {i : ι}
    {input : ForwardInput} (hstep : c.step step i input = some c') :
    (∀ group queue job, c.shared.queues[group]? = some queue →
      c'.shared.queues[group]? = some (queue ++ [job]) → ∀ batch ∈ job.batches,
      c.shared.control.plane.Open batch.1 ∧ c.shared.control.plane.groupFor batch.1 = group) ∧
    (∀ group category frames,
      c'.shared.delivered = (group, category, frames) :: c.shared.delivered →
      c.shared.control.plane.Open category ∧
        c.shared.control.plane.groupFor category = group) ∧
    ∀ category, c'.shared.control.plane.groupFor category ≠
      c.shared.control.plane.groupFor category → Clear c category := by
  obtain ⟨hs, hfits⟩ := guarded_of_reachable hnew hrest hreach
  obtain ⟨hqueued, hdelivered, hmoved⟩ := step_spec hfits hstep
  refine ⟨fun group queue job _ hqueue batch hbatch => ?_, fun group category frames hadd => ?_,
    fun category hne => ⟨fun j => ⟨fun h => ?_, fun e he h => ?_⟩, fun e he h => ?_⟩⟩
  · have he : (group, batch.1) ∈ c'.shared.queued :=
      mem_queued.mpr ⟨_, hqueue, job, mem_append_right _ mem_cons_self, List.mem_map_of_mem hbatch⟩
    exact (hqueued _ he).elim (hs.queued _) ((hfits i).carried _)
  · obtain hsame | ⟨group', category', frames', hadd', hcarried⟩ := hdelivered
    · rw [hsame] at hadd
      exact absurd hadd.symm (cons_ne_self _ _)
    · rw [hadd'] at hadd
      cases hadd
      exact (hfits i).carried _ hcarried
  · exact hmoved category hne ((hfits j).accepted category h)
  · exact hmoved category hne (h ▸ ((hfits j).carried e he).1)
  · exact hmoved category hne (h ▸ (hs.queued e he).1)

/-! ### One operator, one batch -/

/-- An operator, a `submit` and the worker of group 1. -/
def crew : Fin 3 → ForwardPlace
  | 0 => .caller .idle
  | 1 => .forwarder (.returned (.ok ()))
  | 2 => .worker 1 .waiting

/-- A `submit` of one record of category 1, up to the hand-over. -/
def lookup : List (Fin 3 × ForwardInput) :=
  [(1, .submit [⟨1, [7]⟩]), (1, .submit []), (1, .submit [])]

/-- The record is handed over, sent and answered, and the `submit` returns. -/
def serve : List (Fin 3 × ForwardInput) :=
  (1, .submit []) :: List.replicate 3 (2, .sent (.ok ())) ++ List.replicate 2 (1, .submit [])

/-- The operator begins to move category 1 to group 3. -/
def beginMove : List (Fin 3 × ForwardInput) :=
  List.replicate 3 (0, .call (.begin 1 3))

/-- The operator goes on without waiting. -/
def finishMove : List (Fin 3 × ForwardInput) :=
  (0, .call (.frozen 1 90)) :: (0, .call (.caughtUp 1 90 7 7)) ::
    List.replicate 3 (0, .call (.activate 1))

/-- The job with the record. -/
def recordJob : RaftForwardJob := ⟨[(1, [[7]])], 0⟩

instance (c : Config (Fin 3) (Forwarding (Fin 3)) ForwardPlace) (category : ℕ) :
    Decidable (Clear c category) :=
  inferInstanceAs (Decidable ((∀ _, _) ∧ _))

instance (c : Config (Fin 3) (Forwarding (Fin 3)) ForwardPlace) (i : Fin 3)
    (input : ForwardInput) : Decidable (Drained c i input) :=
  inferInstanceAs (Decidable (∀ _ ∈ _, _))

theorem atRest_crew (i : Fin 3) : (crew i).AtRest := by
  fin_cases i <;> rfl

/-- What is seen before and after the `submit` takes its next step: the migration and the group
of category 1, and the queue of group 1. -/
def glimpse (c : Config (Fin 3) (Forwarding (Fin 3)) ForwardPlace) :
    Option ((Option CategoryMigration × ℕ × Option (List RaftForwardJob)) ×
      Option (List RaftForwardJob)) :=
  (c.step step 1 (.submit [])).map fun c' =>
    ((c.shared.control.plane.active 1, c.shared.control.plane.groupFor 1, c.shared.queues[1]?),
      c'.shared.queues[1]?)

theorem glimpse_eq_some {c : Config (Fin 3) (Forwarding (Fin 3)) ForwardPlace}
    {m : Option CategoryMigration} {group : ℕ} {queue queue' : Option (List RaftForwardJob)}
    (h : glimpse c = some ((m, group, queue), queue')) :
    ∃ c', c.step step 1 (.submit []) = some c' ∧ c.shared.control.plane.active 1 = m ∧
      c.shared.control.plane.groupFor 1 = group ∧ c.shared.queues[1]? = queue ∧
      c'.shared.queues[1]? = queue' := by
  obtain ⟨c', hstep, hfacts⟩ := map_eq_some_iff.mp h
  cases hfacts
  exact ⟨c', hstep, rfl, rfl, rfl, rfl⟩

theorem forwarding_fenced_crew :
    (∃ c c' : Config (Fin 3) (Forwarding (Fin 3)) ForwardPlace,
      Reachable step Drained (start Control.fourGroups 4 64 crew) c ∧
      c.step step 1 (.submit []) = some c' ∧ c'.shared.queues[1]? = some [recordJob] ∧
      c.shared.control.plane.Open 1 ∧ c.shared.control.plane.groupFor 1 = 1) ∧
    ∃ c c' : Config (Fin 3) (Forwarding (Fin 3)) ForwardPlace,
      Reachable step Drained (start Control.fourGroups 4 64 crew) c ∧
      c.step step 0 (.call (.activate 1)) = some c' ∧
      c.shared.delivered = [(1, 1, [[7]])] ∧ c.shared.control.plane.groupFor 1 = 1 ∧
      c'.shared.control.plane.groupFor 1 = 3 ∧ Clear c 1 := by
  have hnew : RouteControlPlane.new 4 ∅ = some Control.fourGroups := rfl
  have hhanded : ((start Control.fourGroups 4 64 crew).runIf step Drained lookup).bind glimpse =
      some ((none, 1, some []), some [recordJob]) := by
    decide +kernel
  have hmoved : ((start Control.fourGroups 4 64 crew).runIf step Drained
      (lookup ++ serve ++ beginMove ++ finishMove.take 3)).bind (fun c =>
        (c.step step 0 (.call (.activate 1))).map fun c' =>
          (decide (c.shared.delivered = [(1, 1, [[7]])]),
          c.shared.control.plane.groupFor 1, c'.shared.control.plane.groupFor 1)) =
      some (true, 1, 3) := by
    decide +kernel
  obtain ⟨c, hc, hglimpse⟩ := bind_eq_some_iff.mp hhanded
  obtain ⟨c', hstep, -, -, hqueue, hqueue'⟩ := glimpse_eq_some hglimpse
  have hreach := Reachable.start.runIf hc
  have hfenced := (forwarding_fenced hnew atRest_crew hreach hstep).1 1 [] recordJob hqueue
    hqueue' (1, [[7]]) mem_cons_self
  refine ⟨⟨c, c', hreach, hstep, hqueue', hfenced.1, hfenced.2⟩, ?_⟩
  obtain ⟨d, hd, hmove⟩ := bind_eq_some_iff.mp hmoved
  obtain ⟨d', hstep', hfacts⟩ := map_eq_some_iff.mp hmove
  simp only [Prod.mk.injEq] at hfacts
  obtain ⟨hdelivered, hbefore, hafter⟩ := hfacts
  have hreach' := Reachable.start.runIf hd
  have hclear := (forwarding_fenced hnew atRest_crew hreach' hstep').2.2 1 (by omega)
  exact ⟨d, d', hreach', hstep', of_decide_eq_true hdelivered, hbefore, hafter, hclear⟩

/-- A worker that ends while it sends the record: the batch may have reached the group, the
`submit` hears that its acknowledgement was dropped, and the next one that the worker stopped. -/
example : ((start Control.fourGroups 4 64 crew).runIf step Drained
    (lookup ++ [(1, .submit []), (2, .died), (2, .died), (1, .submit [])] ++ lookup ++
      [(1, .submit [])])).map (fun c => (c.shared.delivered.length, match c.threads 1 with
        | .forwarder (.returned (.error e)) => e
        | _ => "")) =
    some (1, "Raft group 1 forwarding worker stopped") := by
  decide +kernel

/-- **Frames are handed over during a migration**: a `submit` that has found the group of its
record hands it over after the `begin` of a migration; and if the operator does not let it
drain, also after the category has moved, to the old group. -/
theorem handed_during_freeze :
    (∃ c c' : Config (Fin 3) (Forwarding (Fin 3)) ForwardPlace, ∃ m,
      Reachable step Drained (start Control.fourGroups 4 64 crew) c ∧
      c.step step 1 (.submit []) = some c' ∧
      c.shared.queues[1]? = some [] ∧ c'.shared.queues[1]? = some [recordJob] ∧
      c.shared.control.plane.active 1 = some m) ∧
    ∃ c c' : Config (Fin 3) (Forwarding (Fin 3)) ForwardPlace,
      Reachable step (fun _ _ _ => True) (start Control.fourGroups 4 64 crew) c ∧
      c.step step 1 (.submit []) = some c' ∧
      c.shared.queues[1]? = some [] ∧ c'.shared.queues[1]? = some [recordJob] ∧
      c.shared.control.plane.groupFor 1 = 3 := by
  have hfreezing : ((start Control.fourGroups 4 64 crew).runIf step Drained
      (lookup ++ beginMove)).bind glimpse =
      some ((some ⟨1, 2, 1, 3, .freezing, 0, 0, 0⟩, 1, some []), some [recordJob]) := by
    decide +kernel
  have hmoved : ((start Control.fourGroups 4 64 crew).runIf step (fun _ _ _ => True)
      (lookup ++ beginMove ++ finishMove)).bind glimpse =
      some ((none, 3, some []), some [recordJob]) := by
    decide +kernel
  obtain ⟨c, hc, hglimpse⟩ := bind_eq_some_iff.mp hfreezing
  obtain ⟨c', hstep, hactive, -, hqueue, hqueue'⟩ := glimpse_eq_some hglimpse
  obtain ⟨d, hd, hglimpse⟩ := bind_eq_some_iff.mp hmoved
  obtain ⟨d', hstep', -, hgroup, hold, hnew⟩ := glimpse_eq_some hglimpse
  exact ⟨⟨c, c', _, Reachable.start.runIf hc, hstep, hqueue, hqueue', hactive⟩,
    d, d', Reachable.start.runIf hd, hstep', hold, hnew, hgroup⟩

end Forwarding

end TradeCore
