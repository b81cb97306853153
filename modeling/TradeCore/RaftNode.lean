import TradeCore.RaftFileSpec

/-!
# The Raft Node

A member of a Raft group: the in-memory storage that raft-rs reads, the last application
snapshot, and the durable file. raft-rs itself is a black box that hands out `Ready`s; a
`Ready` is made durable, then applied to memory, and only then do its messages leave.

raft-rs's `MemStorage` is not part of this repository. The node works on any storage with the
calls of `RaftStorage`, and the results assume the laws of `LawfulStorage`; the storage at the
end of this file shows that they can be met. A panic of the node is `none`.

## Main results

* `RaftNode.handleReady_inv`, `RaftNode.compact_inv` — all that handling a `Ready` and
  compacting can do.
* `RaftNode.Reachable` — the nodes that can be reached from a file.
-/

open List Option

namespace TradeCore

/-! ### The storage of raft-rs -/

/-- A log after some entries: it is replaced from the first of them on. -/
def Recovered.overwrite (entries es : List Entry) : List Entry :=
  es.head?.elim entries fun e => entries.filter (·.index < e.index) ++ es

/-- What can be seen of a storage: its log, the index that the log starts at, and the hard
state. -/
structure LogView where
  firstIndex : ℕ := 1
  log : List Entry := []
  hardState : HardState := {}

namespace LogView

/-- The last index of the log. -/
def lastIndex (v : LogView) : ℕ := v.firstIndex + v.log.length - 1

/-- The log starts at a positive index and has no gap. -/
structure Gapless (v : LogView) : Prop where
  first_pos : 0 < v.firstIndex
  consecutive : Consecutive Entry.index v.firstIndex v.log

end LogView

/-- The storage that raft-rs reads, by the calls that the node makes on it; `view` is what
they are specified by. A panic is `none`. -/
class RaftStorage (σ : Type) where
  newWithConfState : ConfState → σ
  view : σ → LogView
  confState : σ → ConfState
  setHardState : σ → HardState → σ
  setConfState : σ → ConfState → σ
  applySnapshot : σ → Snapshot → Option σ
  append : σ → List Entry → Option σ
  compact : σ → ℕ → Option σ
  term : σ → ℕ → Except IoError ℕ
  entries : σ → (low high : ℕ) → Option (Except IoError (List Entry))

open RaftStorage (view)

/-- What is assumed of the storage. Nothing is assumed of the configuration that it reports,
of `term`, or of when a call panics, but for the snapshot and the entries that it must not
accept. -/
class LawfulStorage (σ : Type) [RaftStorage σ] : Prop where
  /-- A new storage has an empty log that starts at 1. -/
  view_newWithConfState (c : ConfState) : view (RaftStorage.newWithConfState c : σ) = {}
  view_setHardState (m : σ) (hs : HardState) :
    view (RaftStorage.setHardState m hs) = { view m with hardState := hs }
  view_setConfState (m : σ) (c : ConfState) : view (RaftStorage.setConfState m c) = view m
  /-- A snapshot behind the log is refused. -/
  applySnapshot_stale {m : σ} {sn : Snapshot} : sn.metadata.index < (view m).firstIndex →
    RaftStorage.applySnapshot m sn = none
  /-- A snapshot replaces the log. The commit index becomes the snapshot's, the term does not
  fall and the vote stays. -/
  view_applySnapshot {m m' : σ} {sn : Snapshot} : RaftStorage.applySnapshot m sn = some m' →
    view m' =
      { firstIndex := sn.metadata.index + 1
        hardState :=
          { (view m).hardState with
            term := max (view m).hardState.term sn.metadata.term
            commit := sn.metadata.index } }
  /-- Appended entries do not reach behind the log, leave no gap, and replace the log from the
  first of them on. -/
  append_cons {m m' : σ} {e : Entry} {es : List Entry} : (view m).Gapless →
    RaftStorage.append m (e :: es) = some m' →
    (view m).firstIndex ≤ e.index ∧ e.index ≤ (view m).lastIndex + 1 ∧
      view m' = { view m with log := Recovered.overwrite (view m).log (e :: es) }
  /-- A compaction at an index within the log drops nothing from that index on. -/
  view_compact {m m' : σ} {i : ℕ} : (view m).Gapless → i ≤ (view m).lastIndex →
    RaftStorage.compact m i = some m' →
    ∃ d ≤ i - (view m).firstIndex, view m' =
      { view m with firstIndex := (view m).firstIndex + d, log := (view m).log.drop d }
  /-- Entries that are not compacted can be read. -/
  entries_eq {m : σ} {low high : ℕ} {res : Except IoError (List Entry)} : (view m).Gapless →
    (view m).firstIndex ≤ low → RaftStorage.entries m low high = some res →
    res = .ok (((view m).log.drop (low - (view m).firstIndex)).take (high - low))

namespace RaftStorage

variable {σ : Type} [RaftStorage σ]

/-- Append entries if there are any. -/
def appendAny (m : σ) (es : List Entry) : Option σ := if es.isEmpty then some m else append m es

/-- The entries above an index, up to the last one that raft-rs knows. -/
def tail (m : σ) (index last : ℕ) : Option (Except IoError (List Entry)) :=
  if index < last then entries m (index + 1) (last + 1) else some (.ok [])

end RaftStorage

/-! ### The node -/

/-- A committed command batch on its way to matching. -/
structure Committed where
  index : ℕ
  term : ℕ
  leaderId : ℕ
  data : List UInt8
  deriving DecidableEq

/-- A durable member. -/
structure RaftNode (σ : Type) where
  mem : σ
  app : Option Snapshot := none
  file : List UInt8
  committed : List Committed := []
  installedSnapshot : Option Snapshot := none
  deriving DecidableEq

/-- One round of raft-rs: what to make durable, the entries that are committed before and
after, the commit index learnt on the way (in memory only), and the configuration that a
committed change leads to. -/
structure Ready where
  entries : List Entry := []
  hs : Option HardState := none
  snapshot : Option Snapshot := none
  committedEntries : List Entry := []
  lightCommit : Option ℕ := none
  lightCommittedEntries : List Entry := []
  leaderId : ℕ := 0
  applyConfChange : Entry → Option ConfState := fun _ => none

/-- The indices of raft-rs's own view of the log, which may be ahead of the storage. -/
structure RaftLog where
  applied : ℕ
  lastIndex : ℕ

namespace RaftNode

open RaftStorage (appendAny applySnapshot setHardState setConfState)

variable (pb : Protobuf) {σ : Type} [RaftStorage σ]

variable (n : RaftNode σ)

/-- The index of the last snapshot that this member can serve, or 0. -/
def snapshotIndex : ℕ := n.app.elim 0 fun sn => sn.metadata.index

/-- Deliver a committed entry: a command to matching, a membership change to the storage. -/
def applyEntry (applyConfChange : Entry → Option ConfState) (leaderId : ℕ) (n : RaftNode σ)
    (e : Entry) : RaftNode σ :=
  match e.entryType with
  | .normal =>
    if e.data.isEmpty then n
    else { n with
      committed := n.committed ++
        [{ index := e.index, term := e.term, leaderId := leaderId, data := e.data }] }
  | .confChange =>
    match applyConfChange e with
    | some confState => { n with mem := setConfState n.mem confState }
    | none => n
  | .confChangeV2 => n

/-- Deliver committed entries. -/
def applyEntries (applyConfChange : Entry → Option ConfState) (leaderId : ℕ)
    (entries : List Entry) : RaftNode σ :=
  entries.foldl (applyEntry applyConfChange leaderId) n

/-- Install the snapshot of a `Ready`: the storage restarts from it and the file is
rewritten, with the hard state that the storage has at this point. -/
def install : Option Snapshot → Option (RaftNode σ)
  | none => some n
  | some sn => do
    let mem ← applySnapshot n.mem sn
    let file ← (DurableRaftLog.installSnapshot pb sn (view mem).hardState).toOption
    return {
      mem := mem
      app := some sn
      file := file
      committed := n.committed.filter (sn.metadata.index < ·.index)
      installedSnapshot := some sn }

/-- Handle one `Ready`, a turn of the loop of `drive`. -/
def handleReady (r : Ready) : Option (RaftNode σ) := do
  let file ← (DurableRaftLog.persist pb n.file r.entries r.hs).toOption
  let n ← install pb { n with file := file } r.snapshot
  let mem ← appendAny n.mem r.entries
  let mem := r.hs.elim mem (setHardState mem)
  let n := { n with mem := mem }.applyEntries r.applyConfChange r.leaderId r.committedEntries
  let mem := r.lightCommit.elim n.mem fun c =>
    setHardState n.mem { (view n.mem).hardState with commit := c }
  return { n with mem := mem }.applyEntries r.applyConfChange r.leaderId r.lightCommittedEntries

/-- The snapshot that a compaction at an index would take. -/
def snapshotAt (index term : ℕ) (data : List UInt8) : Snapshot :=
  { metadata := { index := index, term := term, confState := RaftStorage.confState n.mem }
    data := data }

/-- Fold the log up to `index`, at most up to what is applied, into a snapshot with an
application blob. An error after the storage was cut leaves it cut. -/
def compact (log : RaftLog) (index : ℕ) (data : List UInt8) :
    Option (RaftNode σ × Except IoError Bool) :=
  let index := min index log.applied
  if index ≤ n.snapshotIndex ∨ index = 0 then some (n, .ok false)
  else match RaftStorage.term n.mem index with
    | .error e => some (n, .error e)
    | .ok term => do
      let snapshot := n.snapshotAt index term data
      let mem ← RaftStorage.compact n.mem index
      let n := { n with mem := mem, app := some snapshot }
      let tail ← RaftStorage.tail mem index log.lastIndex
      match tail with
      | .error e => some (n, .error e)
      | .ok tail =>
        match DurableRaftLog.compact pb snapshot tail (view mem).hardState with
        | .error e => some (n, .error e)
        | .ok file => some ({ n with file := file }, .ok true)

/-- Replay a membership change, if the entry is a committed one. -/
def restoreMembership (s : Recovered) (applyConfChange : Entry → Option ConfState)
    (mem : σ) (e : Entry) : σ :=
  if e.index ≤ s.snapshotIndex ∨ s.hardState.commit < e.index ∨ e.entryType ≠ .confChange then mem
  else match applyConfChange e with
    | some confState => setConfState mem confState
    | none => mem

/-- The storage of a freshly opened member: snapshot, log, hard state, then the membership
changes among the committed entries. -/
def restoreStorage (voters : List ℕ) (applyConfChange : Entry → Option ConfState)
    (s : Recovered) : Option σ := do
  let mem : σ := RaftStorage.newWithConfState { voters := voters }
  let mem ← s.snapshot.elim (some mem) (applySnapshot mem)
  let mem ← appendAny mem s.entries
  let mem := if s.hardState ≠ {} then setHardState mem s.hardState else mem
  return s.entries.foldl (restoreMembership s applyConfChange) mem

/-- Open a member from its file. The committed entries above the snapshot are delivered to
matching again. -/
def «open» (voters : List ℕ) (applyConfChange : Entry → Option ConfState) (disk : List UInt8) :
    Option (RaftNode σ) := do
  let (file, s) ← (DurableRaftLog.open pb disk).toOption
  let mem ← restoreStorage voters applyConfChange s
  return {
    mem := mem
    app := s.snapshot
    file := file
    committed := (s.entries.filter fun e =>
      e.index ≤ s.hardState.commit ∧ s.snapshotIndex < e.index ∧ e.entryType = .normal ∧
        ¬ e.data.isEmpty).map fun e =>
        { index := e.index, term := e.term, leaderId := 0, data := e.data }
    installedSnapshot := s.snapshot }

/-! ### What each operation can do -/

section

variable [LawfulStorage σ]

/-- Delivering entries touches the queue and the configuration only. -/
theorem applyEntries_eq (n : RaftNode σ) (applyConfChange : Entry → Option ConfState)
    (leaderId : ℕ) (entries : List Entry) :
    ∃ mem q, view mem = view n.mem ∧
      n.applyEntries applyConfChange leaderId entries = { n with mem := mem, committed := q } := by
  induction entries generalizing n with
  | nil => exact ⟨n.mem, n.committed, rfl, rfl⟩
  | cons e entries ih =>
    obtain ⟨mem, q, hview, h⟩ := ih (applyEntry applyConfChange leaderId n e)
    have hone : ∃ mem q, view mem = view n.mem ∧
        applyEntry applyConfChange leaderId n e = { n with mem := mem, committed := q } := by
      unfold applyEntry
      split
      · split <;> exact ⟨_, _, rfl, rfl⟩
      · split
        · exact ⟨_, _, LawfulStorage.view_setConfState _ _, rfl⟩
        · exact ⟨_, _, rfl, rfl⟩
      · exact ⟨_, _, rfl, rfl⟩
    obtain ⟨mem₀, q₀, hview₀, h₀⟩ := hone
    rw [applyEntries, foldl_cons, ← applyEntries, h, h₀]
    rw [h₀] at hview
    exact ⟨mem, q, hview.trans hview₀, rfl⟩

/-- Replaying membership changes touches the configuration only. -/
theorem view_foldl_restoreMembership (s : Recovered) (applyConfChange : Entry → Option ConfState)
    (mem : σ) (entries : List Entry) :
    view (entries.foldl (restoreMembership s applyConfChange) mem) = view mem := by
  induction entries generalizing mem with
  | nil => rfl
  | cons e entries ih =>
    refine (ih _).trans ?_
    unfold restoreMembership
    split
    · rfl
    · split
      · exact LawfulStorage.view_setConfState _ _
      · rfl

end

end RaftNode

/-- The hard state in memory after a `Ready`: its own if it has one, with the commit index
learnt last. -/
def Ready.hardStateAfter (r : Ready) (hs : HardState) : HardState :=
  r.lightCommit.elim (r.hs.getD hs) fun c => { r.hs.getD hs with commit := c }

namespace RaftNode

open RaftStorage (appendAny applySnapshot setHardState)

variable {σ : Type} [RaftStorage σ] {pb : Protobuf} {n n' : RaftNode σ}

/-- A handled `Ready` was persisted, its snapshot installed and its entries appended. -/
theorem handleReady_inv [LawfulStorage σ] {r : Ready} (h : n.handleReady pb r = some n') :
    ∃ file n₁ mem₀ mem q, DurableRaftLog.persist pb n.file r.entries r.hs = .ok file ∧
      install pb { n with file := file } r.snapshot = some n₁ ∧
      appendAny n₁.mem r.entries = some mem₀ ∧
      view mem = { view mem₀ with hardState := r.hardStateAfter (view mem₀).hardState } ∧
      n' = { n₁ with mem := mem, committed := q } := by
  simp only [handleReady, bind, bind_eq_some_iff, Option.pure_def, some.injEq] at h
  obtain ⟨file, hfile, n₁, hn₁, mem₀, hmem₀, rfl⟩ := h
  have hpersist : DurableRaftLog.persist pb n.file r.entries r.hs = .ok file := by
    cases hp : DurableRaftLog.persist pb n.file r.entries r.hs with
    | error e => rw [hp] at hfile; cases hfile
    | ok f => rw [hp] at hfile; cases hfile; rfl
  obtain ⟨mem₁, q₁, hview₁, h₁⟩ := applyEntries_eq
    { n₁ with mem := r.hs.elim mem₀ (setHardState mem₀) }
    r.applyConfChange r.leaderId r.committedEntries
  rw [h₁]
  obtain ⟨mem₂, q₂, hview₂, h₂⟩ := applyEntries_eq
    { n₁ with
      mem := r.lightCommit.elim mem₁ fun c =>
        setHardState mem₁ { (view mem₁).hardState with commit := c }
      committed := q₁ } r.applyConfChange r.leaderId r.lightCommittedEntries
  refine ⟨file, n₁, mem₀, mem₂, q₂, hpersist, hn₁, hmem₀, hview₂.trans ?_, h₂⟩
  have hset : view (r.hs.elim mem₀ (setHardState mem₀)) =
      { view mem₀ with hardState := r.hs.getD (view mem₀).hardState } := by
    cases r.hs with
    | none => rfl
    | some hs => exact LawfulStorage.view_setHardState _ _
  rw [hset] at hview₁
  unfold Ready.hardStateAfter
  cases r.lightCommit with
  | none => exact hview₁
  | some c => exact (LawfulStorage.view_setHardState _ _).trans (by rw [hview₁]; rfl)

/-- Installing a snapshot replaces storage and file. -/
theorem install_inv {sn : Snapshot} (h : install pb n (some sn) = some n') :
    ∃ mem file q, applySnapshot n.mem sn = some mem ∧
      DurableRaftLog.installSnapshot pb sn (view mem).hardState = .ok file ∧
      n' = { mem := mem, app := some sn, file := file, committed := q,
             installedSnapshot := some sn } := by
  simp only [install, bind, bind_eq_some_iff, Option.pure_def, some.injEq] at h
  obtain ⟨mem, hmem, file, hfile, rfl⟩ := h
  cases hp : DurableRaftLog.installSnapshot pb sn (view mem).hardState with
  | error e => rw [hp] at hfile; cases hfile
  | ok f =>
    rw [hp] at hfile
    cases hfile
    exact ⟨mem, _, _, hmem, hp, rfl⟩

/-- A compaction leaves the node alone, or cuts its storage and then fails to read the tail
or to write the file, or rewrites the file. -/
theorem compact_inv {log : RaftLog} {index : ℕ} {data : List UInt8} {res : Except IoError Bool}
    (h : n.compact pb log index data = some (n', res)) :
    (n' = n ∧ res ≠ .ok true) ∨
    ∃ term mem, n.snapshotIndex < min index log.applied ∧
      RaftStorage.term n.mem (min index log.applied) = .ok term ∧
      RaftStorage.compact n.mem (min index log.applied) = some mem ∧
      ∃ tail, RaftStorage.tail mem (min index log.applied) log.lastIndex = some tail ∧
      (n' = { n with mem := mem, app := some (n.snapshotAt (min index log.applied) term data) } ∧
          (∃ e, res = .error e ∧ (tail = .error e ∨ ∃ es, tail = .ok es ∧
            DurableRaftLog.compact pb (n.snapshotAt (min index log.applied) term data) es
              (view mem).hardState = .error e)) ∨
        ∃ es file, tail = .ok es ∧
          DurableRaftLog.compact pb (n.snapshotAt (min index log.applied) term data) es
            (view mem).hardState = .ok file ∧
          n' = { n with
            mem := mem
            app := some (n.snapshotAt (min index log.applied) term data)
            file := file } ∧
          res = .ok true) := by
  unfold compact at h
  dsimp only at h
  generalize min index log.applied = i at h ⊢
  by_cases hi : i ≤ n.snapshotIndex ∨ i = 0
  · rw [if_pos hi] at h
    cases h
    exact .inl ⟨rfl, by simp⟩
  rw [if_neg hi] at h
  cases hterm : RaftStorage.term n.mem i with
  | error e =>
    rw [hterm] at h
    cases h
    exact .inl ⟨rfl, by simp⟩
  | ok term =>
    rw [hterm] at h
    simp only [bind, bind_eq_some_iff] at h
    obtain ⟨mem, hmem, tail, htail, h⟩ := h
    refine .inr ⟨term, mem, by omega, rfl, hmem, tail, htail, ?_⟩
    cases tail with
    | error e =>
      cases h
      exact .inl ⟨rfl, e, rfl, .inl rfl⟩
    | ok es =>
      dsimp only at h
      cases hfile : DurableRaftLog.compact pb (n.snapshotAt i term data) es
          (view mem).hardState with
      | error e =>
        rw [hfile] at h
        cases h
        exact .inl ⟨rfl, e, rfl, .inr ⟨es, rfl, hfile⟩⟩
      | ok file =>
        rw [hfile] at h
        cases h
        exact .inr ⟨es, file, rfl, hfile, rfl, rfl⟩

end RaftNode

/-! ### Reachable nodes -/

namespace Ready

/-- The commit index that a `Ready` builds on: that of its snapshot, or the storage's. -/
def baseCommit (r : Ready) (v : LogView) : ℕ :=
  r.snapshot.elim v.hardState.commit fun sn => sn.metadata.index

/-- The last index that a `Ready` builds on. -/
def baseLast (r : Ready) (v : LogView) : ℕ :=
  r.snapshot.elim v.lastIndex fun sn => sn.metadata.index

/-- The last index after a `Ready`. -/
def lastAfter (r : Ready) (v : LogView) : ℕ :=
  r.entries.getLast?.elim (r.baseLast v) Entry.index

/-- What raft-rs promises of a `Ready`: a snapshot is ahead of the commit index; entries are
consecutive, continue the log (or the snapshot) and overwrite nothing committed; neither
term nor commit index falls, and nothing beyond the log is committed. -/
structure Valid (r : Ready) (v : LogView) : Prop where
  snapshot : ∀ sn ∈ r.snapshot, v.hardState.commit < sn.metadata.index
  entries : r.entries ≠ [] → ∃ k, Consecutive Entry.index k r.entries ∧
    r.baseCommit v < k ∧ k ≤ r.baseLast v + 1
  hs : ∀ hs ∈ r.hs, v.hardState.term ≤ hs.term ∧ r.baseCommit v ≤ hs.commit ∧
    hs.commit ≤ r.lastAfter v
  light : ∀ c ∈ r.lightCommit, r.hs.elim (r.baseCommit v) HardState.commit ≤ c ∧
    c ≤ r.lastAfter v

end Ready

/-- raft-rs applies only what is committed, and its log reaches at least as far as the
storage. -/
structure RaftLog.Valid (log : RaftLog) (v : LogView) : Prop where
  applied : log.applied ≤ v.hardState.commit
  lastIndex : v.lastIndex ≤ log.lastIndex

namespace RaftNode

variable {σ : Type} [RaftStorage σ] (pb : Protobuf)

/-- The nodes that can be reached: opened from any file, then driven by raft-rs and compacted
at will. -/
inductive Reachable : RaftNode σ → Prop where
  | opened {voters : List ℕ} {conf : Entry → Option ConfState} {disk : List UInt8}
      {n : RaftNode σ} : RaftNode.open pb voters conf disk = some n → Reachable n
  | ready {n n' : RaftNode σ} {r : Ready} : Reachable n → r.Valid (view n.mem) →
      n.handleReady pb r = some n' → Reachable n'
  | compact {n n' : RaftNode σ} {log : RaftLog} {index : ℕ} {data : List UInt8}
      {res : Except IoError Bool} : Reachable n → log.Valid (view n.mem) →
      n.compact pb log index data = some (n', res) → Reachable n'

end RaftNode

/-! ### A storage in memory -/

/-- A storage that keeps the log behind a snapshot boundary in memory. -/
structure MemStorage where
  snapshotMetadata : SnapshotMetadata := {}
  entries : List Entry := []
  hardState : HardState := {}
  confState : ConfState := {}
  deriving DecidableEq

namespace MemStorage

variable {m m' : MemStorage}

/-- The first index of the log. -/
def firstIndex (m : MemStorage) : ℕ :=
  m.entries.head?.elim (m.snapshotMetadata.index + 1) Entry.index

/-- The last index of the log. -/
def lastIndex (m : MemStorage) : ℕ := m.entries.getLast?.elim m.snapshotMetadata.index Entry.index

instance : RaftStorage MemStorage where
  newWithConfState c := { confState := c }
  view m := { firstIndex := m.firstIndex, log := m.entries, hardState := m.hardState }
  confState := MemStorage.confState
  setHardState m hs := { m with hardState := hs }
  setConfState m c := { m with confState := c }
  applySnapshot m sn :=
    if sn.metadata.index < m.firstIndex then none
    else some
      { snapshotMetadata := sn.metadata
        entries := []
        hardState :=
          { m.hardState with
            term := max m.hardState.term sn.metadata.term
            commit := sn.metadata.index }
        confState := sn.metadata.confState }
  append m es :=
    match es with
    | [] => some m
    | e :: es =>
      if e.index < m.firstIndex ∨ m.lastIndex + 1 < e.index then none
      else some { m with entries := m.entries.take (e.index - m.firstIndex) ++ e :: es }
  compact m index :=
    if index ≤ m.firstIndex then some m
    else if m.lastIndex + 1 < index then none
    else some { m with entries := m.entries.drop (index - m.firstIndex) }
  term m index :=
    if index = m.snapshotMetadata.index then .ok m.snapshotMetadata.term
    else if index < m.firstIndex then .error (.other "compacted")
    else match m.entries[index - m.firstIndex]? with
      | none => .error (.other "unavailable")
      | some e => .ok e.term
  entries m low high :=
    if low < m.firstIndex then some (.error (.other "compacted"))
    else if m.lastIndex + 1 < high then none
    else some (.ok ((m.entries.drop (low - m.firstIndex)).take (high - low)))

/-- The last index of a log without gaps. -/
theorem lastIndex_eq (h : (view m).Gapless) : m.lastIndex = (view m).lastIndex := by
  have hpos := h.first_pos
  have hlast := h.consecutive.getLast?_eq
  change m.lastIndex = m.firstIndex + m.entries.length - 1
  change m.entries.getLast?.map Entry.index =
    if m.entries = [] then none else some (m.firstIndex + m.entries.length - 1) at hlast
  unfold lastIndex
  cases hl : m.entries.getLast? with
  | none => simp [firstIndex, getLast?_eq_none_iff.mp hl]
  | some e =>
    have hne : m.entries ≠ [] := fun h0 => by simp [h0] at hl
    rwa [hl, if_neg hne, map_some, some.injEq] at hlast

/-- The first index is that of the first entry. -/
theorem firstIndex_of_consecutive {a : ℕ} (h : Consecutive Entry.index a m.entries)
    (hne : m.entries ≠ []) : m.firstIndex = a := by
  unfold firstIndex
  cases he : m.entries with
  | nil => exact absurd he hne
  | cons e es =>
    rw [he] at h
    exact (Consecutive.cons_iff.mp h).1

/-- Entries that continue the log leave its first index. -/
theorem firstIndex_append {e : Entry} (es : List Entry) (hlow : m.firstIndex ≤ e.index)
    (hhigh : e.index ≤ m.lastIndex + 1) :
    firstIndex { m with entries := m.entries.take (e.index - m.firstIndex) ++ e :: es } =
      m.firstIndex := by
  cases he : m.entries with
  | nil =>
    simp only [firstIndex, lastIndex, he, head?_nil, getLast?_nil, elim_none] at hlow hhigh
    simp only [firstIndex, he, take_nil, nil_append, head?_cons, head?_nil, elim_none, elim_some]
    omega
  | cons x xs =>
    have hx : m.firstIndex = x.index := by simp [firstIndex, he]
    obtain heq | hlt := hlow.eq_or_lt
    · rw [heq, Nat.sub_self, take_zero, nil_append]
      rfl
    · obtain ⟨k, hk⟩ := Nat.exists_eq_succ_of_ne_zero (Nat.sub_ne_zero_of_lt hlt)
      rw [hk, hx]
      rfl

instance : LawfulStorage MemStorage where
  view_newWithConfState _ := rfl
  view_setHardState _ _ := rfl
  view_setConfState _ _ := rfl
  applySnapshot_stale h := if_pos h
  view_applySnapshot h := by
    simp only [RaftStorage.applySnapshot] at h
    split at h
    · cases h
    · cases h
      rfl
  append_cons {m m' e es} hm h := by
    have hlast := lastIndex_eq hm
    simp only [RaftStorage.append] at h
    split at h
    · cases h
    rename_i hbounds
    rw [not_or, not_lt, not_lt] at hbounds
    have hfirst := firstIndex_append es hbounds.1 hbounds.2
    cases h
    refine ⟨hbounds.1, hlast ▸ hbounds.2, ?_⟩
    have hcut : m.entries.take (e.index - m.firstIndex) = m.entries.filter (·.index < e.index) :=
      (hm.consecutive.filter_lt _).symm
    rw [hcut] at hfirst ⊢
    exact congrArg (fun k => LogView.mk k _ m.hardState) hfirst
  view_compact {m m' i} hm hi h := by
    have hlast := lastIndex_eq hm
    simp only [RaftStorage.compact] at h
    split at h
    · cases h
      exact ⟨0, Nat.zero_le _, rfl⟩
    split at h
    · cases h
    · rename_i hfirst _
      cases h
      refine ⟨i - m.firstIndex, le_rfl, ?_⟩
      have hlen : i - m.firstIndex < m.entries.length := by
        have : i ≤ m.firstIndex + m.entries.length - 1 := hi
        omega
      have hdrop := hm.consecutive.drop hlen.le
      have hne : m.entries.drop (i - m.firstIndex) ≠ [] := by
        rw [← length_pos_iff, length_drop]
        omega
      have hfirst' := firstIndex_of_consecutive
        (m := { m with entries := m.entries.drop (i - m.firstIndex) }) hdrop hne
      exact congrArg (fun k => LogView.mk k _ m.hardState) hfirst'
  entries_eq {m low high res} _ hlow h := by
    simp only [RaftStorage.entries] at h
    split at h
    · rename_i hlt
      exact absurd hlt (not_lt.mpr hlow)
    split at h
    · cases h
    · cases h
      rfl

end MemStorage
end TradeCore
