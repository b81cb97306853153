import TradeCore.RaftReopen

/-!
# Crashes while Driving Raft

A member handles one `Ready` after the other; each is appended to the file, and one with a
snapshot is followed by a rewrite of the whole file. A crash can fall between any two of these
steps, or inside the append.

The file is compared with what the completed rounds amount to: the log that they persisted,
the last snapshot and the latest hard state. The two agree as long as no snapshot comes with
entries or with a vote or term of its own, since the rewrite takes its hard state from the
storage before the `Ready`'s hard state has reached it.

## Main results

* `RaftNode.Drives.reopen` — after every round, opening the file yields the term and vote of
  the latest hard state.
* `RaftNode.Drives.crash_recovers` — whatever a crash within a round leaves can be opened, and
  holds the completed rounds.
* `RaftNode.term_lost`, `RaftNode.crash_unreadable` — a snapshot with a hard state of its own
  loses the term, and a crash before the rewrite leaves a file that cannot be opened.
-/

open List Option

namespace TradeCore

open RaftRecord DurableRaftLog
open RaftStorage (view)

variable {es : List Entry} {rs : List RaftRecord}

/-! ### The effect of a round -/

namespace Recovered

variable {s : Recovered}

/-- What a completed `Ready` adds to the rounds before it. Its snapshot supersedes the whole
log. -/
def afterReady (s : Recovered) (r : Ready) : Recovered :=
  { entries := overwrite (r.snapshot.elim s.entries fun _ => []) r.entries
    hardState := r.hs.getD s.hardState
    snapshot := r.snapshot <|> s.snapshot }

/-- Consecutive entries that leave no gap replace the log from the first of them on. -/
theorem foldl_entries (h : s.WellFormed) {e : Entry}
    (hes : Consecutive Entry.index e.index (e :: es)) (hlow : s.hardState.commit < e.index)
    (hgap : e.index ≤ s.durableLast + 1) :
    s.AdmitsAll ((e :: es).map .entry) ∧ ((e :: es).map .entry).foldl absorb s =
      { s with entries := s.entries.filter (·.index < e.index) ++ e :: es } := by
  induction es generalizing s e with
  | nil => exact ⟨⟨⟨hlow, hgap⟩, trivial⟩, rfl⟩
  | cons e' es ih =>
    obtain ⟨-, hes'⟩ := Consecutive.cons_iff.mp hes
    have he' := (Consecutive.cons_iff.mp hes').1
    obtain ⟨-, hcons, hlast⟩ := apply_entry h.consecutive (h.snapshot_le.trans_lt hlow) hgap
    have hadmits : s.Admits (.entry e) := ⟨hlow, hgap⟩
    obtain ⟨hadm, hfold⟩ := ih (h.apply hadmits).2 (e := e') (by rw [he']; exact hes')
      (by rw [he']; exact Nat.lt_succ_of_lt hlow) (by rw [he', hlast])
    refine ⟨⟨⟨hlow, hgap⟩, hadm⟩, ?_⟩
    have hkeep : (s.entries.filter (·.index < e.index) ++ [e]).filter (·.index < e'.index) =
        s.entries.filter (·.index < e.index) ++ [e] := by
      rw [filter_eq_self]
      intro x hx
      have hx' : x.index ≤ e.index := by
        obtain hx | hx := mem_append.mp hx
        · exact (of_decide_eq_true (mem_filter.mp hx).2).le
        · rw [mem_singleton.mp hx]
      exact decide_eq_true (by omega)
    rw [map_cons, foldl_cons]
    refine hfold.trans ?_
    simp only [absorb, hkeep, append_assoc, cons_append, nil_append]

section

variable (h : s.WellFormed)
  (hes : es ≠ [] → ∃ k, Consecutive Entry.index k es ∧ s.hardState.commit < k ∧
    k ≤ s.durableLast + 1)
include h hes

/-- The entries of a `Ready` that continues the log are admissible and overwrite it. -/
theorem foldl_map_entry :
    s.AdmitsAll (es.map .entry) ∧
      (es.map .entry).foldl absorb s = { s with entries := overwrite s.entries es } ∧
      durableLast { s with entries := overwrite s.entries es } =
        es.getLast?.elim s.durableLast Entry.index := by
  cases es with
  | nil => exact ⟨trivial, rfl, rfl⟩
  | cons e es =>
    obtain ⟨k, hk, hlow, hgap⟩ := hes (cons_ne_nil _ _)
    obtain ⟨rfl, -⟩ := Consecutive.cons_iff.mp hk
    obtain ⟨hadm, hfold⟩ := foldl_entries h hk hlow hgap
    refine ⟨hadm, hfold, ?_⟩
    cases hl : (e :: es).getLast? with
    | none => simp at hl
    | some last => simp [overwrite, durableLast, getLast?_append, hl]

/-- The records of a `Ready` are admissible on a log that it continues, and replace its end
and its hard state. -/
theorem foldl_persisted {hs : Option HardState}
    (hhs : ∀ x ∈ hs, s.snapshotIndex ≤ x.commit ∧
      x.commit ≤ es.getLast?.elim s.durableLast Entry.index) :
    s.AdmitsAll (persisted es hs) ∧
      (persisted es hs).foldl absorb s =
        { s with entries := overwrite s.entries es, hardState := hs.getD s.hardState } := by
  obtain ⟨hadm, hfold, hlast⟩ := foldl_map_entry h hes
  unfold persisted
  rw [admitsAll_append, foldl_append, hfold]
  cases hs with
  | none => exact ⟨⟨hadm, trivial⟩, rfl⟩
  | some x =>
    obtain ⟨hlow, hhigh⟩ := hhs x rfl
    exact ⟨⟨hadm, ⟨hlow, hlast ▸ hhigh⟩, trivial⟩, rfl⟩

end

/-- What any records without a snapshot can do to a log: entries disappear only under an
entry of their own index or below, and the hard state is the old one or one of theirs. -/
theorem foldl_absorb_cases (s : Recovered) (h : ∀ sn, RaftRecord.snapshot sn ∉ rs) :
    (rs.foldl absorb s).snapshot = s.snapshot ∧
    ((rs.foldl absorb s).hardState = s.hardState ∨
      RaftRecord.hardState (rs.foldl absorb s).hardState ∈ rs) ∧
    ∀ e ∈ s.entries, e ∈ (rs.foldl absorb s).entries ∨
      ∃ e', RaftRecord.entry e' ∈ rs ∧ e'.index ≤ e.index := by
  induction rs generalizing s with
  | nil => exact ⟨rfl, .inl rfl, fun e he => .inl he⟩
  | cons r rs ih =>
    obtain ⟨hsn, hhs, hentries⟩ := ih (s.absorb r) fun sn hsn => h sn (mem_cons_of_mem _ hsn)
    rw [foldl_cons]
    cases r with
    | snapshot sn => exact absurd mem_cons_self (h sn)
    | hardState hs =>
      refine ⟨hsn, .inr ?_, fun e he => ?_⟩
      · obtain hhs | hhs := hhs
        · rw [hhs]
          exact mem_cons_self
        · exact mem_cons_of_mem _ hhs
      · obtain he | ⟨e', he', hle⟩ := hentries e he
        · exact .inl he
        · exact .inr ⟨e', mem_cons_of_mem _ he', hle⟩
    | entry e₀ =>
      refine ⟨hsn, ?_, fun e he => ?_⟩
      · obtain hhs | hhs := hhs
        · exact .inl hhs
        · exact .inr (mem_cons_of_mem _ hhs)
      · by_cases hlt : e.index < e₀.index
        · obtain he | ⟨e', he', hle⟩ := hentries e (by simp [absorb, he, hlt])
          · exact .inl he
          · exact .inr ⟨e', mem_cons_of_mem _ he', hle⟩
        · exact .inr ⟨e₀, mem_cons_self, not_lt.mp hlt⟩

end Recovered

open Recovered (absorb afterReady overwrite)

/-! ### Files that hold a state -/

namespace DurableRaftLog

variable {pb : Protobuf} {file : List UInt8} {s : Recovered}

/-- The file is made of records within the limit that fold to this state. -/
def Holds (pb : Protobuf) (file : List UInt8) (s : Recovered) : Prop :=
  ∃ rs, file = fileOf pb rs ∧ (∀ r ∈ rs, (framing pb).Valid r) ∧
    rs.foldlM Recovered.apply {} = .ok s

/-- **An append that is cut anywhere** is opened as the append of its complete records. -/
theorem Holds.open_append (h : Holds pb file s) (hwf : s.WellFormed) (hrs : s.AdmitsAll rs)
    (hvalid : ∀ r ∈ rs, (framing pb).Valid r) (kept : ℕ) :
    ∃ done, done <+: rs ∧
      DurableRaftLog.open pb (file ++ ((framing pb).encode rs).take kept) =
        .ok (file ++ (framing pb).encode done, done.foldl absorb s) ∧
      Holds pb (file ++ (framing pb).encode done) (done.foldl absorb s) ∧
      (done.foldl absorb s).WellFormed := by
  obtain ⟨before, rfl, hbefore, hfold⟩ := h
  set done := (framing pb).complete rs kept
  have hpre : done <+: rs := (framing pb).complete_isPrefix rs kept
  obtain ⟨t, ht, htake⟩ := (framing pb).take_encode hvalid kept
  obtain ⟨hfold', hwf'⟩ := Recovered.foldlM_apply hwf (hrs.of_isPrefix hpre)
  have hall : ∀ r ∈ before ++ done, (framing pb).Valid r := by
    intro r hr
    obtain hr | hr := mem_append.mp hr
    · exact hbefore r hr
    · exact hvalid r (hpre.subset hr)
  have hfile : fileOf pb before ++ (framing pb).encode done = fileOf pb (before ++ done) := by
    simp [fileOf]
  have hfolds : (before ++ done).foldlM Recovered.apply {} =
      .ok (done.foldl absorb s) := by
    rw [foldlM_append, hfold]
    exact hfold'
  refine ⟨done, hpre, ?_, ⟨before ++ done, hfile, hall, hfolds⟩, hwf'⟩
  rw [htake, ← append_assoc, hfile, open_encode pb hall ht, hfolds]
  simp only [Except.bind, Recovered.finish_eq hwf'.consecutive hwf'.commit_le]
  rfl

/-- A file that holds a state is opened to it. -/
theorem Holds.open_eq (h : Holds pb file s) (hwf : s.WellFormed) :
    DurableRaftLog.open pb file = .ok (file, s) := by
  obtain ⟨done, hpre, hopen, -, -⟩ :=
    @Holds.open_append [] pb file s h hwf trivial (nofun) 0
  rw [prefix_nil.mp hpre] at hopen
  simpa using hopen

/-- A completed append. -/
theorem Holds.append (h : Holds pb file s) (hwf : s.WellFormed) (hrs : s.AdmitsAll rs)
    (hvalid : ∀ r ∈ rs, (framing pb).Valid r) :
    Holds pb (file ++ (framing pb).encode rs) (rs.foldl absorb s) ∧
      (rs.foldl absorb s).WellFormed := by
  obtain ⟨before, rfl, hbefore, hfold⟩ := h
  obtain ⟨hfold', hwf'⟩ := Recovered.foldlM_apply hwf hrs
  refine ⟨⟨before ++ rs, by simp [fileOf], ?_, ?_⟩, hwf'⟩
  · intro r hr
    obtain hr | hr := mem_append.mp hr
    · exact hbefore r hr
    · exact hvalid r hr
  · rw [foldlM_append, hfold]
    exact hfold'

/-- A rewritten file holds what it was written from. -/
theorem holds_rewrite {sn : Snapshot} {tail : List Entry} {hs : HardState}
    (h : Consecutive Entry.index (sn.metadata.index + 1) tail)
    (hw : rewrite pb (some sn) tail hs = .ok file)
    (hsize : ∀ r ∈ rewritten (some sn) tail hs, (r.payload pb).length ≤ MAX_PAYLOAD) :
    Holds pb file { entries := tail, hardState := hs, snapshot := some sn } := by
  obtain ⟨-, rfl⟩ := foldlM_write_inv hw
  exact ⟨rewritten (some sn) tail hs, rfl, hsize, foldlM_rewritten hs h⟩

end DurableRaftLog

/-! ### Rounds and crashes -/

/-- Term and vote, which must be durable before a message leaves. -/
def HardState.ballot (hs : HardState) : ℕ × ℕ := (hs.term, hs.vote)

namespace Ready

variable {σ : Type} [RaftStorage σ]

/-- Every record that a `Ready` writes is within the limit of the scan. -/
def Sized (pb : Protobuf) (m : σ) (r : Ready) : Prop :=
  (∀ rec ∈ persisted r.entries r.hs, (rec.payload pb).length ≤ MAX_PAYLOAD) ∧
  ∀ sn ∈ r.snapshot, ∀ m' ∈ RaftStorage.applySnapshot m sn,
    ∀ rec ∈ rewritten (some sn) [] (view m').hardState, (rec.payload pb).length ≤ MAX_PAYLOAD

/-- A snapshot comes without entries, and with the term and vote that the storage has once
the snapshot is applied. -/
def KeepsBallot (v : LogView) (r : Ready) : Prop :=
  ∀ sn ∈ r.snapshot, r.entries = [] ∧
    (r.hs.getD v.hardState).ballot =
      (max v.hardState.term sn.metadata.term, v.hardState.vote)

/-- The hard state that comes with a snapshot commits nothing beyond the old log. -/
def CommitsWithin (v : LogView) (r : Ready) : Prop :=
  r.snapshot.isSome → ∀ hs ∈ r.hs, hs.commit ≤ v.lastIndex

/-- The commit index learnt after a hard state does not fall behind it. -/
theorem Valid.getD_commit_le {r : Ready} {v : LogView} (hr : r.Valid v) {a b : HardState}
    (hab : a.commit ≤ b.commit) (hbase : a.commit ≤ r.baseCommit v) :
    (r.hs.getD a).commit ≤ (r.hardStateAfter b).commit := by
  unfold hardStateAfter
  cases hl : r.lightCommit with
  | none => cases r.hs <;> first | exact hab | exact le_rfl
  | some c =>
    obtain ⟨hlow, -⟩ := hr.light c hl
    cases hh : r.hs with
    | none =>
      rw [hh] at hlow
      exact hbase.trans hlow
    | some hs =>
      rw [hh] at hlow
      exact hlow

theorem ballot_hardStateAfter (r : Ready) (hs : HardState) :
    (r.hardStateAfter hs).ballot = (r.hs.getD hs).ballot := by
  unfold hardStateAfter
  cases r.lightCommit <;> rfl

theorem ballot_getD (r : Ready) {a b : HardState} (hab : a.ballot = b.ballot) :
    (r.hs.getD a).ballot = (r.hs.getD b).ballot := by
  cases r.hs with
  | none => exact hab
  | some hs => rfl

end Ready

namespace RaftNode

open RaftStorage (appendAny)

variable {σ : Type} [RaftStorage σ] {pb : Protobuf} {n n' : RaftNode σ} {s spec : Recovered}
  {r : Ready} {m : σ}

/-- The file that a crash within a round can leave: some bytes of the append, or the file
rewritten for the snapshot. -/
def CrashFile (pb : Protobuf) (n : RaftNode σ) (r : Ready) (disk : List UInt8) : Prop :=
  (∃ kept, disk = n.file ++ ((framing pb).encode (persisted r.entries r.hs)).take kept) ∨
  ∃ sn n₁, r.snapshot = some sn ∧ install pb n (some sn) = some n₁ ∧ disk = n₁.file

/-- Every record that a compaction writes is within the limit of the scan. -/
def CompactSized (pb : Protobuf) (n : RaftNode σ) (index : ℕ) (data : List UInt8) : Prop :=
  ∀ term, RaftStorage.term n.mem index = .ok term →
    ∀ rec ∈ rewritten (some (n.snapshotAt index term data))
      ((view n.mem).log.filter (index < ·.index)) (view n.mem).hardState,
      (rec.payload pb).length ≤ MAX_PAYLOAD

/-- The runs of a member from an empty file, with what its completed rounds amount to: the
entries that they persisted and that are not superseded, the last snapshot, and the latest
hard state contained in any of them. A restart goes on from what the crash left. -/
inductive Drives (pb : Protobuf) : RaftNode σ → Recovered → Prop where
  | start {voters : List ℕ} {conf : Entry → Option ConfState} {n : RaftNode σ} :
      RaftNode.open pb voters conf [] = some n → Drives pb n {}
  | ready {n n' : RaftNode σ} {spec : Recovered} {r : Ready} : Drives pb n spec →
      r.Valid (view n.mem) → r.Sized pb n.mem → r.KeepsBallot (view n.mem) →
      n.handleReady pb r = some n' → Drives pb n' (spec.afterReady r)
  | compact {n n' : RaftNode σ} {spec : Recovered} {log : RaftLog} {index : ℕ}
      {data : List UInt8} {res : Except IoError Bool} : Drives pb n spec →
      log.Valid (view n.mem) → n.CompactSized pb (min index log.applied) data →
      n.compact pb log index data = some (n', res) →
      Drives pb n' (if res = .ok true then n'.app.elim spec fun sn => spec.absorb (.snapshot sn)
        else spec)
  | restart {n n' : RaftNode σ} {spec s : Recovered} {r : Ready} {disk file : List UInt8}
      {voters : List ℕ} {conf : Entry → Option ConfState} : Drives pb n spec →
      r.Valid (view n.mem) → r.Sized pb n.mem → r.KeepsBallot (view n.mem) →
      r.CommitsWithin (view n.mem) →
      CrashFile pb n r disk → DurableRaftLog.open pb disk = .ok (file, s) →
      RaftNode.open pb voters conf disk = some n' → Drives pb n' s

/-- How file, storage and completed rounds agree. The commit indices may differ: one that is
learnt on the way reaches the file only with the next hard state or rewrite. -/
structure Mirrors (pb : Protobuf) (n : RaftNode σ) (s spec : Recovered) : Prop where
  holds : Holds pb n.file s
  wellFormed : s.WellFormed
  entries : s.entries = spec.entries
  snapshot : s.snapshot = spec.snapshot
  ballot : s.hardState.ballot = spec.hardState.ballot
  memBallot : (view n.mem).hardState.ballot = spec.hardState.ballot
  memInv : n.MemInv
  app : n.app = s.snapshot
  commit_le : s.hardState.commit ≤ (view n.mem).hardState.commit
  log : (view n.mem).log.filter (s.snapshotIndex < ·.index) = s.entries
  last : (view n.mem).lastIndex = s.durableLast

section Round

variable (h : Mirrors pb n s spec) (hr : r.Valid (view n.mem))
include h hr

/-- The entries of a `Ready` without a snapshot continue the file. -/
theorem Mirrors.next (hsn : r.snapshot = none) (hne : r.entries ≠ []) :
    ∃ k, Consecutive Entry.index k r.entries ∧ (view n.mem).hardState.commit < k ∧
      k ≤ s.durableLast + 1 := by
  obtain ⟨k, hk, hlow, hgap⟩ := hr.entries hne
  simp only [Ready.baseCommit, Ready.baseLast, hsn, elim_none, h.last] at hlow hgap
  exact ⟨k, hk, hlow, hgap⟩

/-- A valid `Ready` without a snapshot, or whose snapshot comes without entries and commits
nothing beyond the old log, can be appended to the file. -/
theorem Mirrors.admits (hsn : r.snapshot.isSome → r.entries = [])
    (hc : r.CommitsWithin (view n.mem)) :
    s.AdmitsAll (persisted r.entries r.hs) ∧
      (persisted r.entries r.hs).foldl absorb s =
        { s with
          entries := overwrite s.entries r.entries
          hardState := r.hs.getD s.hardState } := by
  have hsnap := h.wellFormed.snapshot_le
  have hcommit := h.commit_le
  refine Recovered.foldl_persisted h.wellFormed (fun hne => ?_) fun hs hhs => ?_
  · have hnone : r.snapshot = none := by
      by_contra hsome
      exact hne (hsn (isSome_iff_ne_none.mpr hsome))
    obtain ⟨k, hk, hlow, hgap⟩ := h.next hr hnone hne
    exact ⟨k, hk, hcommit.trans_lt hlow, hgap⟩
  · obtain ⟨-, hlow, hhigh⟩ := hr.hs hs hhs
    cases hsn' : r.snapshot with
    | none =>
      simp only [Ready.baseCommit, Ready.lastAfter, Ready.baseLast, hsn', elim_none,
        h.last] at hlow hhigh
      exact ⟨by omega, hhigh⟩
    | some sn =>
      have hnew := hr.snapshot sn hsn'
      have hin := hc (by simp [hsn']) hs hhs
      simp only [Ready.baseCommit, hsn', elim_some] at hlow
      rw [h.last] at hin
      rw [hsn (by simp [hsn'])]
      exact ⟨by omega, hin⟩

end Round

variable [LawfulStorage σ]

/-- A freshly opened storage has the hard state of the file. A default one stays default
because a snapshot at index 0 is refused. -/
theorem restoreStorage_hardState {voters : List ℕ} {conf : Entry → Option ConfState}
    (hwf : s.WellFormed) (h : restoreStorage voters conf s = some m) :
    (view m).hardState = s.hardState := by
  obtain ⟨-, -, -, hhs | ⟨hdef, -, hzero⟩⟩ := restoreStorage_spec ⟨_, hwf.consecutive⟩ h
  · exact hhs
  · have hsnap := hwf.snapshot_le
    rw [hdef] at hsnap ⊢
    exact hzero (Nat.le_zero.mp hsnap)

/-- **A freshly opened member mirrors its file.** -/
theorem mirrors_open {voters : List ℕ} {conf : Entry → Option ConfState}
    {disk file : List UInt8} (hholds : Holds pb file s) (hwf : s.WellFormed)
    (hopen : DurableRaftLog.open pb disk = .ok (file, s))
    (hn : RaftNode.open pb voters conf disk = some n) : Mirrors pb n s s := by
  have hmem := memInv_open hn
  simp only [RaftNode.open, hopen, bind, bind_eq_some_iff, Option.pure_def, some.injEq] at hn
  obtain ⟨res, hres, mem, hrestore, rfl⟩ := hn
  cases hres
  obtain ⟨hgap, hfirst, hlog, -⟩ := restoreStorage_spec ⟨_, hwf.consecutive⟩ hrestore
  have hhs := restoreStorage_hardState hwf hrestore
  refine ⟨hholds, hwf, rfl, rfl, rfl, by rw [hhs], hmem, rfl, by rw [hhs], ?_, ?_⟩
  · rw [hlog, filter_eq_self]
    intro e he
    exact decide_eq_true (hwf.consecutive.bounds he).1
  · have hlast := hgap.lastIndex_add_one
    have := Recovered.durableLast_eq hwf.consecutive
    rw [hlog, hfirst] at hlast
    change (view mem).lastIndex = _
    omega

omit [RaftStorage σ] [LawfulStorage σ] in
/-- The part of a log above an index is overwritten as the log is. -/
theorem filter_overwrite {log : List Entry} {k i : ℕ}
    (hes : es ≠ [] → Consecutive Entry.index k es ∧ i < k) :
    (overwrite log es).filter (i < ·.index) = overwrite (log.filter (i < ·.index)) es := by
  cases es with
  | nil => rfl
  | cons e es =>
    obtain ⟨hk, hik⟩ := hes (cons_ne_nil _ _)
    have hnew : (e :: es).filter (i < ·.index) = e :: es := by
      rw [filter_eq_self]
      intro x hx
      exact decide_eq_true (hik.trans_le (hk.bounds hx).1)
    simp only [overwrite, head?_cons, elim_some, List.filter_append, hnew, List.filter_filter,
      Bool.and_comm]

/-- **A compaction keeps file, storage and rounds in agreement.** -/
theorem Mirrors.compact (h : Mirrors pb n s spec) {log : RaftLog} {index : ℕ}
    {data : List UInt8} {res : Except IoError Bool} (hlog : log.Valid (view n.mem))
    (hsize : n.CompactSized pb (min index log.applied) data)
    (hn : n.compact pb log index data = some (n', res)) :
    ∃ s', Mirrors pb n' s' (if res = .ok true then
      n'.app.elim spec fun sn => spec.absorb (.snapshot sn) else spec) := by
  have hmem' := h.memInv.compact hlog hn
  have happ : n.snapshotIndex = s.snapshotIndex := by
    rw [RaftNode.snapshotIndex, Recovered.snapshotIndex, h.app]
  obtain ⟨rfl, hres⟩ | ⟨term, mem, hi, hterm, hmem, tail, htail, hcase⟩ := compact_inv hn
  · rw [if_neg hres]
    exact ⟨s, h⟩
  have hin := h.memInv.cut_bounds hlog hi
  generalize hidx : min index log.applied = i at *
  obtain ⟨hgap, hlast', hhs', hfilter, hfirst⟩ :=
    RaftStorage.compact_spec h.memInv.gapless hin.2 hmem
  rw [max_eq_left hin.1] at hfirst
  have hes := RaftStorage.tail_eq hgap (hfirst.trans (Nat.le_succ i))
    (hlast'.trans_le hlog.lastIndex) htail
  rw [hfilter] at hes
  subst hes
  have hsized := hsize term hterm
  have hwrite : ∃ file, DurableRaftLog.compact pb (n.snapshotAt i term data)
      ((view n.mem).log.filter (i < ·.index)) (view mem).hardState = .ok file := by
    rw [hhs']
    exact ⟨_, foldlM_write pb (fun rec hrec => lt_of_valid pb (hsized rec hrec)) _⟩
  obtain ⟨rfl, e, -, herr⟩ | ⟨es', file, hes', hfile, rfl, rfl⟩ := hcase
  · obtain ⟨file, hfile⟩ := hwrite
    obtain herr | ⟨es', hes', herr⟩ := herr
    · cases herr
    · cases hes'
      rw [hfile] at herr
      cases herr
  cases hes'
  rw [hhs'] at hfile
  obtain ⟨habove, hlen⟩ := h.memInv.gapless.above (hin.1.trans (Nat.le_succ _)) hin.2
  have hend := (Recovered.durableLast_eq
    (s := ⟨_, (view n.mem).hardState, some (n.snapshotAt i term data)⟩) habove).trans hlen
  have hcommit := h.memInv.commit_le
  refine ⟨_, holds_rewrite habove hfile hsized,
    ⟨habove, hidx.symm.trans_le ?_, hcommit.trans hend.ge⟩,
    ?_, rfl, h.memBallot, ?_, hmem', rfl, ?_, hfilter, hlast'.trans hend.symm⟩
  · exact (min_le_right _ _).trans hlog.applied
  · simp only [if_true, elim_some, absorb, ← h.entries, ← h.log, List.filter_filter]
    have hsi : s.snapshotIndex < i := happ ▸ hi
    refine filter_congr fun e _ => ?_
    by_cases he : i < e.index
    · simp [snapshotAt, he, hsi.trans he]
    · simp [snapshotAt, he]
  · rw [hhs']
    exact h.memBallot
  · rw [hhs']

section Round

variable (h : Mirrors pb n s spec) (hr : r.Valid (view n.mem)) (hsize : r.Sized pb n.mem)
include h hr hsize

/-- A round without a snapshot appends to the file what the storage gets. -/
theorem Mirrors.ready_append (hsn : r.snapshot = none) (hn : n.handleReady pb r = some n') :
    ∃ s', Mirrors pb n' s' (spec.afterReady r) := by
  have hmem' := h.memInv.ready hr hn
  obtain ⟨file, n₁, mem₀, mem, q, hfile, hin, happ, hview, rfl⟩ := handleReady_inv hn
  rw [hsn] at hin
  cases hin
  obtain ⟨hadm, hfold⟩ := h.admits hr (by simp [hsn]) (by simp [Ready.CommitsWithin, hsn])
  obtain ⟨hholds, hwf⟩ := h.holds.append h.wellFormed hadm hsize.1
  rw [hfold] at hholds hwf
  obtain ⟨-, rfl⟩ := foldlM_write_inv hfile
  obtain ⟨k, hk⟩ : ∃ k, r.entries ≠ [] → Consecutive Entry.index k r.entries ∧
      (view n.mem).hardState.commit < k := by
    by_cases hne : r.entries = []
    · exact ⟨0, fun h => absurd hne h⟩
    · obtain ⟨k, hk, hlow, -⟩ := h.next hr hsn hne
      exact ⟨k, fun _ => ⟨hk, hlow⟩⟩
  have hbelow : s.snapshotIndex ≤ (view n.mem).hardState.commit :=
    h.wellFormed.snapshot_le.trans h.commit_le
  obtain ⟨-, hview₀, -, hlast⟩ :=
    RaftStorage.appendAny_spec h.memInv.gapless (fun hne => (hk hne).1) happ
  have hhs : (view mem₀).hardState = (view n.mem).hardState := by rw [hview₀]
  have hlog : (view mem).log.filter (s.snapshotIndex < ·.index) =
      overwrite s.entries r.entries := by
    rw [hview, hview₀, ← h.log]
    exact filter_overwrite fun hne => ⟨(hk hne).1, hbelow.trans_lt (hk hne).2⟩
  refine ⟨_, hholds, hwf, ?_, ?_, ?_, ?_, hmem', h.app, ?_, hlog, ?_⟩
  · simp only [afterReady, hsn, elim_none, h.entries]
  · simp [afterReady, hsn, h.snapshot]
  · exact r.ballot_getD h.ballot
  · rw [hview]
    exact (r.ballot_hardStateAfter _).trans (r.ballot_getD (hhs ▸ h.memBallot))
  · rw [hview]
    refine hr.getD_commit_le (hhs.symm ▸ h.commit_le) ?_
    simp only [Ready.baseCommit, hsn, elim_none]
    exact h.commit_le
  · obtain ⟨-, -, hlast'⟩ := Recovered.foldl_map_entry h.wellFormed fun hne =>
      (h.next hr hsn hne).imp fun k hk => ⟨hk.1, h.commit_le.trans_lt hk.2.1, hk.2.2⟩
    rw [h.last] at hlast
    rw [hview]
    exact hlast.trans hlast'.symm

variable (hkeep : r.KeepsBallot (view n.mem))
include hkeep

/-- A round with a snapshot rewrites the file as the storage restarts. -/
theorem Mirrors.ready_install {sn : Snapshot} (hsn : r.snapshot = some sn)
    (hn : n.handleReady pb r = some n') : ∃ s', Mirrors pb n' s' (spec.afterReady r) := by
  have hmem' := h.memInv.ready hr hn
  obtain ⟨file, n₁, mem₀, mem, q, hfile, hin, happ, hview, rfl⟩ := handleReady_inv hn
  rw [hsn] at hin
  obtain ⟨mem₁, file₁, q₁, hmem₁, hfile₁, rfl⟩ := install_inv hin
  obtain ⟨hnil, hkept⟩ := hkeep sn hsn
  have hsized := hsize.2 sn hsn mem₁ hmem₁
  rw [hnil] at happ
  cases happ
  rw [LawfulStorage.view_applySnapshot hmem₁] at hfile₁ hsized hview
  refine ⟨_, holds_rewrite Consecutive.nil hfile₁ hsized, ⟨Consecutive.nil, le_rfl, le_rfl⟩,
    ?_, ?_, ?_, ?_, hmem', rfl, ?_, by rw [hview]; rfl, by rw [hview]; rfl⟩
  · simp [afterReady, hsn, hnil, overwrite]
  · simp [afterReady, hsn]
  · exact hkept.symm.trans (r.ballot_getD h.memBallot)
  · rw [hview, Ready.ballot_hardStateAfter]
    refine Eq.trans ?_ (r.ballot_getD h.memBallot)
    cases hh : r.hs with
    | none =>
      rw [hh] at hkept
      exact hkept.symm
    | some hs => rfl
  · have hbase : r.baseCommit (view n.mem) = sn.metadata.index := by
      simp [Ready.baseCommit, hsn]
    rw [hview]
    refine le_trans ?_ (hr.getD_commit_le le_rfl hbase.ge)
    cases hh : r.hs with
    | none => exact le_rfl
    | some hs => exact hbase.symm.trans_le (hr.hs hs hh).2.1

/-- **A completed round keeps file, storage and rounds in agreement.** -/
theorem Mirrors.ready (hn : n.handleReady pb r = some n') :
    ∃ s', Mirrors pb n' s' (spec.afterReady r) := by
  cases hsn : r.snapshot with
  | none => exact h.ready_append hr hsize hsn hn
  | some sn => exact h.ready_install hr hsize hkeep hsn hn

/-- **Whatever a crash within a round leaves can be opened**, as a log in order that holds the
completed rounds, but for what the interrupted round overwrote. -/
theorem Mirrors.crash (hc : r.CommitsWithin (view n.mem)) {disk : List UInt8}
    (hdisk : CrashFile pb n r disk) :
    ∃ file s', DurableRaftLog.open pb disk = .ok (file, s') ∧ Holds pb file s' ∧
      s'.WellFormed ∧
      (s'.hardState.ballot = spec.hardState.ballot ∨
        ∃ hs ∈ r.hs, s'.hardState.ballot = hs.ballot) ∧
      (s'.snapshot = spec.snapshot ∧ (∀ e ∈ spec.entries, e ∈ s'.entries ∨
          ∃ e' ∈ r.entries, e'.index ≤ e.index) ∨
        r.snapshot.isSome ∧ s'.snapshot = r.snapshot) := by
  obtain ⟨kept, rfl⟩ | ⟨sn, n₁, hsn, hin, rfl⟩ := hdisk
  · obtain ⟨hadm, -⟩ := h.admits hr
      (fun hsome => (hkeep _ (eq_some_of_isSome hsome)).1) hc
    obtain ⟨done, hpre, hopen, hholds, hwf⟩ :=
      h.holds.open_append h.wellFormed hadm hsize.1 kept
    have hno : ∀ sn, RaftRecord.snapshot sn ∉ done := fun sn hsn => by
      have := hpre.subset hsn
      simp [persisted] at this
    obtain ⟨hsnap, hhs, hentries⟩ := Recovered.foldl_absorb_cases s hno
    refine ⟨_, _, hopen, hholds, hwf, ?_, .inl ⟨hsnap.trans h.snapshot, fun e he => ?_⟩⟩
    · obtain hhs | hhs := hhs
      · exact .inl (by rw [hhs, h.ballot])
      · have hmem := hpre.subset hhs
        simp only [persisted, mem_append, List.mem_map, mem_toList,
          reduceCtorEq, and_false, exists_false, false_or, RaftRecord.hardState.injEq,
          exists_eq_right] at hmem
        exact .inr ⟨_, hmem, rfl⟩
    · rw [← h.entries] at he
      obtain he | ⟨e', he', hle⟩ := hentries e he
      · exact .inl he
      · have hmem := hpre.subset he'
        simp only [persisted, mem_append, List.mem_map, reduceCtorEq, and_false,
          exists_false, or_false, RaftRecord.entry.injEq, exists_eq_right] at hmem
        exact .inr ⟨e', hmem, hle⟩
  · obtain ⟨mem₁, file₁, q₁, hmem₁, hfile₁, rfl⟩ := install_inv hin
    have hsized := hsize.2 sn hsn mem₁ hmem₁
    rw [LawfulStorage.view_applySnapshot hmem₁] at hfile₁ hsized
    have hholds := holds_rewrite Consecutive.nil hfile₁ hsized
    have hwf : Recovered.WellFormed ⟨[], { (view n.mem).hardState with
        term := max (view n.mem).hardState.term sn.metadata.term
        commit := sn.metadata.index }, some sn⟩ := ⟨Consecutive.nil, le_rfl, le_rfl⟩
    refine ⟨_, _, hholds.open_eq hwf, hholds, hwf, ?_, .inr ⟨by simp [hsn], hsn.symm⟩⟩
    have hkept := (hkeep sn hsn).2.symm
    cases hh : r.hs with
    | none =>
      rw [hh] at hkept
      exact .inl (hkept.trans h.memBallot)
    | some hs =>
      rw [hh] at hkept
      exact .inr ⟨hs, rfl, hkept⟩

end Round

/-- **Along every run file, storage and rounds agree.** -/
theorem Drives.mirrors (h : Drives pb n spec) : ∃ s, Mirrors pb n s spec := by
  induction h with
  | start hn =>
    have hopen : DurableRaftLog.open pb [] = .ok (fileOf pb [], {}) := by
      have := (@open_take [] pb (nofun) trivial 0).1
      simpa [Framing.complete] using this
    exact ⟨{}, mirrors_open ⟨[], rfl, nofun, rfl⟩
      Recovered.wellFormed_empty hopen hn⟩
  | ready _ hr hsize hkeep hn ih =>
    obtain ⟨s, ih⟩ := ih
    exact ih.ready hr hsize hkeep hn
  | compact _ hlog hsize hn ih =>
    obtain ⟨s, ih⟩ := ih
    exact ih.compact hlog hsize hn
  | restart _ hr hsize hkeep hc hdisk hopen hn ih =>
    obtain ⟨s, ih⟩ := ih
    obtain ⟨file', s', hopen', hholds, hwf, -, -⟩ := ih.crash hr hsize hkeep hc hdisk
    rw [hopen] at hopen'
    cases hopen'
    exact ⟨_, mirrors_open hholds hwf hopen hn⟩

/-- **Term and vote on disk are the latest.** In every run whose snapshots come without entries
and without a term or vote of their own, and whose records are within 16 MiB, opening the file
after any round yields the term and vote of the latest hard state that a completed round
contained. -/
theorem Drives.reopen (h : Drives pb n spec) :
    ∃ s, DurableRaftLog.open pb n.file = .ok (n.file, s) ∧
      s.hardState.term = spec.hardState.term ∧ s.hardState.vote = spec.hardState.vote := by
  obtain ⟨s, hs⟩ := h.mirrors
  have hballot := hs.ballot
  simp only [HardState.ballot, Prod.mk.injEq] at hballot
  exact ⟨s, hs.holds.open_eq hs.wellFormed, hballot⟩

/-- The snapshot of a leader that is five entries ahead. -/
def leaderSnapshot (term : ℕ) : Snapshot :=
  { metadata := { index := 5, term := term, confState := { voters := [1] } }, data := [9] }

/-- The single voter after its first entry, as a run. -/
theorem soloNode_drives : Drives .fields soloNode (afterReady {} soloReady) := by
  refine .ready (n := { mem := { confState := { voters := [1] } }, file := STORAGE_HEADER })
    (@Drives.start _ _ .fields [1] (fun _ => none) _ ?_) ?_ ⟨by decide, ?_⟩ ?_ ?_
  · decide +kernel
  · refine ⟨by simp [soloReady], fun _ => ⟨1, rfl, by decide, by decide⟩, ?_, ?_⟩
    · rintro hs ⟨⟩
      decide
    · rintro c ⟨⟩
      decide
  · rintro sn ⟨⟩
  · rintro sn ⟨⟩
  · decide +kernel

/-- A snapshot of the current term that commits its own index: the vote stays on disk. -/
theorem reopen_afterSnapshot :
    let r : Ready := { hs := some { term := 1, vote := 1, commit := 5 },
                       snapshot := some (leaderSnapshot 1) }
    ∃ n, soloNode.handleReady .fields r = some n ∧
      ∃ s, DurableRaftLog.open .fields n.file = .ok (n.file, s) ∧
        s.hardState.term = 1 ∧ s.hardState.vote = 1 := by
  intro r
  have hsome : (soloNode.handleReady .fields r).isSome := by decide +kernel
  obtain ⟨n, hn⟩ := isSome_iff_exists.mp hsome
  refine ⟨n, hn, Drives.reopen (.ready soloNode_drives ⟨?_, by simp [r], ?_, by simp [r]⟩
    ⟨by decide, ?_⟩ ?_ hn)⟩
  · rintro sn ⟨⟩
    decide
  · rintro hs ⟨⟩
    decide
  · rintro sn ⟨⟩ m ⟨⟩
    decide
  · rintro sn ⟨⟩
    decide

/-- **A snapshot that comes with a new term loses it.** The file is rewritten with the hard
state of the storage, before the one of the `Ready` has reached it: a member that hears of
term 3 along with a snapshot of term 2 answers in term 3 and finds term 2 when it restarts,
where it may vote once more. -/
theorem term_lost :
    let r : Ready := { hs := some { term := 3, vote := 0, commit := 5 },
                       snapshot := some (leaderSnapshot 2) }
    ∃ n n' : RaftNode MemStorage, RaftNode.open .fields [1] (fun _ => none) [] = some n ∧
      r.Valid (view n.mem) ∧ n.handleReady .fields r = some n' ∧
      DurableRaftLog.open .fields n'.file = .ok (n'.file,
        { hardState := { term := 2, vote := 0, commit := 5 }
          snapshot := some (leaderSnapshot 2) }) := by
  intro r
  refine ⟨{ mem := { confState := { voters := [1] } }, file := STORAGE_HEADER },
    { mem :=
        { snapshotMetadata := (leaderSnapshot 2).metadata
          hardState := { term := 3, vote := 0, commit := 5 }
          confState := { voters := [1] } }
      app := some (leaderSnapshot 2)
      file := fileOf .fields
        [.snapshot (leaderSnapshot 2), .hardState { term := 2, vote := 0, commit := 5 }]
      installedSnapshot := some (leaderSnapshot 2) },
    by decide +kernel, ⟨?_, by simp [r], ?_, by simp [r]⟩, by decide +kernel, by decide +kernel⟩
  · rintro sn ⟨⟩
    decide
  · rintro hs ⟨⟩
    decide

/-- **A crash while a `Ready` is handled loses no completed round.** In every such run, a crash
within a `Ready` whose hard state commits nothing beyond the old log if it comes with a
snapshot leaves a file that can be opened. The term and vote recovered are those of the
completed rounds or of the interrupted one and the term is no older; the snapshot is the old
or the new one; and every entry of the completed rounds is there, unless the interrupted
round overwrote it or its snapshot is the one recovered. -/
theorem Drives.crash_recovers (h : Drives pb n spec) (hr : r.Valid (view n.mem))
    (hsize : r.Sized pb n.mem) (hkeep : r.KeepsBallot (view n.mem))
    (hc : r.CommitsWithin (view n.mem)) {disk : List UInt8} (hdisk : CrashFile pb n r disk) :
    ∃ file s, DurableRaftLog.open pb disk = .ok (file, s) ∧
      spec.hardState.term ≤ s.hardState.term ∧
      (s.hardState.ballot = spec.hardState.ballot ∨
        ∃ hs ∈ r.hs, s.hardState.ballot = hs.ballot) ∧
      (s.snapshot = spec.snapshot ∧ (∀ e ∈ spec.entries, e ∈ s.entries ∨
          ∃ e' ∈ r.entries, e'.index ≤ e.index) ∨
        r.snapshot.isSome ∧ s.snapshot = r.snapshot) := by
  obtain ⟨s₀, hs₀⟩ := h.mirrors
  obtain ⟨file, s, hopen, -, -, hballot, hrest⟩ := hs₀.crash hr hsize hkeep hc hdisk
  refine ⟨file, s, hopen, ?_, hballot, hrest⟩
  obtain hballot | ⟨hs, hhs, hballot⟩ := hballot
  · exact (Prod.ext_iff.mp hballot).1.ge
  · have hterm := (hr.hs hs hhs).1
    have hmem := (Prod.ext_iff.mp hs₀.memBallot).1
    have hnew := (Prod.ext_iff.mp hballot).1
    simp only [HardState.ballot] at hmem hnew
    omega

/-- A crash inside the record of a second entry: the first round is recovered. -/
theorem crash_insideEntry :
    let r : Ready := { entries := [⟨2, 1, .normal, [8]⟩] }
    ∃ file s, DurableRaftLog.open .fields
        (soloNode.file ++ ((framing .fields).encode (persisted r.entries r.hs)).take 9) =
          .ok (file, s) ∧
      1 ≤ s.hardState.term ∧
      (s.hardState.ballot = (1, 1) ∨ ∃ hs ∈ r.hs, s.hardState.ballot = hs.ballot) ∧
      (s.snapshot = none ∧ (∀ e ∈ [⟨1, 1, .normal, [7]⟩], e ∈ s.entries ∨
          ∃ e' ∈ r.entries, e'.index ≤ e.index) ∨
        r.snapshot.isSome ∧ s.snapshot = r.snapshot) := by
  intro r
  refine Drives.crash_recovers (r := r) soloNode_drives ⟨by simp [r], ?_, by simp [r], by simp [r]⟩
    ⟨by decide, by simp [r]⟩ (by simp [r, Ready.KeepsBallot])
    (by simp [r, Ready.CommitsWithin]) (.inl ⟨9, rfl⟩)
  exact fun _ => ⟨2, rfl, by decide, by decide⟩

/-- **A crash before the rewrite makes the file unreadable.** The hard state that comes with a
snapshot commits the snapshot's index, and is appended to the old log, which is shorter. -/
theorem crash_unreadable :
    let r : Ready := { hs := some { term := 2, vote := 0, commit := 5 },
                       snapshot := some (leaderSnapshot 2) }
    ∃ (n : RaftNode MemStorage) (disk : List UInt8),
      RaftNode.open .fields [1] (fun _ => none) [] = some n ∧ r.Valid (view n.mem) ∧
      CrashFile .fields n r disk ∧
      DurableRaftLog.open .fields disk =
        .error (.invalidData "raft commit index is ahead of the durable log") := by
  intro r
  refine ⟨{ mem := { confState := { voters := [1] } }, file := STORAGE_HEADER },
    fileOf .fields [.hardState { term := 2, vote := 0, commit := 5 }],
    by decide +kernel, ⟨?_, by simp [r], ?_, by simp [r]⟩, .inl ⟨100, by decide +kernel⟩,
    by decide +kernel⟩
  · rintro sn ⟨⟩
    decide
  · rintro hs ⟨⟩
    decide

end RaftNode
end TradeCore
