import TradeCore.RaftNode

/-!
# Rewritten Raft Files

A compaction and a received snapshot both rewrite the Raft file. Whether the new file can be
opened again depends on the sizes alone: the writer accepts any payload whose length fits in
32 bits, the scan refuses one above 16 MiB.

## Main results

* `RaftNode.Reachable.memInv` — in every node that can be reached, the in-memory log has no
  gap and reaches its commit index.
* `RaftNode.reopen_iff` — a rewritten file is read back exactly when none of its records is
  larger than 16 MiB and the snapshot came without entries.
* `RaftNode.reopen_oversized` — a blob above 16 MiB leaves a file that cannot be opened.
-/

open List Option

namespace TradeCore

open RaftStorage (view)

variable {tail : List Entry} {file : List UInt8} {r : Ready} {i : ℕ}

/-! ### Scanned files -/

namespace Recovered

variable {s s' : Recovered}

/-- A recovered entry follows the entries that it leaves in place. -/
theorem appendEntry_spec {entries entries' : List Entry} {e : Entry} {a : ℕ}
    (h : Consecutive Entry.index a entries) (happ : appendEntry entries e = .ok entries') :
    ∃ a, Consecutive Entry.index a entries' := by
  unfold appendEntry at happ
  split at happ
  · cases happ
  rw [h.takeWhile_lt] at happ
  have htake := h.take (e.index - a)
  have hlast := htake.getLast?_eq
  generalize entries.take (e.index - a) = kept at happ htake hlast
  dsimp only at happ
  split at happ
  · rename_i hnone
    cases happ
    rw [getLast?_eq_none_iff.mp hnone]
    exact ⟨e.index, Consecutive.singleton e⟩
  · rename_i previous hprev
    split at happ
    · cases happ
    · rename_i hfollow
      cases happ
      have hne : kept ≠ [] := fun h0 => by simp [h0] at hprev
      have hpos := length_pos_iff.mpr hne
      rw [hprev, if_neg hne, map_some, some.injEq] at hlast
      refine ⟨a, Consecutive.append_iff.mpr ⟨htake, Consecutive.cons_iff.mpr ⟨?_, Consecutive.nil⟩⟩⟩
      rw [not_not] at hfollow
      omega

/-- Selecting what a snapshot does not cover keeps a log free of gaps. -/
theorem consecutive_filter_gt {entries : List Entry} {a : ℕ}
    (h : Consecutive Entry.index a entries) (k : ℕ) :
    ∃ a, Consecutive Entry.index a (entries.filter (k < ·.index)) := by
  rw [h.filter_gt]
  by_cases hk : k + 1 - a ≤ entries.length
  · exact ⟨_, h.drop hk⟩
  · rw [drop_eq_nil_of_le (by omega)]
    exact ⟨a, Consecutive.nil⟩

/-- Every record keeps the scanned log free of gaps. -/
theorem apply_consecutive {r : RaftRecord} (h : ∃ a, Consecutive Entry.index a s.entries)
    (happ : s.apply r = .ok s') : ∃ a, Consecutive Entry.index a s'.entries := by
  obtain ⟨a, h⟩ := h
  cases r with
  | hardState hs =>
    cases happ
    exact ⟨a, h⟩
  | entry e =>
    cases he : appendEntry s.entries e with
    | error err =>
      simp only [Recovered.apply, he] at happ
      cases happ
    | ok entries' =>
      simp only [Recovered.apply, he] at happ
      cases happ
      exact appendEntry_spec h he
  | snapshot sn =>
    cases happ
    exact consecutive_filter_gt h _

end Recovered

namespace DurableRaftLog

variable {pb : Protobuf}

/-- Whatever file is opened, the log recovered from it has no gap and reaches the commit
index. -/
theorem open_gapless {disk : List UInt8} {s : Recovered}
    (h : DurableRaftLog.open pb disk = .ok (file, s)) :
    (∃ a, Consecutive Entry.index a s.entries) ∧ s.hardState.commit ≤ s.durableLast := by
  unfold DurableRaftLog.open scan at h
  split at h
  · cases h
  split at h
  · cases h
  rename_i rest _ _
  cases hfold : foldRecords (RaftRecord.next pb) Recovered.apply rest.length {} rest with
  | error e =>
    rw [hfold] at h
    cases h
  | ok res =>
    rw [hfold] at h
    obtain ⟨a, ha⟩ := foldRecords_invariant (P := fun s => ∃ a, Consecutive Entry.index a s.entries)
      (fun s r s' hs happ => Recovered.apply_consecutive hs happ) ⟨0, Consecutive.nil⟩ hfold
    cases hfin : res.1.finish with
    | error e =>
      simp only [bind, Except.bind, hfin] at h
      cases h
    | ok s' =>
      simp only [bind, Except.bind, hfin] at h
      cases h
      unfold Recovered.finish at hfin
      dsimp only at hfin
      split at hfin
      · cases hfin
      · rename_i hcommit
        cases hfin
        refine ⟨?_, not_lt.mp hcommit⟩
        cases res.1.snapshot with
        | none => exact ⟨a, ha⟩
        | some sn => exact Recovered.consecutive_filter_gt ha _

end DurableRaftLog

/-! ### Reachable nodes -/

namespace LogView

variable {v : LogView}

/-- The index behind a log without gaps. -/
theorem Gapless.lastIndex_add_one (h : v.Gapless) :
    v.lastIndex + 1 = v.firstIndex + v.log.length := by
  have := h.first_pos
  unfold lastIndex
  omega

/-- The entries above an index within the log continue it up to the end. -/
theorem Gapless.above (h : v.Gapless) (hlow : v.firstIndex ≤ i + 1) (hhigh : i ≤ v.lastIndex) :
    Consecutive Entry.index (i + 1) (v.log.filter (i < ·.index)) ∧
      i + (v.log.filter (i < ·.index)).length = v.lastIndex := by
  have hlast := h.lastIndex_add_one
  have hdrop := h.consecutive.drop (n := i + 1 - v.firstIndex) (by omega)
  rw [Nat.add_sub_cancel' hlow] at hdrop
  rw [h.consecutive.filter_gt]
  refine ⟨hdrop, ?_⟩
  rw [length_drop]
  omega

end LogView

namespace RaftStorage

variable {σ : Type} [RaftStorage σ] [LawfulStorage σ] {m m' : σ}

/-- **Appended entries keep the log free of gaps**; they end it. -/
theorem appendAny_spec (h : (view m).Gapless) {es : List Entry} {k : ℕ}
    (hes : es ≠ [] → Consecutive Entry.index k es) (happ : appendAny m es = some m') :
    (es ≠ [] → (view m).firstIndex ≤ k ∧ k ≤ (view m).lastIndex + 1) ∧
      view m' = { view m with log := Recovered.overwrite (view m).log es } ∧
      (view m').Gapless ∧
      (view m').lastIndex = es.getLast?.elim (view m).lastIndex Entry.index := by
  cases es with
  | nil =>
    cases happ
    exact ⟨fun h => absurd rfl h, rfl, h, rfl⟩
  | cons e es =>
    have hes := hes (cons_ne_nil _ _)
    obtain ⟨rfl, -⟩ := Consecutive.cons_iff.mp hes
    obtain ⟨hlow, hhigh, hview⟩ := LawfulStorage.append_cons h happ
    have hlast := h.lastIndex_add_one
    have hlen : ((view m).log.take (e.index - (view m).firstIndex)).length =
        e.index - (view m).firstIndex := length_take_of_le (by omega)
    have hlog : Recovered.overwrite (view m).log (e :: es) =
        (view m).log.take (e.index - (view m).firstIndex) ++ e :: es := by
      rw [← h.consecutive.filter_lt]
      rfl
    have hcons : Consecutive Entry.index (view m).firstIndex
        (Recovered.overwrite (view m).log (e :: es)) := by
      rw [hlog, Consecutive.append_iff, hlen, Nat.add_sub_cancel' hlow]
      exact ⟨h.consecutive.take _, hes⟩
    have hend := hes.getLast?_eq
    rw [if_neg (cons_ne_nil _ _)] at hend
    refine ⟨fun _ => ⟨hlow, hhigh⟩, hview, hview ▸ ⟨h.first_pos, hcons⟩, ?_⟩
    cases hl : (e :: es).getLast? with
    | none => simp at hl
    | some last =>
      rw [hl, map_some, some.injEq] at hend
      simp only [hview, elim_some, hend, LogView.lastIndex, hlog, length_append, hlen]
      omega

/-- Cutting the storage at an index within the log keeps it in order. -/
theorem compact_spec (h : (view m).Gapless) (hi : i ≤ (view m).lastIndex)
    (hcut : compact m i = some m') :
    (view m').Gapless ∧ (view m').lastIndex = (view m).lastIndex ∧
      (view m').hardState = (view m).hardState ∧
      (view m').log.filter (i < ·.index) = (view m).log.filter (i < ·.index) ∧
      (view m').firstIndex ≤ max i (view m).firstIndex := by
  obtain ⟨d, hd, hview⟩ := LawfulStorage.view_compact h hi hcut
  have hlast := h.lastIndex_add_one
  have hdrop := h.consecutive.drop (n := d) (by omega)
  rw [hview]
  refine ⟨⟨Nat.add_pos_left h.first_pos _, hdrop⟩, ?_, rfl, ?_, ?_⟩
  · change (view m).firstIndex + d + ((view m).log.drop d).length - 1 = _
    rw [length_drop]
    omega
  · rw [hdrop.filter_gt, h.consecutive.filter_gt, drop_drop]
    congr 1
    omega
  · change (view m).firstIndex + d ≤ _
    omega

/-- The tail that a compaction keeps can be read: the entries above its index. -/
theorem tail_eq (h : (view m).Gapless) (hi : (view m).firstIndex ≤ i + 1) {last : ℕ}
    (hlast : (view m).lastIndex ≤ last) {res : Except IoError (List Entry)}
    (ht : RaftStorage.tail m i last = some res) :
    res = .ok ((view m).log.filter (i < ·.index)) := by
  have hend := h.lastIndex_add_one
  rw [h.consecutive.filter_gt]
  unfold RaftStorage.tail at ht
  split at ht
  · rw [LawfulStorage.entries_eq h hi ht, take_of_length_le]
    rw [length_drop]
    omega
  · cases ht
    rw [drop_eq_nil_of_le (by omega)]

end RaftStorage

namespace RaftNode

open RaftStorage (appendAny applySnapshot)

variable {σ : Type} [RaftStorage σ] [LawfulStorage σ] {m : σ} {pb : Protobuf} {n n' : RaftNode σ}

/-- The storage of a freshly opened member has the log that was recovered, behind the
recovered snapshot. -/
theorem restoreStorage_spec {voters : List ℕ} {conf : Entry → Option ConfState} {s : Recovered}
    (hs : ∃ a, Consecutive Entry.index a s.entries) (h : restoreStorage voters conf s = some m) :
    (view m).Gapless ∧ (view m).firstIndex = s.snapshotIndex + 1 ∧ (view m).log = s.entries ∧
      ((view m).hardState = s.hardState ∨ s.hardState = {} ∧
        (view m).hardState.commit = s.snapshotIndex ∧
        (s.snapshotIndex = 0 → (view m).hardState = {})) := by
  obtain ⟨a, ha⟩ := hs
  simp only [restoreStorage, bind, bind_eq_some_iff, Option.pure_def, some.injEq] at h
  obtain ⟨m₁, hm₁, m₂, hm₂, rfl⟩ := h
  have hbase : ∃ hs, view m₁ = { firstIndex := s.snapshotIndex + 1, hardState := hs } ∧
      hs.commit = s.snapshotIndex ∧ (s.snapshotIndex = 0 → hs = {}) := by
    cases hsn : s.snapshot with
    | none =>
      rw [hsn] at hm₁
      cases hm₁
      refine ⟨{}, ?_, ?_, fun _ => rfl⟩ <;>
        simp [Recovered.snapshotIndex, hsn, LawfulStorage.view_newWithConfState]
    | some sn =>
      rw [hsn] at hm₁
      have hindex : s.snapshotIndex = sn.metadata.index := by simp [Recovered.snapshotIndex, hsn]
      refine ⟨_, (LawfulStorage.view_applySnapshot hm₁).trans (by rw [hindex]), hindex.symm,
        fun h0 => ?_⟩
      -- a snapshot at index 0 is refused
      have hnone := @LawfulStorage.applySnapshot_stale σ _ _
        (RaftStorage.newWithConfState { voters := voters }) sn
        (by rw [LawfulStorage.view_newWithConfState, ← hindex, h0]; exact Nat.one_pos)
      rw [elim_some, hnone] at hm₁
      cases hm₁
  obtain ⟨hs, hview, hcommit, hzero⟩ := hbase
  have hempty : (view m₁).Gapless := by
    rw [hview]
    exact ⟨Nat.succ_pos _, Consecutive.nil⟩
  obtain ⟨-, hview₂, hgap, -⟩ := RaftStorage.appendAny_spec hempty (fun _ => ha) hm₂
  have hlog : Recovered.overwrite [] s.entries = s.entries := by
    unfold Recovered.overwrite
    cases s.entries <;> rfl
  rw [hview] at hview₂
  simp only [hlog] at hview₂
  rw [view_foldl_restoreMembership]
  rw [hview₂] at hgap
  by_cases hdef : s.hardState = {}
  · rw [if_neg (not_not.mpr hdef), hview₂]
    exact ⟨hgap, rfl, rfl, .inr ⟨hdef, hcommit, hzero⟩⟩
  · rw [if_pos hdef, LawfulStorage.view_setHardState, hview₂]
    exact ⟨⟨hgap.first_pos, hgap.consecutive⟩, rfl, rfl, .inl rfl⟩

/-- What holds of the storage of every reachable node: its log has no gap, reaches its
commit index and does not start ahead of the last snapshot. -/
structure MemInv (n : RaftNode σ) : Prop where
  gapless : (view n.mem).Gapless
  commit_le : (view n.mem).hardState.commit ≤ (view n.mem).lastIndex
  first_le : (view n.mem).firstIndex ≤ n.snapshotIndex + 1

/-- A freshly opened member. -/
theorem memInv_open {voters : List ℕ} {conf : Entry → Option ConfState} {disk : List UInt8}
    (h : RaftNode.open pb voters conf disk = some n) : n.MemInv := by
  simp only [RaftNode.open, bind, bind_eq_some_iff, Option.pure_def, some.injEq] at h
  obtain ⟨⟨file, s⟩, hopen, mem, hmem, rfl⟩ := h
  have hok : DurableRaftLog.open pb disk = .ok (file, s) := by
    cases ho : DurableRaftLog.open pb disk with
    | error e => rw [ho] at hopen; cases hopen
    | ok res => rw [ho] at hopen; cases hopen; rfl
  obtain ⟨hcons, hcommit⟩ := DurableRaftLog.open_gapless hok
  obtain ⟨hgap, hfirst, hlog, hhs⟩ := restoreStorage_spec hcons hmem
  refine ⟨hgap, ?_, hfirst.le⟩
  have hlast := hgap.lastIndex_add_one
  rw [hlog, hfirst] at hlast
  change (view mem).hardState.commit ≤ (view mem).lastIndex
  obtain hhs | ⟨-, hc, -⟩ := hhs
  · have hcons' : Consecutive Entry.index (s.snapshotIndex + 1) s.entries :=
      hfirst ▸ hlog ▸ hgap.consecutive
    have := Recovered.durableLast_eq hcons'
    rw [hhs]
    omega
  · rw [hc]
    omega

/-- The last index of a `Ready`'s own entries. -/
theorem lastAfter_eq {v : LogView} {k : ℕ} (h : Consecutive Entry.index k r.entries)
    (hne : r.entries ≠ []) : r.lastAfter v + 1 = k + r.entries.length := by
  have hlast := h.getLast?_eq
  have hpos := length_pos_iff.mpr hne
  rw [if_neg hne] at hlast
  unfold Ready.lastAfter
  cases hl : r.entries.getLast? with
  | none => exact absurd (getLast?_eq_none_iff.mp hl) hne
  | some e =>
    rw [hl, map_some, some.injEq] at hlast
    simp only [elim_some, hlast]
    omega

/-- The storage after the snapshot of a `Ready`, if it has one. -/
theorem install_mem (h : n.MemInv) (hin : install pb n r.snapshot = some n') :
    (view n'.mem).Gapless ∧ (view n'.mem).lastIndex = r.baseLast (view n.mem) ∧
      (view n'.mem).hardState.commit = r.baseCommit (view n.mem) ∧
      (view n'.mem).firstIndex ≤ n'.snapshotIndex + 1 := by
  cases hsn : r.snapshot with
  | none =>
    rw [hsn] at hin
    cases hin
    exact ⟨h.gapless, by simp [Ready.baseLast, hsn], by simp [Ready.baseCommit, hsn], h.first_le⟩
  | some sn =>
    rw [hsn] at hin
    obtain ⟨mem, file, q, hmem, -, rfl⟩ := install_inv hin
    rw [LawfulStorage.view_applySnapshot hmem]
    exact ⟨⟨Nat.succ_pos _, Consecutive.nil⟩, by simp [Ready.baseLast, hsn, LogView.lastIndex],
      by simp [Ready.baseCommit, hsn], le_rfl⟩

/-- A valid `Ready` keeps the storage in order. -/
theorem MemInv.ready (h : n.MemInv) (hr : r.Valid (view n.mem))
    (hn : n.handleReady pb r = some n') : n'.MemInv := by
  obtain ⟨file, n₁, mem₀, mem, q, -, hin, happ, hview, rfl⟩ := handleReady_inv hn
  obtain ⟨hgap, hlast, hcommit, hfirst⟩ :=
    install_mem (n := { n with file := file }) ⟨h.gapless, h.commit_le, h.first_le⟩ hin
  obtain ⟨k, hk⟩ : ∃ k, r.entries ≠ [] → Consecutive Entry.index k r.entries ∧
      r.baseCommit (view n.mem) < k ∧ k ≤ r.baseLast (view n.mem) + 1 := by
    by_cases hne : r.entries = []
    · exact ⟨0, fun h => absurd hne h⟩
    · obtain ⟨k, hk⟩ := hr.entries hne
      exact ⟨k, fun _ => hk⟩
  obtain ⟨-, hview₀, hgap₀, hlast₀⟩ :=
    RaftStorage.appendAny_spec hgap (fun hne => (hk hne).1) happ
  have hafter : (view mem).lastIndex = r.lastAfter (view n.mem) := by
    rw [hview]
    refine hlast₀.trans ?_
    rw [hlast]
    rfl
  have hbelow : r.baseCommit (view n.mem) ≤ r.lastAfter (view n.mem) := by
    by_cases hne : r.entries = []
    · have hcl := h.commit_le
      simp only [Ready.lastAfter, hne, getLast?_nil, elim_none]
      unfold Ready.baseCommit Ready.baseLast
      cases r.snapshot with
      | none => exact hcl
      | some sn => exact le_rfl
    · have := lastAfter_eq (v := view n.mem) (hk hne).1 hne
      have hpos := length_pos_iff.mpr hne
      have := (hk hne).2.1
      omega
  refine ⟨?_, ?_, ?_⟩
  · rw [hview]
    exact ⟨hgap₀.first_pos, hgap₀.consecutive⟩
  · refine le_of_le_of_eq ?_ hafter.symm
    rw [hview]
    unfold Ready.hardStateAfter
    cases hl : r.lightCommit with
    | some c' => exact (hr.light c' hl).2
    | none =>
      cases hh : r.hs with
      | some hs => exact (hr.hs hs hh).2.2
      | none =>
        simp only [elim_none, getD_none, hview₀, hcommit]
        exact hbelow
  · rw [hview, hview₀]
    exact hfirst

omit [LawfulStorage σ] in
/-- Where a compaction cuts: within the log. -/
theorem MemInv.cut_bounds (h : n.MemInv) {log : RaftLog} {index : ℕ}
    (hlog : log.Valid (view n.mem)) (hi : n.snapshotIndex < min index log.applied) :
    (view n.mem).firstIndex ≤ min index log.applied ∧
      min index log.applied ≤ (view n.mem).lastIndex :=
  ⟨h.first_le.trans hi, (min_le_right _ _).trans (hlog.applied.trans h.commit_le)⟩

/-- A compaction keeps the storage in order. -/
theorem MemInv.compact (h : n.MemInv) {log : RaftLog} {index : ℕ} {data : List UInt8}
    {res : Except IoError Bool} (hlog : log.Valid (view n.mem))
    (hn : n.compact pb log index data = some (n', res)) : n'.MemInv := by
  obtain ⟨rfl, -⟩ | ⟨term, mem, hi, hterm, hmem, tail, -, hcase⟩ := compact_inv hn
  · exact h
  have hin := h.cut_bounds hlog hi
  obtain ⟨hgap, hlast, hhs, -, hfirst⟩ := RaftStorage.compact_spec h.gapless hin.2 hmem
  have hcommit : (view mem).hardState.commit ≤ (view mem).lastIndex := by
    rw [hhs, hlast]
    exact h.commit_le
  rw [max_eq_left hin.1] at hfirst
  obtain ⟨rfl, -⟩ | ⟨es, file, -, -, rfl, -⟩ := hcase
  · exact ⟨hgap, hcommit, hfirst.trans (Nat.le_succ _)⟩
  · exact ⟨hgap, hcommit, hfirst.trans (Nat.le_succ _)⟩

/-- **Every reachable node has its storage in order.** -/
theorem Reachable.memInv (h : Reachable pb n) : n.MemInv := by
  induction h with
  | opened hopen => exact memInv_open hopen
  | ready _ hr hn ih => exact ih.ready hr hn
  | compact _ hlog hn ih => exact ih.compact hlog hn

end RaftNode

/-! ### Reading a rewritten file -/

namespace DurableRaftLog

open RaftRecord

variable {pb : Protobuf}

/-- The records of a rewritten file are folded to the snapshot, the tail and the hard state
that it was written from. -/
theorem foldlM_rewritten {sn : Snapshot} (hs : HardState)
    (h : Consecutive Entry.index (sn.metadata.index + 1) tail) :
    (rewritten (some sn) tail hs).foldlM Recovered.apply {} =
      .ok { entries := tail, hardState := hs, snapshot := some sn } := by
  have htail : ∀ (tail done : List Entry),
      Consecutive Entry.index (sn.metadata.index + 1) (done ++ tail) →
      (tail.map RaftRecord.entry).foldlM Recovered.apply
          { entries := done, snapshot := some sn } =
        .ok { entries := done ++ tail, snapshot := some sn } := by
    intro tail
    induction tail with
    | nil => intro done _; simp [pure, Except.pure]
    | cons e tail ih =>
      intro done hall
      obtain ⟨hdone, he⟩ := Consecutive.append_iff.mp hall
      obtain ⟨he, -⟩ := Consecutive.cons_iff.mp he
      have hlast := Recovered.durableLast_eq (s := { entries := done, snapshot := some sn }) hdone
      obtain ⟨happ, -, -⟩ := Recovered.apply_entry (e := e)
        (s := { entries := done, snapshot := some sn }) hdone
        (by rw [he]; simp only [Recovered.snapshotIndex, elim_some]; omega)
        (by rw [he, hlast]; simp only [Recovered.snapshotIndex, elim_some]; omega)
      have hkeep : done.filter (·.index < e.index) = done := by
        rw [hdone.filter_lt, take_of_length_le (by omega)]
      have hnext := ih (done ++ [e]) (by simpa using hall)
      rw [map_cons, foldlM_cons, happ]
      simp only [Recovered.absorb, hkeep]
      rw [append_assoc] at hnext
      exact hnext
  have hsn : Recovered.apply {} (.snapshot sn) = .ok { snapshot := some sn } := rfl
  rw [rewritten, toList_some, map_cons, map_nil, append_assoc,
    cons_append, nil_append, foldlM_cons, hsn]
  simp only [bind, Except.bind]
  rw [foldlM_append, htail tail [] h]
  by_cases hdef : hs = {}
  · subst hdef
    rfl
  · simp only [ne_eq, hdef, not_false_eq_true, if_true]
    rfl

/-- Writing records fails exactly when a payload does not fit in 32 bits. -/
theorem foldlM_write_inv {rs : List RaftRecord} {file' : List UInt8}
    (h : rs.foldlM (RaftRecord.write pb) file = .ok file') :
    (∀ r ∈ rs, (r.payload pb).length < 2 ^ 32) ∧ file' = file ++ (framing pb).encode rs := by
  induction rs generalizing file with
  | nil =>
    cases h
    simp
  | cons r rs ih =>
    rw [foldlM_cons, RaftRecord.write] at h
    split at h
    · rename_i hr
      obtain ⟨hrs, rfl⟩ := ih h
      refine ⟨forall_mem_cons.mpr ⟨hr, hrs⟩, ?_⟩
      rw [Framing.encode_cons, append_assoc]
      rfl
    · cases h

/-- A file with a record above the limit cannot be opened. -/
theorem open_oversized {rs : List RaftRecord} (hw : ∀ r ∈ rs, (r.payload pb).length < 2 ^ 32)
    (hbig : ∃ r ∈ rs, MAX_PAYLOAD < (r.payload pb).length) :
    ∃ e, DurableRaftLog.open pb (fileOf pb rs) = .error e := by
  -- the first record above the limit ends the scan
  obtain ⟨before, r, after, rfl, hbefore, hr⟩ :
      ∃ before r after, rs = before ++ r :: after ∧
        (∀ r ∈ before, (framing pb).Valid r) ∧ MAX_PAYLOAD < (r.payload pb).length := by
    clear hw
    induction rs with
    | nil => obtain ⟨r, hr, -⟩ := hbig; cases hr
    | cons r rs ih =>
      by_cases hr : MAX_PAYLOAD < (r.payload pb).length
      · exact ⟨[], r, rs, rfl, nofun, hr⟩
      · obtain ⟨r', hr', hbig'⟩ := hbig
        obtain rfl | hr' := mem_cons.mp hr'
        · exact absurd hbig' hr
        · obtain ⟨before, b, after, rfl, hb, hbb⟩ := ih ⟨r', hr', hbig'⟩
          exact ⟨r :: before, b, after, rfl, forall_mem_cons.mpr ⟨not_lt.mp hr, hb⟩, hbb⟩
  have hnext : (framing pb).next ((framing pb).enc r ++ (framing pb).encode after) =
      .error (.invalidData "raft state record is too large") :=
    next_oversized hr (hw r (by simp)) _
  have hpos : 0 < ((framing pb).enc r).length := by
    have : ((framing pb).enc r).length = 13 + (r.payload pb).length := r.length_bytes
    omega
  have hfuel : before.length < ((framing pb).encode (before ++ r :: after)).length := by
    have hlen := (framing pb).length_le_encode hbefore
    rw [Framing.encode_append, Framing.encode_cons, length_append, length_append]
    omega
  have hscan := (framing pb).foldRecords_reject Recovered.apply hbefore hnext hfuel {}
  rw [← Framing.encode_cons, ← Framing.encode_append] at hscan
  rw [fileOf, open_header, hscan]
  cases before.foldlM Recovered.apply {} with
  | error e => exact ⟨e, rfl⟩
  | ok s => exact ⟨_, rfl⟩

/-- A file that can be opened has no record above the limit. -/
theorem sized_of_open {snapshot : Option Snapshot} {hs : HardState}
    (hw : rewrite pb snapshot tail hs = .ok file) {res : List UInt8 × Recovered}
    (h : DurableRaftLog.open pb file = .ok res) :
    ∀ r ∈ rewritten snapshot tail hs, (r.payload pb).length ≤ MAX_PAYLOAD := by
  obtain ⟨hfit, rfl⟩ := foldlM_write_inv hw
  intro r hr
  by_contra hbig
  obtain ⟨e, he⟩ := open_oversized hfit ⟨r, hr, not_le.mp hbig⟩
  rw [fileOf, h] at he
  cases he

/-- **A rewritten file is read back exactly when no record is above the limit.** -/
theorem open_rewrite_iff {sn : Snapshot} {hs : HardState}
    (h : Consecutive Entry.index (sn.metadata.index + 1) tail)
    (hcommit : hs.commit ≤ sn.metadata.index + tail.length)
    (hw : rewrite pb (some sn) tail hs = .ok file) :
    DurableRaftLog.open pb file =
        .ok (file, { entries := tail, hardState := hs, snapshot := some sn }) ↔
      ∀ r ∈ rewritten (some sn) tail hs, (r.payload pb).length ≤ MAX_PAYLOAD := by
  constructor
  · exact sized_of_open hw
  · intro hsize
    obtain ⟨-, rfl⟩ := foldlM_write_inv hw
    have hlast := Recovered.durableLast_eq
      (s := { entries := tail, hardState := hs, snapshot := some sn }) h
    have hfin := Recovered.finish_eq
      (s := { entries := tail, hardState := hs, snapshot := some sn }) h (hlast ▸ hcommit)
    have hopen := open_encode pb hsize (.inl rfl)
    rw [append_nil, foldlM_rewritten hs h] at hopen
    simp only [Except.bind, hfin] at hopen
    exact hopen

end DurableRaftLog

/-! ### Compacted and installed snapshots -/

namespace RaftNode

open DurableRaftLog

/-- **Whatever the node writes on a snapshot is read back, unless it is too large.** In every
reachable node: after a successful compaction, opening the file returns the snapshot that was
taken, the entries above it and the hard state of the storage, exactly when no record of the
file is above 16 MiB; after a `Ready` with a snapshot, opening the file returns that
snapshot, the entries that came with it and the hard state of the rewrite, exactly when no
entries came with it and no record is above 16 MiB. -/
theorem reopen_iff {σ : Type} [RaftStorage σ] [LawfulStorage σ] {pb : Protobuf} {n : RaftNode σ}
    (h : Reachable pb n) :
    (∀ log index data n', log.Valid (view n.mem) →
      n.compact pb log index data = some (n', .ok true) →
      ∃ term, RaftStorage.term n.mem (min index log.applied) = .ok term ∧
        let sn := n.snapshotAt (min index log.applied) term data
        let tail := (view n.mem).log.filter (sn.metadata.index < ·.index)
        n'.app = some sn ∧
        (DurableRaftLog.open pb n'.file = .ok (n'.file,
            { entries := tail, hardState := (view n.mem).hardState, snapshot := some sn }) ↔
          ∀ r ∈ rewritten (some sn) tail (view n.mem).hardState,
            (r.payload pb).length ≤ MAX_PAYLOAD)) ∧
    ∀ r sn n', r.Valid (view n.mem) → r.snapshot = some sn → n.handleReady pb r = some n' →
      ∃ mem, RaftStorage.applySnapshot n.mem sn = some mem ∧
        (DurableRaftLog.open pb n'.file = .ok (n'.file,
            { entries := r.entries, hardState := (view mem).hardState, snapshot := some sn }) ↔
          r.entries = [] ∧ ∀ rec ∈ rewritten (some sn) [] (view mem).hardState,
            (rec.payload pb).length ≤ MAX_PAYLOAD) := by
  have hinv := h.memInv
  constructor
  · intro log index data n' hlog hn
    obtain ⟨-, hres⟩ | ⟨term, mem, hi, hterm, hmem, tail, htail, hcase⟩ := compact_inv hn
    · exact absurd rfl hres
    obtain ⟨-, e, hres, -⟩ | ⟨es, file, rfl, hfile, rfl, -⟩ := hcase
    · cases hres
    have hin := hinv.cut_bounds hlog hi
    obtain ⟨hgap, hlast, hhs, hfilter, hfirst⟩ :=
      RaftStorage.compact_spec hinv.gapless hin.2 hmem
    rw [max_eq_left hin.1] at hfirst
    have htail' := RaftStorage.tail_eq hgap (hfirst.trans (Nat.le_succ _))
      (hlast.trans_le hlog.lastIndex) htail
    rw [hfilter, Except.ok.injEq] at htail'
    subst htail'
    refine ⟨term, hterm, rfl, ?_⟩
    rw [hhs] at hfile
    obtain ⟨habove, hlen⟩ := hinv.gapless.above (hin.1.trans (Nat.le_succ _)) hin.2
    exact open_rewrite_iff habove (hinv.commit_le.trans_eq hlen.symm) hfile
  · intro r sn n' hr hsn hn
    obtain ⟨file, n₁, mem₀, mem, q, -, hin, happ, -, rfl⟩ := handleReady_inv hn
    rw [hsn] at hin
    obtain ⟨mem₁, file₁, q₁, hmem₁, hfile₁, rfl⟩ := install_inv hin
    have hcommit : (view mem₁).hardState.commit = sn.metadata.index := by
      rw [LawfulStorage.view_applySnapshot hmem₁]
    have hiff := @open_rewrite_iff [] _ pb sn _ Consecutive.nil
      (hcommit.trans_le (Nat.le_add_right _ _)) hfile₁
    refine ⟨mem₁, hmem₁, fun hopen => ?_, fun ⟨hnil, hsize⟩ => ?_⟩
    · have hsize := sized_of_open hfile₁ hopen
      have hsame := hopen.symm.trans (hiff.mpr hsize)
      simp only [Except.ok.injEq, Prod.mk.injEq, Recovered.mk.injEq] at hsame
      exact ⟨hsame.2.1, hsize⟩
    · rw [hnil]
      exact hiff.mpr hsize

/-! ### A node with one committed entry -/

/-- The `Ready` in which a single voter appends and commits its first entry. -/
def soloReady : Ready :=
  { entries := [⟨1, 1, .normal, [7]⟩]
    hs := some { term := 1, vote := 1, commit := 0 }
    lightCommit := some 1 }

/-- A single voter after its first entry. -/
def soloNode : RaftNode MemStorage :=
  { mem :=
      { entries := [⟨1, 1, .normal, [7]⟩]
        hardState := { term := 1, vote := 1, commit := 1 }
        confState := { voters := [1] } }
    file := fileOf .fields
      [.entry ⟨1, 1, .normal, [7]⟩, .hardState { term := 1, vote := 1, commit := 0 }] }

theorem soloNode_reachable : Reachable .fields soloNode := by
  refine .ready (n := { mem := { confState := { voters := [1] } }, file := STORAGE_HEADER })
    (r := soloReady) ?_ ?_ ?_
  · exact @Reachable.opened _ _ .fields [1] (fun _ => none) [] _ (by decide +kernel)
  · refine ⟨by simp [soloReady], fun _ => ⟨1, rfl, by decide, by decide⟩, ?_, ?_⟩
    · rintro hs ⟨⟩
      decide
    · rintro c ⟨⟩
      decide
  · decide +kernel

/-- The single voter after it has folded its entry into a snapshot. -/
def soloCompacted (data : List UInt8) : RaftNode MemStorage :=
  { soloNode with
    app := some (soloNode.snapshotAt 1 1 data)
    file := fileOf .fields
      [.snapshot (soloNode.snapshotAt 1 1 data), .hardState soloNode.mem.hardState] }

/-- The compaction succeeds for every blob that can be written. -/
theorem soloNode_compact {data : List UInt8}
    (h : (Protobuf.fields.snapshot.write (soloNode.snapshotAt 1 1 data)).length < 2 ^ 32) :
    soloNode.compact .fields { applied := 1, lastIndex := 1 } 1 data =
      some (soloCompacted data, .ok true) := by
  have hw : ∀ r ∈ [RaftRecord.snapshot (soloNode.snapshotAt 1 1 data),
      .hardState soloNode.mem.hardState], (r.payload .fields).length < 2 ^ 32 := by
    simp only [forall_mem_cons]
    exact ⟨h, by decide, nofun⟩
  have hfile : DurableRaftLog.compact .fields (soloNode.snapshotAt 1 1 data) []
      (view soloNode.mem).hardState = .ok (soloCompacted data).file :=
    foldlM_write .fields hw STORAGE_HEADER
  have hterm : RaftStorage.term soloNode.mem 1 = .ok 1 := rfl
  have hcut : RaftStorage.compact soloNode.mem 1 = some soloNode.mem := rfl
  have htail : RaftStorage.tail soloNode.mem 1 1 = some (.ok []) := rfl
  have hnew : ¬ (1 ≤ soloNode.snapshotIndex ∨ 1 = 0) := by decide
  simp only [RaftNode.compact, Nat.min_self, if_neg hnew, hterm, hcut, htail, bind,
    bind_some, hfile]
  rfl

/-- A small blob is read back. -/
theorem reopen_small :
    soloNode.compact .fields { applied := 1, lastIndex := 1 } 1 [9] =
      some (soloCompacted [9], .ok true) ∧
    DurableRaftLog.open .fields (soloCompacted [9]).file =
      .ok ((soloCompacted [9]).file,
        { entries := [], hardState := { term := 1, vote := 1, commit := 1 },
          snapshot := some (soloNode.snapshotAt 1 1 [9]) }) := by
  have hn := @soloNode_compact [9] (by decide)
  refine ⟨hn, ?_⟩
  obtain ⟨term, hterm, -, hiff⟩ := (reopen_iff soloNode_reachable).1
    { applied := 1, lastIndex := 1 } 1 [9] _ ⟨by decide, by decide⟩ hn
  cases hterm
  exact hiff.mpr (by decide)

/-- The size of the encoded snapshot. -/
theorem soloSnapshot_length (data : List UInt8) :
    (Protobuf.fields.snapshot.write (soloNode.snapshotAt 1 1 data)).length =
      5 + (ByteField.nat.write data.length).length + data.length := by
  have hwrite : Protobuf.fields.snapshot.write (soloNode.snapshotAt 1 1 data) =
      [1, 1, 1, 1, 0] ++ (ByteField.list .byte).write data := rfl
  rw [hwrite, length_append, ByteField.length_bytes_write, ← add_assoc]
  rfl

/-- **A blob above 16 MiB is written and never read back.** The compaction reports success,
and the file that it leaves cannot be opened. -/
theorem reopen_oversized :
    Reachable .fields soloNode ∧
    soloNode.compact .fields { applied := 1, lastIndex := 1 } 1
        (List.replicate (MAX_PAYLOAD + 1) 0) =
      some (soloCompacted (List.replicate (MAX_PAYLOAD + 1) 0), .ok true) ∧
    ∃ e, DurableRaftLog.open .fields
      (soloCompacted (List.replicate (MAX_PAYLOAD + 1) 0)).file = .error e := by
  have hlen := soloSnapshot_length (List.replicate (MAX_PAYLOAD + 1) 0)
  have hnat := ByteField.length_nat_write_le (MAX_PAYLOAD + 1)
  have hmax : MAX_PAYLOAD = 16777216 := by decide
  rw [length_replicate] at hlen
  have hfit : (Protobuf.fields.snapshot.write (soloNode.snapshotAt 1 1
      (List.replicate (MAX_PAYLOAD + 1) 0))).length < 2 ^ 32 := by omega
  refine ⟨soloNode_reachable, soloNode_compact hfit, ?_⟩
  refine open_oversized ?_ ⟨_, mem_cons_self, ?_⟩
  · simp only [forall_mem_cons]
    exact ⟨hfit, by decide, nofun⟩
  · rw [RaftRecord.payload]
    omega

end RaftNode
end TradeCore
