import TradeCore.Ledger
import TradeCore.Snapshot

/-!
# Restarts from a Snapshot

What a processor that restored a snapshot shares with the processor that wrote it. The halted
instruments need their count to fit only; everything else needs the other counts as well.

A halted instrument stays halted over restarts, so it does not trade before it is resumed,
but for amendments: they do not ask whether the instrument is halted
(`Processor.halted_without_trades`).
-/

namespace TradeCore

open Std List
open Option hiding or_assoc

/-- The members of a set after insertions. -/
theorem mem_foldl_insert (l : List ℕ) (s : ExtTreeSet ℕ) (i : ℕ) :
    i ∈ l.foldl (fun s i => s.insert i) s ↔ i ∈ s ∨ i ∈ l := by
  induction l generalizing s with
  | nil => simp
  | cons a l ih =>
    rw [foldl_cons, ih, ExtTreeSet.mem_insert, LawfulEqCmp.compare_eq_iff_eq,
      mem_cons, eq_comm, or_comm (a := i = a), or_assoc]

/-- A set is rebuilt from its members in any order. -/
theorem foldl_insert_apply (ω : HashOrder) (s : ExtTreeSet ℕ) :
    (ω.apply s.toList).foldl (fun s i => s.insert i) ∅ = s := by
  refine ExtTreeSet.ext_mem fun i => ?_
  rw [mem_foldl_insert, (OrderBook.perm_apply ω s.toList).mem_iff, ExtTreeSet.mem_toList]
  simp

namespace Processor

variable {cmd : Command} {ω : HashOrder} {reports : List ExecReport} {p p' : Processor}

/-! ### Halts -/

theorem halted_restorePositions (p : Processor) (l : List (ℕ × ℕ × ℤ)) :
    (l.foldl restorePosition p).halted = p.halted := by
  induction l generalizing p with
  | nil => rfl
  | cons e l ih => exact ih (p.restorePosition e)

theorem halted_restoreEngines {l : List EngineState} (h : l.foldlM restoreEngine p = some p') :
    p'.halted = p.halted := by
  induction l generalizing p with
  | nil =>
    cases h
    rfl
  | cons e l ih =>
    rw [foldlM_cons, bind_eq_bind, bind_eq_some_iff] at h
    obtain ⟨p₁, h₁, h⟩ := h
    rw [restoreEngine, bind_eq_bind, bind_eq_some_iff] at h₁
    obtain ⟨engine, -, heq⟩ := h₁
    cases heq
    exact (ih h).trans rfl

/-- The halted instruments that a snapshot file contains. -/
theorem persistSnapshot_eq_some {ω : SnapshotOrders} {journalSeq raftAppliedIndex : ℕ}
    {bytes : List UInt8} (h : p.persistSnapshot ω journalSeq raftAppliedIndex = some bytes) :
    ∃ d : SnapshotData, bytes = d.bytes ∧ d.halted = ω.halted.apply p.halted.toList := by
  rw [persistSnapshot, snapshotData, bind_eq_bind, bind_eq_some_iff] at h
  obtain ⟨d, hd, h⟩ := h
  rw [bind_eq_bind, bind_eq_some_iff] at hd
  obtain ⟨states, -, hd⟩ := hd
  cases hd
  rw [SnapshotData.write] at h
  split at h
  · cases h
    exact ⟨_, rfl, rfl⟩
  · cases h

/-- A restart keeps the halted instruments if they are fewer than `2 ^ 32`. -/
theorem Restarts.halted (h : p.Restarts p') (hr : ∀ i ∈ p.halted, i < 2 ^ 32)
    (hsize : p.halted.size < 2 ^ 32) : p'.halted = p.halted := by
  obtain ⟨ω, journalSeq, raftAppliedIndex, bytes, snap, hwrite, hload, hrestore⟩ := h
  obtain ⟨d, rfl, hd⟩ := persistSnapshot_eq_some hwrite
  have hperm := OrderBook.perm_apply ω.halted p.halted.toList
  have hhalted := SnapshotData.halted_of_load
    (fun i hi => hr i (ExtTreeSet.mem_toList.mp (hperm.mem_iff.mp (hd ▸ hi))))
    (by rw [hd, hperm.length_eq, ExtTreeSet.length_toList]; exact hsize) hload
  rw [halted_restoreEngines hrestore, halted_restorePositions, hhalted, hd]
  exact foldl_insert_apply ω.halted p.halted

/-- A restart with fewer than `2 ^ 32` halted instruments. -/
def FewHalts (p p' : Processor) : Prop := p.halted.size < 2 ^ 32 ∧ p.Restarts p'

/-- A command in range; an amendment on a halted instrument does not reach the other side. -/
def QuietHalts (p : Processor) (cmd : Command) : Prop :=
  cmd.InRange ∧ ∀ instrument ∈ p.halted, ∀ o newPrice newQty,
    p.Amends cmd instrument o newPrice newQty → ¬ p.Reaches instrument o newPrice newQty

/-- The halted instruments are in range. -/
theorem halted_inRange_apply (h : p.apply ω cmd = some (p', reports)) (hr : cmd.InRange)
    (hp : ∀ i ∈ p.halted, i < 2 ^ 32) : ∀ i ∈ p'.halted, i < 2 ^ 32 := by
  obtain ⟨engines, positions, rfl⟩ := exists_apply h
  intro i hi
  cases cmd with
  | halt instrument cmdId =>
    rcases ExtTreeSet.mem_insert.mp hi with heq | hi
    · rw [← LawfulEqCmp.compare_eq_iff_eq.mp heq]
      exact hr.1
    · exact hp i hi
  | resume instrument cmdId => exact hp i (ExtTreeSet.mem_of_mem_erase hi)
  | _ => exact hp i hi

/-- An instrument stays halted until it is resumed. -/
theorem mem_halted_apply (h : p.apply ω cmd = some (p', reports)) {instrument : ℕ}
    (hcmd : ∀ cmdId, cmd ≠ .resume instrument cmdId) (hp : instrument ∈ p.halted) :
    instrument ∈ p'.halted := by
  obtain ⟨engines, positions, rfl⟩ := exists_apply h
  cases cmd with
  | halt i cmdId => exact ExtTreeSet.mem_insert.mpr (.inr hp)
  | resume i cmdId =>
    refine ExtTreeSet.mem_erase.mpr ⟨fun heq => ?_, hp⟩
    exact hcmd cmdId (by rw [LawfulEqCmp.compare_eq_iff_eq.mp heq])
  | _ => exact hp

/-- **No trade on a halted instrument**, but for an amendment that reaches the other side. -/
theorem not_trade_of_halted (hs : cmd.Single) (hok : p.QuietHalts cmd)
    (h : p.apply ω cmd = some (p', reports)) {instrument : ℕ} (hp : instrument ∈ p.halted)
    (taker maker : ℕ) (aggressor : Side) (price qty makerFee takerFee : ℕ) :
    .trade instrument taker maker aggressor price qty makerFee takerFee ∉ reports := by
  intro hmem
  obtain ⟨e, taken, e', report, htaker, hsubmit, t, ht, heq⟩ := exists_trade_of_mem hs h hmem rfl
  simp only [tradeReport, ExecReport.trade.injEq] at heq
  obtain ⟨rfl, -⟩ := heq
  cases htaker with
  | new hscreen => exact (screen_eq_ok hscreen).1 hp
  | close hpull hscreen => exact (screen_eq_ok hscreen).1 hp
  | @requote instrument id newPrice newQty cmdId o b hreq hcancel =>
    exact hok.2 instrument hp o newPrice newQty ⟨id, cmdId, rfl, hreq⟩
      (reaches_of_trade hcancel hsubmit (ne_nil_of_mem ht))

/-- **A halted instrument does not trade.** Between an applied halt of an instrument and its
next resumption, also over restarts from a snapshot, no trade of the instrument is reported,
if the amendments of the interval on halted instruments do not reach the other side. -/
theorem halted_without_trades (config : ProcessorConfig) (before mid : List Event)
    (q p : Processor) (instrument cmdId : ℕ) (reports : List ExecReport)
    (h : Trace FewHalts QuietHalts (fresh config)
      (before ++ .applied q (.halt instrument cmdId) reports :: mid) p)
    (hmid : ∀ q' cmdId' reports', .applied q' (.resume instrument cmdId') reports' ∉ mid)
    (taker maker : ℕ) (aggressor : Side) (price qty makerFee takerFee : ℕ) :
    .trade instrument taker maker aggressor price qty makerFee takerFee ∉
      mid.flatMap Event.reports := by
  obtain ⟨p₀, hbefore, hrest⟩ := h.exists_of_append
  have hrestart : ∀ p p' : Processor, (∀ i ∈ p.halted, i < 2 ^ 32) → p.FewHalts p' →
      p'.halted = p.halted := fun p p' hp hstep => hstep.2.halted hp hstep.1
  have hrange := hbefore.invariant (P := fun p => ∀ i ∈ p.halted, i < 2 ^ 32)
    (fun p cmd hp => by rwa [halted_dedupe])
    (fun p ω cmd p' reports _ hok hp happly => halted_inRange_apply happly hok.1 hp)
    (fun p p' hp hstep => by rw [hrestart p p' hp hstep]; exact hp)
    (fun i hi => absurd hi ExtTreeSet.not_mem_empty)
  cases hrest with
  | @applied _ p₁ p₂ _ _ _ _ ω hs hadm hok happly hrest =>
    have hrange₁ := hrange
    rw [← p₀.halted_dedupe (.halt instrument cmdId), hadm] at hrange₁
    have hhalted : instrument ∈ p₂.halted := by
      cases happly
      exact ExtTreeSet.mem_insert.mpr (.inl (LawfulEqCmp.compare_eq_iff_eq.mpr rfl))
    have hrange₂ := halted_inRange_apply happly hok.1 hrange₁
    have hcond : Trace FewHalts
        (fun p cmd => p.QuietHalts cmd ∧ ∀ cmdId, cmd ≠ .resume instrument cmdId) p₂ mid p :=
      hrest.and fun q cmd reports hmem cmdId heq => hmid q cmdId reports (heq ▸ hmem)
    intro htrade
    refine (hcond.rule
      (P := fun p => instrument ∈ p.halted ∧ ∀ i ∈ p.halted, i < 2 ^ 32)
      (Q := fun r => r ≠ .trade instrument taker maker aggressor price qty makerFee takerFee)
      nofun (fun p cmd hp => by rwa [halted_dedupe])
      (fun p ω cmd p' reports hs hok hp happly => ⟨⟨?_, ?_⟩, ?_⟩)
      (fun p p' hp hstep => by rw [hrestart p p' hp.2 hstep]; exact hp)
      ⟨hhalted, hrange₂⟩).2 _ htrade rfl
    · exact mem_halted_apply happly hok.2 hp.1
    · exact halted_inRange_apply happly hok.1.1 hp.2
    · rintro r hr rfl
      exact not_trade_of_halted hs hok.1 happly hp.1 _ _ _ _ _ _ _ hr

/-- A buyer who comes while the instrument is halted is rejected. -/
theorem halted_without_trades_buyer : ∃ before q reports mid p,
    Trace FewHalts QuietHalts (fresh defaultConfig)
      (before ++ .applied q (.halt 0 3) reports :: mid) p ∧
    .rejected 0 4 .halted ∈ mid.flatMap Event.reports ∧
    .trade 0 4 1 .buy 105 5 0 0 ∉ mid.flatMap Event.reports := by
  have hrun : ((fresh defaultConfig).events 1 quotes).bind (fun r =>
      ((r.1.dedupe (.halt 0 3)).1.apply 1 (.halt 0 3)).bind fun r' =>
        (r'.1.events 1 [.new ((Order.limit 4 .buy 105 5).by_ 2)]).map fun r'' =>
          ((r.1.dedupe (.halt 0 3)).2, r''.2.flatMap Event.reports)) =
      some (none, [.rejected 0 4 .halted]) := by decide +kernel
  obtain ⟨⟨p₁, before⟩, hbefore, hrun⟩ := bind_eq_some_iff.mp hrun
  obtain ⟨⟨p₂, reports⟩, hhalt, hrun⟩ := bind_eq_some_iff.mp hrun
  obtain ⟨⟨p₃, mid⟩, hmid, hres⟩ := map_eq_some_iff.mp hrun
  obtain ⟨hadm, hreports⟩ := Prod.mk.inj hres
  have hok : ∀ p, ∀ c ∈ .halt 0 3 :: .new ((Order.limit 4 .buy 105 5).by_ 2) :: quotes,
      QuietHalts p c := by
    intro p c hc
    simp only [quotes, mem_cons, not_mem_nil, or_false] at hc
    rcases hc with rfl | rfl | rfl | rfl <;>
      exact ⟨by unfold Command.InRange; decide,
        fun _ _ _ _ _ h => absurd h (not_amends (by simp) _ _ _ _ _)⟩
  have htrace : Trace FewHalts QuietHalts (fresh defaultConfig)
      (before ++ .applied (p₁.dedupe (.halt 0 3)).1 (.halt 0 3) reports :: mid) p₃ := by
    refine (trace_of_events hbefore (by decide) fun c hc q _ _ => ?_).append
      (.applied 1 trivial (Prod.ext rfl hadm) ?_ hhalt
        (trace_of_events hmid (by decide) fun c hc q _ _ => ?_))
    · exact hok q c (mem_cons_of_mem _ (mem_cons_of_mem _ hc))
    · exact hok _ _ mem_cons_self
    · exact hok q c (mem_cons_of_mem _ (mem_singleton.mp hc ▸ mem_cons_self))
  refine ⟨before, _, reports, mid, p₃, htrace, by rw [hreports]; exact mem_cons_self,
    halted_without_trades defaultConfig before mid _ p₃ 0 3 reports htrace ?_ _ _ _ _ _ _ _⟩
  intro q cmdId r hmem
  cases mem_singleton.mp (mem_of_events hmid hmem)

/-- **An amendment trades on a halted instrument**: bid 2 moves to 105 and takes the ask. -/
theorem amendment_trades_halted : ∃ before q reports mid p,
    Trace undisturbed (fun _ cmd => cmd.InRange) (fresh defaultConfig)
      (before ++ .applied q (.halt 0 3) reports :: mid) p ∧
    (∀ q' cmdId reports', .applied q' (.resume 0 cmdId) reports' ∉ mid) ∧
    .trade 0 2 1 .buy 105 5 0 0 ∈ mid.flatMap Event.reports := by
  have hrun : ((fresh defaultConfig).events 1 quotes).bind (fun r =>
      ((r.1.dedupe (.halt 0 3)).1.apply 1 (.halt 0 3)).bind fun r' =>
        (r'.1.events 1 [.modify 0 2 105 5 4]).map fun r'' => ((r.1.dedupe (.halt 0 3)).2,
          decide (.trade 0 2 1 .buy 105 5 0 0 ∈ r''.2.flatMap Event.reports))) =
      some (none, true) := by decide +kernel
  obtain ⟨⟨p₁, before⟩, hbefore, hrun⟩ := bind_eq_some_iff.mp hrun
  obtain ⟨⟨p₂, reports⟩, hhalt, hrun⟩ := bind_eq_some_iff.mp hrun
  obtain ⟨⟨p₃, mid⟩, hmid, hres⟩ := map_eq_some_iff.mp hrun
  obtain ⟨hadm, htrade⟩ := Prod.mk.inj hres
  refine ⟨before, (p₁.dedupe (.halt 0 3)).1, reports, mid, p₃, ?_, fun q cmdId r hmem => ?_,
    of_decide_eq_true htrade⟩
  · refine (trace_of_events hbefore (by decide) fun c hc q _ _ => ?_).append
      (.applied 1 trivial (Prod.ext rfl hadm) (by unfold Command.InRange; decide) hhalt
        (trace_of_events hmid (by decide) fun c hc q _ _ => ?_))
    · simp only [quotes, mem_cons, not_mem_nil, or_false] at hc
      rcases hc with rfl | rfl <;> unfold Command.InRange <;> decide
    · rw [mem_singleton.mp hc]
      unfold Command.InRange
      decide
  · cases mem_singleton.mp (mem_of_events hmid hmem)

end Processor

end TradeCore
