import TradeCore.AssetLog
import TradeCore.Batch
import TradeCore.Tape

/-!
# A Shard with Journals

A standalone shard handles its commands one after the other (`Shard::handle`): a batch is taken
apart, each command is appended to the log of its instrument and to the journal of the shard, and
then processed.

## Main results

* `StandaloneShard.asset_log_portable` — the log of an instrument, replayed on another machine,
  rebuilds the book of the instrument and its reports, if the users who trade it are suspended by
  commands of the same log, its orders survive the wire format, and no forced liquidation has to
  choose an order among several.
* `StandaloneShard.suspension_not_portable` — a user suspended through another instrument is not
  suspended on the machine that takes over.
-/

open Std List Option

namespace TradeCore

variable {ω : HashOrder} {cmd : Command} {reports : List ExecReport} {order : Order}
  {p p' : Processor} {s : StandaloneShard} {i : ℕ}

/-! ### What a command depends on -/

/-- The instrument of a report. -/
def ExecReport.instrument : ExecReport → ℕ
  | .accepted i _ | .trade i _ _ _ _ _ _ _ | .filled i _ | .partiallyFilled i _ _ | .resting i _
  | .cancelled i _ | .rejected i _ _ | .modified i _ _ | .notFound i _ | .depthLevel i _ _ _ _
  | .depthEnd i _ _ | .halted i | .resumed i | .userHalted i _ | .userResumed i _ => i

/-- The user for whom a command submits an order. -/
def Command.submitter : Command → Option ℕ
  | .new order => some order.user
  | .forceClose _ user _ _ closeQty => if closeQty = 0 then none else some user
  | _ => none

theorem Command.mem_haltedAfter_congr {halted halted' : ExtTreeSet ℕ} (cmd : Command)
    (h : i ∈ halted' ↔ i ∈ halted) : i ∈ cmd.haltedAfter halted' ↔ i ∈ cmd.haltedAfter halted := by
  cases cmd with
  | halt =>
    rw [haltedAfter, haltedAfter, ExtTreeSet.mem_insert, ExtTreeSet.mem_insert, h]
  | resume =>
    rw [haltedAfter, haltedAfter, ExtTreeSet.mem_erase, ExtTreeSet.mem_erase, h]
  | _ => exact h

namespace Processor

/-- Two processors with the same view of an instrument. -/
structure Agrees (i : ℕ) (p q : Processor) : Prop where
  config : q.config = p.config
  engine : q.engineFor i = p.engineFor i
  halted : i ∈ q.halted ↔ i ∈ p.halted

/-- They treat a user alike. -/
def AgreesOn (u : ℕ) (p q : Processor) : Prop := u ≠ 0 → (u ∈ q.suspended ↔ u ∈ p.suspended)

/-- What an instrument sees of the outcome of a command. -/
def shows (i : ℕ) (r : Option (Processor × List ExecReport)) :
    Option (MatchingEngine × List ExecReport) := r.map fun a => (a.1.engineFor i, a.2)

namespace Agrees

variable {q : Processor}

variable (h : p.Agrees i q)
include h

theorem trans {r : Processor} (h' : q.Agrees i r) : p.Agrees i r :=
  ⟨h'.config.trans h.config, h'.engine.trans h.engine, h'.halted.trans h.halted⟩

theorem setEngine (e : MatchingEngine) :
    (p.setEngine i e).Agrees i (q.setEngine i e) :=
  ⟨h.config, by rw [engineFor_setEngine_self, engineFor_setEngine_self], h.halted⟩

theorem pullsAtMostOne (hi : cmd.instrument = i) (hpull : p.PullsAtMostOne cmd) :
    q.PullsAtMostOne cmd := by
  subst hi
  cases cmd with
  | forceClose instrument user closeOrderId closeSide closeQty =>
    rw [PullsAtMostOne, show q.engineFor instrument = p.engineFor instrument from h.engine]
    exact hpull
  | _ => trivial

/-- The checks of a new order. -/
theorem screen (hi : order.instrument = i) (hu : p.AgreesOn order.user q) :
    (q.screen order).2 = (p.screen order).2 := by
  subst hi
  have hsuspended : (order.user ≠ 0 ∧ order.user ∈ q.suspended) ↔
      (order.user ≠ 0 ∧ order.user ∈ p.suspended) := and_congr_right hu
  have hvetted : q.vetted order = p.vetted order := by
    simp only [vetted, h.config, h.halted, hsuspended]
  rw [screen_eq, screen_eq, hvetted]
  cases hr : p.vetted order with
  | error reason => rfl
  | ok taken =>
    have htaken : taken.instrument = order.instrument := by
      obtain ⟨-, -, -, ⟨rfl, -⟩ | ⟨g, -, rfl⟩⟩ := vetted_eq_ok hr <;> rfl
    simp only [capped, h.config]
    cases p.config.limits with
    | none => rfl
    | some limits =>
      dsimp only
      split
      · rw [htaken, h.engine]
      · rfl

/-- Submitting an order that passed the checks. -/
theorem accept (hi : order.instrument = i) :
    shows i (q.accept order) = shows i (p.accept order) := by
  subst hi
  simp only [Processor.accept, onEngine, h.engine]
  cases (p.engineFor order.instrument).submit order with
  | none => rfl
  | some r =>
    have hconfig : (q.setEngine order.instrument r.1).config =
      (p.setEngine order.instrument r.1).config := h.config
    simp [shows, hconfig, tradeReport_congr hconfig]

theorem processNew (hi : order.instrument = i) (hu : p.AgreesOn order.user q) :
    shows i (q.processNew order) = shows i (p.processNew order) := by
  have hscreen := h.screen hi hu
  have hview : (p.screen order).1.Agrees i (q.screen order).1 := by
    obtain ⟨engines, hp⟩ := p.exists_screen order
    obtain ⟨engines', hq⟩ := q.exists_screen order
    refine ⟨?_, by rw [engineFor_screen, engineFor_screen, h.engine], ?_⟩
    · rw [hp, hq]
      exact h.config
    · rw [hp, hq]
      exact h.halted
  have hvet := @vettedTo_of_screen order p
  rw [Processor.processNew, Processor.processNew]
  rcases hps : p.screen order with ⟨p₁, reason | taken⟩
  all_goals
    rcases hqs : q.screen order with ⟨q₁, r⟩
    rw [hps, hqs] at hscreen hview
    obtain rfl := hscreen
  · exact congrArg (fun e => some (e, _)) hview.engine
  · rw [hps] at hvet
    exact hview.accept ((hvet rfl).instrument.trans hi)

/-- **A command of an instrument** does the same to its engine, and reports the same, wherever
the view of the instrument and of the user is the same. -/
theorem apply (hi : cmd.instrument = i) (hu : ∀ u ∈ cmd.submitter, p.AgreesOn u q) :
    shows i (q.apply ω cmd) = shows i (p.apply ω cmd) := by
  subst hi
  cases cmd with
  | new order => exact h.processNew rfl (hu order.user rfl)
  | cancel instrument orderId cmdId =>
    have he : q.engineFor instrument = p.engineFor instrument := h.engine
    simp only [Processor.apply, onEngine, he]
    cases (p.engineFor instrument).cancel orderId <;> simp [shows, Command.instrument]
  | modify instrument orderId newPrice newQty cmdId =>
    have he : q.engineFor instrument = p.engineFor instrument := h.engine
    simp only [Processor.apply, onEngine, he]
    cases (p.engineFor instrument).modify orderId newPrice newQty with
    | none => rfl
    | some r =>
      have htrade := tradeReport_congr (show (q.setEngine instrument r.1).config =
        (p.setEngine instrument r.1).config from h.config)
      simp only [shows, bind_eq_bind, bind_some, Option.pure_def, map_some, Command.instrument,
        engineFor_setEngine_self, modifyReports, htrade]
  | forceClose instrument user closeOrderId closeSide closeQty =>
    have he : q.engineFor instrument = p.engineFor instrument := h.engine
    simp only [Processor.apply, onEngine, he]
    cases (p.engineFor instrument).cancelAllForUser ω user with
    | none => rfl
    | some r =>
      simp only [bind_eq_bind, bind_some, Option.pure_def]
      split
      · exact congrArg (fun e => some (e, _)) (h.setEngine r.1).engine
      · rename_i hqty
        have hpre : ∀ x : Option (Processor × List ExecReport), shows instrument
            (x.bind fun a => some (a.1, r.2.map (.cancelled instrument) ++ a.2)) =
              (shows instrument x).map fun a => (a.1, r.2.map (.cancelled instrument) ++ a.2) := by
          intro x
          cases x <;> rfl
        have hnew := @processNew (closeOrder instrument user closeOrderId closeSide closeQty) _ _ _
          (h.setEngine r.1) rfl (hu user (if_neg hqty))
        exact (hpre _).trans ((congrArg _ hnew).trans (hpre _).symm)
  | halt | resume | haltUser | resumeUser | batch =>
    exact congrArg (fun e => some (e, _)) h.engine

end Agrees

/-- A command of another instrument does not touch the view of this one. -/
theorem agrees_of_apply (hs : cmd.Single) (hi : cmd.instrument ≠ i)
    (h : p.apply ω cmd = some (p', reports)) : p'.Agrees i p := by
  obtain ⟨calls, outcomes, -, -, hother⟩ := apply_makes hs h
  obtain ⟨engines, positions, hp'⟩ := exists_apply h
  refine ⟨by rw [hp'], (hother i fun hc => hi hc.symm).symm, ?_⟩
  rw [hp']
  cases cmd with
  | halt instrument cmdId =>
    exact (ExtTreeSet.mem_insert.trans (or_iff_right
      fun hc => hi (Std.compare_eq_iff_eq.mp hc))).symm
  | resume instrument cmdId =>
    exact (ExtTreeSet.mem_erase.trans (and_iff_right
      fun hc => hi (Std.compare_eq_iff_eq.mp hc))).symm
  | _ => exact Iff.rfl

/-- All reports of a command are about its instrument. -/
theorem instrument_of_apply (h : p.apply ω cmd = some (p', reports)) :
    ∀ r ∈ reports, r.instrument = cmd.instrument := by
  cases apply_does h with
  | enters hcmd hnew =>
    obtain ⟨hinst, -, ids, rfl⟩ := hcmd.facts
    refine forall_mem_append.mpr ⟨List.forall_mem_map.mpr fun _ _ => rfl, ?_⟩
    cases hnew with
    | refused => exact forall_mem_singleton.mpr hinst
    | @accepted _ _ report _ hv =>
      rw [← hinst, ← hv.instrument]
      refine forall_mem_acceptReports.mpr ⟨rfl, fun _ _ _ => rfl, fun _ _ => rfl, ?_⟩
      cases report.status <;> rfl
  | cancel =>
    refine forall_mem_singleton.mpr ?_
    split <;> rfl
  | @modify _ _ _ _ _ _ outcome =>
    cases outcome with
    | requoted report => exact forall_mem_requoted (fun _ _ => rfl) rfl (fun _ => rfl) rfl
    | _ => exact forall_mem_singleton.mpr rfl
  | pull => exact List.forall_mem_map.mpr fun _ _ => rfl
  | halt | resume | haltUser | resumeUser => exact forall_mem_singleton.mpr rfl
  | batch => exact nofun

/-- Without cursors, a command with a new id passes the filters. -/
theorem gated_of_unseen (hdedup : p.config.dedup = false) (hz : cmd.id ≠ 0)
    (hnew : cmd.id ∉ p.seenCommandIds) (apply : Processor → Option (Processor × List ExecReport)) :
    p.gated cmd apply = apply (p.mark cmd.id) := by
  have hdedupe : p.dedupe cmd = (p.mark cmd.id, none) := by
    rw [dedupe, if_neg hz, if_neg hnew]
    exact if_pos (.inl hdedup)
  rw [gated, hdedupe]

end Processor

/-! ### Instruments apart -/

/-- Whenever a command of the instrument submits an order, its user is suspended by all commands
so far exactly if it is suspended by those of the instrument. `all` and `own` are the users that
these two have suspended. -/
def SelfContained (i : ℕ) : ExtTreeSet ℕ → ExtTreeSet ℕ → List Command → Prop
  | _, _, [] => True
  | all, own, cmd :: cmds =>
    (cmd.instrument = i → ∀ u ∈ cmd.submitter, u ≠ 0 → (u ∈ own ↔ u ∈ all)) ∧
      SelfContained i (cmd.suspendedAfter all)
        (if cmd.instrument = i then cmd.suspendedAfter own else own) cmds

instance decidableSelfContained (i : ℕ) : (all own : ExtTreeSet ℕ) → (cmds : List Command) →
    Decidable (SelfContained i all own cmds)
  | _, _, [] => .isTrue trivial
  | _, _, _ :: cmds => @instDecidableAnd _ _ inferInstance (decidableSelfContained i _ _ cmds)

namespace Processor

/-- No forced liquidation of the instrument finds two resting orders of its user. -/
def QuietOn (i : ℕ) (p : Processor) : List (HashOrder × Command) → Prop
  | [] => True
  | (ω, cmd) :: sched =>
    (cmd.instrument = i → p.PullsAtMostOne cmd) ∧
      ∀ p' reports, (p.gated cmd fun p => p.apply ω cmd) = some (p', reports) →
        p'.QuietOn i sched

/-- The commands of one instrument. -/
def ofInstrument (i : ℕ) (sched : List (HashOrder × Command)) : List Command :=
  (sched.map Prod.snd).filter fun c => c.instrument = i

theorem ofInstrument_cons_self (h : cmd.instrument = i) (ω : HashOrder)
    (sched : List (HashOrder × Command)) :
    ofInstrument i ((ω, cmd) :: sched) = cmd :: ofInstrument i sched :=
  filter_cons_of_pos (decide_eq_true h)

theorem ofInstrument_cons_other (h : cmd.instrument ≠ i) (ω : HashOrder)
    (sched : List (HashOrder × Command)) :
    ofInstrument i ((ω, cmd) :: sched) = ofInstrument i sched :=
  filter_cons_of_neg (by simpa using h)

/-- **The commands of an instrument alone** do to its engine what they do among all commands, and
report the same. -/
theorem mirror {sched : List (HashOrder × Command)} {q : Processor} (hagrees : p.Agrees i q)
    (hdedup : p.config.dedup = false)
    (hsched : ∀ e ∈ sched, e.2.Single ∧ e.2.InRange ∧ e.2.id ≠ 0 ∧ e.2.id ∉ p.seenCommandIds)
    (hids : (sched.map fun e => e.2.id).Nodup)
    (hseen : ∀ id ∈ q.seenCommandIds, id ∈ p.seenCommandIds)
    (hself : SelfContained i p.suspended q.suspended (sched.map Prod.snd))
    (hportable : ∀ order, .new order ∈ ofInstrument i sched → order.Portable)
    (hquiet : p.QuietOn i sched) (h : p.serve sched = some (p', reports)) (ω' : Oracle) (k : ℕ) :
    ∃ q', q.processAll ω' k ((ofInstrument i sched).map Command.rebuilt) =
        some (q', reports.filter fun r => r.instrument = i) ∧
      q'.engineFor i = p'.engineFor i := by
  induction sched generalizing p q reports k with
  | nil =>
    cases h
    exact ⟨q, by rw [ofInstrument]; exact processAll.eq_1 .., hagrees.engine⟩
  | cons e sched ih =>
    obtain ⟨ω, cmd⟩ := e
    obtain ⟨⟨hs, hr, hz, hnew⟩, hrest⟩ := forall_mem_cons.mp hsched
    rw [map_cons, nodup_cons] at hids
    obtain ⟨hself, hself'⟩ := hself
    obtain ⟨hpull, hquiet'⟩ := hquiet
    rw [serve, bind_eq_bind, bind_eq_some_iff] at h
    obtain ⟨⟨p₁, r₁⟩, hcmd, h⟩ := h
    obtain ⟨⟨p₂, r₂⟩, hserve, heq⟩ := bind_eq_some_iff.mp h
    cases heq
    have hquiet₁ := hquiet' p₁ r₁ hcmd
    rw [gated_of_unseen hdedup hz hnew] at hcmd
    obtain ⟨engines, positions, hp₁⟩ := exists_apply hcmd
    have hfresh₁ : ∀ e ∈ sched, e.2.Single ∧ e.2.InRange ∧ e.2.id ≠ 0 ∧
        e.2.id ∉ p₁.seenCommandIds := by
      intro e he
      obtain ⟨hs', hr', hz', hnew'⟩ := hrest e he
      refine ⟨hs', hr', hz', fun hmem => ?_⟩
      rw [hp₁] at hmem
      obtain hmem | hid := (mem_seen_mark p cmd.id e.2.id).mp hmem
      · exact hnew' hmem
      · exact hids.1 (hid ▸ List.mem_map_of_mem he)
    have hdedup₁ : p₁.config.dedup = false := by rw [hp₁]; exact hdedup
    have hsuspended₁ : p₁.suspended = cmd.suspendedAfter p.suspended := by rw [hp₁]; rfl
    by_cases hi : cmd.instrument = i
    · rw [ofInstrument_cons_self hi] at hportable ⊢
      -- the replayed command does to `q` what the command does to `p`
      have hmarked : (p.mark cmd.id).Agrees i (q.mark cmd.id) :=
        ⟨hagrees.config, hagrees.engine, hagrees.halted⟩
      obtain ⟨q₁, hq₁, hengine⟩ : ∃ q₁, (q.mark cmd.id).apply ω cmd = some (q₁, r₁) ∧
          q₁.engineFor i = p₁.engineFor i := by
        have hsame :
            shows i ((q.mark cmd.id).apply ω cmd) = shows i ((p.mark cmd.id).apply ω cmd) :=
          hmarked.apply hi (hself hi)
        rw [hcmd] at hsame
        obtain ⟨⟨q₁, r⟩, hq₁, heq⟩ := map_eq_some_iff.mp hsame
        obtain ⟨hengine, rfl⟩ := Prod.mk.inj heq
        exact ⟨q₁, hq₁, hengine⟩
      have hreplayed : q.process (ω'.at k) cmd.rebuilt = some (q₁, r₁) := by
        rw [q.process_rebuilt _ hr fun order horder =>
            hportable order (horder ▸ mem_cons_self),
          process_of_single q _ hs, gated_of_unseen (by rw [hagrees.config, hdedup]) hz
            fun hmem => hnew (hseen _ hmem), ← hq₁]
        exact apply_of_pullsAtMostOne (hmarked.pullsAtMostOne hi (hpull hi)) _ _
      obtain ⟨engines', positions', hq₁'⟩ := exists_apply hq₁
      have hagrees₁ : p₁.Agrees i q₁ := by
        refine ⟨?_, hengine, ?_⟩
        · rw [hp₁, hq₁']
          exact hagrees.config
        · rw [hp₁, hq₁']
          exact Command.mem_haltedAfter_congr cmd hagrees.halted
      have hsuspended' : q₁.suspended = cmd.suspendedAfter q.suspended := by rw [hq₁']; rfl
      rw [if_pos hi, ← hsuspended₁, ← hsuspended'] at hself'
      obtain ⟨q', hq', hend⟩ := ih hagrees₁ hdedup₁ hfresh₁ hids.2
        (fun id hid => by
          rw [hq₁'] at hid
          rw [hp₁]
          exact (mem_seen_mark p cmd.id id).mpr
            (((mem_seen_mark q cmd.id id).mp hid).imp_left (hseen id)))
        hself' (fun order horder => hportable order (mem_cons_of_mem _ horder)) hquiet₁ hserve
        (k + 1)
      refine ⟨q', ?_, hend⟩
      have hall : (r₁.filter fun r => r.instrument = i) = r₁ :=
        filter_eq_self.mpr fun r hr =>
          decide_eq_true ((instrument_of_apply hcmd r hr).trans hi)
      rw [map_cons, processAll_cons, hreplayed, bind_some, hq', map_some, filter_append, hall]
    · rw [ofInstrument_cons_other hi] at hportable ⊢
      have hagrees₁ : p₁.Agrees i q :=
        (agrees_of_apply hs hi hcmd).trans ⟨hagrees.config, hagrees.engine, hagrees.halted⟩
      rw [if_neg hi, ← hsuspended₁] at hself'
      obtain ⟨q', hq', hend⟩ := ih hagrees₁ hdedup₁ hfresh₁ hids.2
        (fun id hid => by
          rw [hp₁]
          exact (mem_seen_mark p cmd.id id).mpr (.inl (hseen id hid)))
        hself' hportable hquiet₁ hserve k
      refine ⟨q', ?_, hend⟩
      have hnone : (r₁.filter fun r => r.instrument = i) = [] :=
        filter_eq_nil_iff.mpr fun r hr hri =>
          hi ((instrument_of_apply hcmd r hr).symm.trans (of_decide_eq_true hri))
      rw [hq', filter_append, hnone, nil_append]

end Processor

/-! ### The shard -/

/-- What the clock says while a command is handled: whether the flush intervals of the two logs
have passed, and the times that their records get. -/
structure Tick where
  assetElapsed : Bool
  assetNanos : UInt64
  journalElapsed : Bool
  journalNanos : UInt64

/-- A shard with its journal and the logs of its instruments. -/
structure StandaloneShard where
  processor : Processor
  journal : JournalWriter
  assets : AssetJournalSet

namespace StandaloneShard

/-- Start a shard on the files of its directory. Files that cannot be read end the program. -/
def build (ω : Oracle) (config : ProcessorConfig) (snapshot journal : Option (List UInt8))
    (disk : ExtTreeMap ℕ (List UInt8)) (maxOpenWriters writerBufferBytes : Option ℕ) :
    Option StandaloneShard := do
  let .ok (processor, _, lastSeq) ← recoverStats ω (Processor.fresh config) snapshot journal | none
  let .ok w := JournalWriter.open (journal.getD []) | none
  pure
    { processor := processor
      journal := w.resumeFrom (UInt64.ofNat lastSeq)
      assets := AssetJournalSet.open disk maxOpenWriters writerBufferBytes }

/-- Handle one command: log it, then process it. A command that cannot be logged is dropped. -/
def handle (s : StandaloneShard) (tick : Tick) (ω : HashOrder) (cmd : Command) :
    Option (StandaloneShard × List ExecReport) :=
  match s.assets.append tick.assetElapsed tick.assetNanos cmd with
  | (assets, .error _) => some ({ s with assets := assets }, [])
  | (assets, .ok _) =>
    let journal := s.journal.append tick.journalElapsed tick.journalNanos (encodeCommand cmd)
    (s.processor.gated cmd fun p => p.apply ω cmd).map fun a => (⟨a.1, journal, assets⟩, a.2)

/-- Handle the parts of commands one after the other, the first at time `k`. -/
def run (s : StandaloneShard) (ticks : ℕ → Tick) (k : ℕ) :
    List (HashOrder × Command) → Option (StandaloneShard × List ExecReport)
  | [] => some (s, [])
  | (ω, cmd) :: sched => do
      let (s, reports) ← s.handle (ticks k) ω cmd
      let (s, later) ← s.run ticks (k + 1) sched
      pure (s, reports ++ later)

/-- What the journals of a shard hold. -/
structure Holds (s : StandaloneShard) (journal : List (UInt64 × Frame))
    (assets : ℕ → List (UInt64 × Frame)) : Prop where
  journal : AssetJournalSet.Writes s.journal journal
  assets : s.assets.Logs assets

theorem holds_build {ω : Oracle} {config : ProcessorConfig}
    {maxOpenWriters writerBufferBytes : Option ℕ}
    (h : build ω config none none ∅ maxOpenWriters writerBufferBytes = some s) :
    s.processor = Processor.fresh config ∧ s.Holds [] fun _ => [] := by
  cases h
  refine ⟨rfl, ?_, AssetJournalSet.logs_open _ _⟩
  exact ⟨rfl, [], [], ⟨(append_nil _).symm, rfl⟩, rfl⟩

/-- A command is processed, and its frame added to the journal and to the log of its instrument. -/
theorem Holds.handle {s' : StandaloneShard} {journal : List (UInt64 × Frame)}
    {assets : ℕ → List (UInt64 × Frame)} {tick : Tick} (h : s.Holds journal assets)
    (hs : cmd.Single) (hhandle : s.handle tick ω cmd = some (s', reports)) :
    (s.processor.gated cmd fun p => p.apply ω cmd) = some (s'.processor, reports) ∧
      s'.Holds (journal ++ [(tick.journalNanos, encodeCommand cmd)]) fun i =>
        if i = cmd.instrument then assets i ++ [(tick.assetNanos, encodeCommand cmd)]
        else assets i := by
  obtain ⟨assets', seq, happend, hlogs⟩ := h.assets.append tick.assetElapsed tick.assetNanos
    (Command.crossAsset_of_single hs)
  rw [StandaloneShard.handle, happend] at hhandle
  obtain ⟨⟨p, r⟩, hprocess, heq⟩ := map_eq_some_iff.mp hhandle
  cases heq
  exact ⟨hprocess,
    h.journal.append tick.journalElapsed tick.journalNanos (encodeCommand cmd), hlogs⟩

/-- **A run** processes its commands and adds their frames to the journal and to the logs of
their instruments. -/
theorem Holds.run {s' : StandaloneShard} {journal : List (UInt64 × Frame)}
    {assets : ℕ → List (UInt64 × Frame)} {ticks : ℕ → Tick} {k : ℕ}
    {sched : List (HashOrder × Command)} (h : s.Holds journal assets) (hs : ∀ e ∈ sched, e.2.Single)
    (hrun : s.run ticks k sched = some (s', reports)) :
    s.processor.serve sched = some (s'.processor, reports) ∧
      ∃ journal' assets', s'.Holds journal' assets' ∧
        journal'.map Prod.snd = journal.map Prod.snd ++ (sched.map Prod.snd).map encodeCommand ∧
        ∀ i, (assets' i).map Prod.snd =
          (assets i).map Prod.snd ++ (Processor.ofInstrument i sched).map encodeCommand := by
  induction sched generalizing s journal assets k reports with
  | nil =>
    cases hrun
    exact ⟨rfl, journal, assets, h, (append_nil _).symm, fun i => (append_nil _).symm⟩
  | cons e sched ih =>
    obtain ⟨ω, cmd⟩ := e
    obtain ⟨hsingle, hrest⟩ := forall_mem_cons.mp hs
    rw [StandaloneShard.run, bind_eq_bind, bind_eq_some_iff] at hrun
    obtain ⟨⟨s₁, r₁⟩, hhandle, hrun⟩ := hrun
    obtain ⟨⟨s₂, r₂⟩, hlater, heq⟩ := bind_eq_some_iff.mp hrun
    cases heq
    obtain ⟨hprocess, hholds₁⟩ := h.handle hsingle hhandle
    obtain ⟨hserve, journal', assets', hholds, hjournal, hassets⟩ := ih hholds₁ hrest hlater
    refine ⟨?_, journal', assets', hholds, ?_, fun i => ?_⟩
    · rw [Processor.serve, hprocess]
      simp only [bind_eq_bind, bind_some, hserve, Option.pure_def]
    · rw [hjournal, map_append, append_assoc]
      rfl
    · rw [hassets i]
      by_cases hi : i = cmd.instrument
      · rw [if_pos hi, map_append, append_assoc, Processor.ofInstrument_cons_self hi.symm]
        rfl
      · rw [if_neg hi, Processor.ofInstrument_cons_other fun hc => hi hc.symm]

/-- Handle the parts of all commands; a batch is taken apart. -/
def handleAll (s : StandaloneShard) (ticks : ℕ → Tick) (ω : Oracle) (cmds : List Command) :
    Option (StandaloneShard × List ExecReport) :=
  s.run ticks 0 (Command.scheduleAll ω 0 cmds)

/-! ### Moving an instrument -/

end StandaloneShard

theorem Command.id_lt_of_inRange (hs : cmd.Single) (h : cmd.InRange) :
    cmd.id < 2 ^ 64 := by
  cases cmd with
  | new order => exact h.id
  | halt | resume => exact h.2
  | cancel | haltUser | resumeUser => exact h.2.2
  | forceClose => exact h.2.2.1
  | modify => exact h.2.2.2.2
  | batch cmds => exact hs.elim

/-- There are fewer than `2 ^ 64` commands with different ids. -/
theorem Command.length_lt_of_ids {cmds : List Command} (hids : (cmds.map Command.id).Nodup)
    (h : ∀ c ∈ cmds, c.id ≠ 0 ∧ c.id < 2 ^ 64) : cmds.length < 2 ^ 64 := by
  have hsub : (cmds.map Command.id).toFinset ⊆ Finset.Ioo 0 (2 ^ 64) := by
    intro id hid
    obtain ⟨c, hc, rfl⟩ := List.mem_map.mp (List.mem_toFinset.mp hid)
    exact Finset.mem_Ioo.mpr ⟨pos_of_ne_zero (h c hc).1, (h c hc).2⟩
  have hcard := Finset.card_le_card hsub
  rw [toFinset_card_of_nodup hids, length_map, Nat.card_Ioo] at hcard
  omega

@[simp] theorem Command.id_rebuilt (cmd : Command) : cmd.rebuilt.id = cmd.id := by
  cases cmd <;> rfl

@[simp] theorem Command.instrument_rebuilt (cmd : Command) :
    cmd.rebuilt.instrument = cmd.instrument := by
  cases cmd <;> rfl

/-- The replays of the log of an instrument process its commands as they are read back. -/
theorem replay_of_frames {entries : List (UInt64 × Frame)} {cmds : List Command}
    (hframes : entries.map Prod.snd = cmds.map encodeCommand)
    (hcmds : ∀ c ∈ cmds, c.Single ∧ c.InRange ∧ c.id ≠ 0 ∧ c.instrument = i)
    (hids : (cmds.map Command.id).Nodup) {ω : Oracle} {strategy : Strategy}
    (h : (Processor.fresh { Processor.defaultConfig with strategy := strategy }).processAll ω 0
      (cmds.map Command.rebuilt) = some (p, reports)) :
    ∃ info summary,
      replayFresh ω (some (Journal.fileWith entries)) i strategy = some (.ok (p, info)) ∧
      replayWithReports ω (some (Journal.fileWith entries)) i strategy = some (.ok summary) ∧
      summary.reports = reports := by
  have hentries := assetEntries_numbered hframes fun c hc => ⟨(hcmds c hc).1, (hcmds c hc).2.1⟩
  have hread : readJournal (Journal.fileWith entries) = .ok (Journal.numbered entries) :=
    Journal.readJournal_encode _
  have hlength : entries.length < 2 ^ 64 := by
    have hlt := Command.length_lt_of_ids hids fun c hc =>
      ⟨(hcmds c hc).2.2.1, Command.id_lt_of_inRange (hcmds c hc).1 (hcmds c hc).2.1⟩
    rwa [← length_map encodeCommand, ← hframes, length_map] at hlt
  obtain ⟨info, hinspect⟩ : ∃ info, inspect (some (Journal.fileWith entries)) i = .ok info := by
    refine inspect_fileWith fun e he => ?_
    obtain ⟨c, hc, hframe⟩ := List.mem_map.mp (hframes ▸ List.mem_map_of_mem he)
    refine ⟨c.rebuilt, ?_, (Command.instrument_rebuilt c).trans (hcmds c hc).2.2.2⟩
    rw [← hframe, Frame.toCommand_encode (hcmds c hc).1 (hcmds c hc).2.1]
  -- no id repeats, so the filter of the replay keeps every command
  have hmap : ((cmds.map fun c => (c.rebuilt, encodeCommand c)).map Prod.fst) =
      cmds.map Command.rebuilt := List.map_map
  have hnodup : ((cmds.map Command.rebuilt).map Command.id).Nodup := by
    rwa [List.map_map, show Command.id ∘ Command.rebuilt = Command.id from
      funext Command.id_rebuilt]
  rw [← hmap] at hnodup h
  obtain ⟨seen, hfeed⟩ := @Replayed.feedAll_start "asset WAL" _ _ _ _ _ (.of_nodup hnodup) h
  rw [← hentries] at hfeed
  refine ⟨info, ⟨info, fingerprintReports reports, reports, p⟩, ?_, ?_, rfl⟩
  · rw [replayFresh, replayInto, hinspect, getD_some, hread]
    simp only [filter_numbered hlength, hfeed]
    rfl
  · rw [replayWithReports]
    simp only [hread, hfeed, hinspect]
    rfl

namespace StandaloneShard

/-- **The log of an instrument is portable** where the shard keeps instruments apart: on another
machine it rebuilds the engine of the instrument and repeats its reports. -/
theorem asset_log_portable {ω₀ ω : Oracle} {strategy : Strategy}
    {maxOpenWriters writerBufferBytes : Option ℕ} {s₀ s : StandaloneShard} {ticks : ℕ → Tick}
    {cmds : List Command} {reports : List ExecReport} {i : ℕ}
    (hbuild : build ω₀ { Processor.defaultConfig with strategy := strategy } none none ∅
      maxOpenWriters writerBufferBytes = some s₀)
    (hcmds : ∀ c ∈ Command.allLeaves cmds, c.InRange ∧ c.id ≠ 0)
    (hids : ((Command.allLeaves cmds).map Command.id).Nodup)
    (hrun : s₀.handleAll ticks ω cmds = some (s, reports))
    (hlog : ∃ c ∈ Command.allLeaves cmds, c.instrument = i)
    (hself : SelfContained i ∅ ∅ (Command.allLeaves cmds))
    (hportable : ∀ order, .new order ∈ Command.allLeaves cmds → order.instrument = i →
      order.Portable)
    (hquiet : s₀.processor.QuietOn i (Command.scheduleAll ω 0 cmds)) (ω' : Oracle) :
    ∃ p info summary,
      replayFresh ω' (s.assets.flushAll.fileOf i) i strategy = some (.ok (p, info)) ∧
      p.engineFor i = s.processor.engineFor i ∧
      replayWithReports ω' (s.assets.flushAll.fileOf i) i strategy = some (.ok summary) ∧
      summary.reports = reports.filter fun r => r.instrument = i := by
  obtain ⟨hprocessor, hholds⟩ := holds_build hbuild
  obtain ⟨hleaves, hsingle⟩ := Command.map_schedule.2 cmds ω 0
  rw [handleAll] at hrun
  generalize Command.scheduleAll ω 0 cmds = sched at hrun hleaves hquiet
  rw [← hleaves] at hcmds hids hlog hself hportable hsingle
  have hscheduled : ∀ e ∈ sched, e.2.Single := fun e he => hsingle e.2 (List.mem_map_of_mem he)
  obtain ⟨hserve, journal, assets, hholds', -, hassets⟩ := hholds.run hscheduled hrun
  have hframes : (assets i).map Prod.snd = (Processor.ofInstrument i sched).map encodeCommand := by
    rw [hassets i]
    rfl
  obtain ⟨c, hc, hi⟩ := hlog
  have hne : assets i ≠ [] := by
    intro hnil
    have hmem : c ∈ Processor.ofInstrument i sched :=
      mem_filter.mpr ⟨hc, decide_eq_true hi⟩
    rw [hnil, map_nil, eq_comm, map_eq_nil_iff] at hframes
    rw [hframes] at hmem
    exact not_mem_nil hmem
  have hown : ∀ c ∈ Processor.ofInstrument i sched,
      c.Single ∧ c.InRange ∧ c.id ≠ 0 ∧ c.instrument = i := by
    intro c hc
    obtain ⟨hmem, hi⟩ := mem_filter.mp hc
    exact ⟨hsingle c hmem, (hcmds c hmem).1, (hcmds c hmem).2, of_decide_eq_true hi⟩
  rw [hprocessor] at hserve hquiet
  obtain ⟨p, hp, hengine⟩ := Processor.mirror ⟨rfl, rfl, Iff.rfl⟩ rfl
    (fun e he => ⟨hscheduled e he, hcmds e.2 (List.mem_map_of_mem he) |>.1,
      hcmds e.2 (List.mem_map_of_mem he) |>.2, ExtTreeSet.not_mem_empty⟩)
    (by rwa [List.map_map] at hids) (fun _ hid => hid) hself
    (fun order horder => hportable order (mem_filter.mp horder).1
      (of_decide_eq_true (mem_filter.mp horder).2)) hquiet hserve ω' 0
  obtain ⟨info, summary, hfresh, hreports, heq⟩ := replay_of_frames hframes hown
    (hids.sublist (filter_sublist.map _)) hp
  rw [hholds'.assets.fileOf_flushAll hne]
  exact ⟨p, info, summary, hfresh, hengine, hreports, heq⟩

/-- Two orders of a suspended user and of another one that trade, on instrument 1, while the first
user trades on instrument 0 as well. -/
def tradesApart : List Command :=
  [.new { Order.limit 1 .sell 100 5 with user := 9 },
    .new { Order.limit 2 .sell 100 5 with instrument := 1, user := 9 },
    .haltUser 1 9 3, .new { Order.limit 4 .buy 100 3 with instrument := 1, user := 8 },
    .new { Order.limit 5 .buy 100 1 with instrument := 1, user := 9 }]

/-- The run of a new shard that does not abort. -/
theorem exists_handleAll (cmds : List Command)
    (h : ((build default Processor.defaultConfig none none ∅ none none).bind fun s₀ =>
      s₀.handleAll (fun _ => ⟨false, 0, false, 0⟩) default cmds).isSome) :
    ∃ s₀ s reports, build default Processor.defaultConfig none none ∅ none none = some s₀ ∧
      s₀.handleAll (fun _ => ⟨false, 0, false, 0⟩) default cmds = some (s, reports) := by
  obtain ⟨⟨s, reports⟩, h⟩ := isSome_iff_exists.mp h
  obtain ⟨s₀, hbuild, hrun⟩ := bind_eq_some_iff.mp h
  exact ⟨s₀, s, reports, hbuild, hrun⟩

/-- A user is suspended by a command of the same log. -/
theorem asset_log_portable_suspended : ∃ s₀ s reports p info summary,
    build default Processor.defaultConfig none none ∅ none none = some s₀ ∧
    s₀.handleAll (fun _ => ⟨false, 0, false, 0⟩) default tradesApart = some (s, reports) ∧
    replayFresh default (s.assets.flushAll.fileOf 1) 1 .priceTimePriority = some (.ok (p, info)) ∧
    p.engineFor 1 = s.processor.engineFor 1 ∧
    replayWithReports default (s.assets.flushAll.fileOf 1) 1 .priceTimePriority =
      some (.ok summary) ∧
    summary.reports = reports.filter fun r => r.instrument = 1 := by
  obtain ⟨s₀, s, reports, hbuild, hrun⟩ := exists_handleAll tradesApart (by decide +kernel)
  have hleaves : Command.allLeaves tradesApart = tradesApart := by
    simp [tradesApart, Command.allLeaves, Command.leaves]
  obtain ⟨p, info, summary, hfresh, hengine, hreports, heq⟩ :=
    @asset_log_portable default default .priceTimePriority none none s₀ s _ tradesApart reports 1
      hbuild
      (by
        rw [hleaves]
        simp only [tradesApart, forall_mem_cons, Command.InRange]
        exact ⟨by decide, by decide, by decide, by decide, by decide, by simp⟩)
      (by rw [hleaves]; decide) hrun
      (by rw [hleaves]; exact ⟨_, mem_cons_of_mem _ mem_cons_self, rfl⟩)
      (by rw [hleaves]; decide +kernel)
      (by rw [hleaves]; simp [tradesApart, Order.Portable, Order.limit])
      (by simp [tradesApart, Command.scheduleAll, Command.schedule, Processor.QuietOn,
        Processor.PullsAtMostOne])
      default
  exact ⟨s₀, s, reports, p, info, summary, hbuild, hrun, hfresh, hengine, hreports, heq⟩

/-- A user is suspended on instrument 0 and sends an order for instrument 1. -/
def suspendedElsewhere : List Command :=
  [.haltUser 0 9 1, .new { Order.limit 2 .buy 100 5 with instrument := 1, user := 9 }]

/-- **A user suspended through another instrument** is not suspended in the replay: the shard has
rejected the order, and the replay accepts it. -/
theorem suspension_not_portable : ∃ s₀ s reports summary,
    build default Processor.defaultConfig none none ∅ none none = some s₀ ∧
    s₀.handleAll (fun _ => ⟨false, 0, false, 0⟩) default suspendedElsewhere = some (s, reports) ∧
    replayWithReports default (s.assets.flushAll.fileOf 1) 1 .priceTimePriority =
      some (.ok summary) ∧
    (reports.filter fun r => r.instrument = 1) = [.rejected 1 2 .userSuspended] ∧
    summary.reports = [.accepted 1 2, .resting 1 2] := by
  have h : ((build default Processor.defaultConfig none none ∅ none none).bind fun s₀ =>
      (s₀.handleAll (fun _ => ⟨false, 0, false, 0⟩) default suspendedElsewhere).bind fun a =>
        (replayWithReports default (a.1.assets.flushAll.fileOf 1) 1
          .priceTimePriority).bind fun b => b.toOption.map fun summary =>
            (a.2.filter fun r => r.instrument = 1, summary.reports)) =
      some ([.rejected 1 2 .userSuspended], [.accepted 1 2, .resting 1 2]) := by decide +kernel
  obtain ⟨s₀, hbuild, h⟩ := bind_eq_some_iff.mp h
  obtain ⟨⟨s, reports⟩, hrun, h⟩ := bind_eq_some_iff.mp h
  obtain ⟨b, hreplay, h⟩ := bind_eq_some_iff.mp h
  cases b with
  | error e => cases h
  | ok summary =>
    obtain ⟨hlive, hreplayed⟩ := Prod.mk.inj (some.inj h)
    exact ⟨s₀, s, reports, summary, hbuild, hrun, hreplay, hlive, hreplayed⟩

end StandaloneShard

end TradeCore
