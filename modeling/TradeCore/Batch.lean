import TradeCore.ProcessorSpec

/-!
# Batches

A batch is meant to be a way of sending several commands at once: processing it should be
processing its commands one after the other. The duplicate filter runs on the batch as well as
on each command, and a batch answers to the id of its first command. So the batch marks that
id as seen, and its first command, or the whole nested batch at its head, is then rejected as
a duplicate.

`Command.schedule` takes a command apart into its single commands, each with the iteration
order that it meets, and `Processor.serve` processes such a list. The two ways agree exactly
if each batch with an id has a single command at its head and that command is stale, that is
rejected anyway by the cursor of its queue (`Processor.Transparent`).

## Main results

* `Processor.transparent_or_differs` — a transparent batch is its commands one after the other;
  any other batch loses a command or rejects one that was due.
* `Processor.batch_transparent_iff` — both together.
-/

namespace TradeCore

open Std List
open Option hiding or_assoc

variable {cmd : Command}

/-! ### Commands taken apart -/

mutual

/-- The single commands of a command in order, with the iteration orders that they meet. -/
def Command.schedule (ω : Oracle) : Command → List (HashOrder × Command)
  | .batch cmds => Command.scheduleAll ω 0 cmds
  | cmd => [(ω [], cmd)]

/-- The single commands of a list, the first command at position `i`. -/
def Command.scheduleAll (ω : Oracle) (i : ℕ) : List Command → List (HashOrder × Command)
  | [] => []
  | cmd :: cmds => cmd.schedule (ω.at i) ++ Command.scheduleAll ω (i + 1) cmds

end

theorem Command.schedule_of_single (h : cmd.Single) (ω : Oracle) :
    cmd.schedule ω = [(ω [], cmd)] := by
  cases cmd with
  | batch cmds => exact h.elim
  | _ => rw [Command.schedule]; nofun

/-- The scheduled commands are the leaves, and they are single. -/
theorem Command.map_schedule :
    (∀ (cmd : Command) (ω : Oracle),
      (cmd.schedule ω).map Prod.snd = cmd.leaves ∧ ∀ l ∈ cmd.leaves, l.Single) ∧
    ∀ (cmds : List Command) (ω : Oracle) (i : ℕ),
      (scheduleAll ω i cmds).map Prod.snd = allLeaves cmds ∧
        ∀ l ∈ allLeaves cmds, l.Single := by
  refine Command.induct (fun cmd hs ω => ?_) (fun cmds h ω => ?_)
    (fun _ _ => ⟨rfl, nofun⟩) fun cmd cmds h hs ω i => ?_
  · rw [schedule_of_single hs, leaves_of_single hs]
    exact ⟨rfl, forall_mem_singleton.mpr hs⟩
  · rw [Command.schedule, leaves]
    exact h ω 0
  · rw [scheduleAll, allLeaves, map_append, (h _).1, (hs _ _).1]
    exact ⟨rfl, forall_mem_append.mpr ⟨(h ω).2, (hs ω i).2⟩⟩

/-- A command with an id starts with the single command that the id names. -/
theorem Command.exists_leaves_cons (h : cmd.id ≠ 0) :
    ∃ l rest, cmd.leaves = l :: rest ∧ l.id = cmd.id ∧ l.instrument = cmd.instrument := by
  refine (Command.induct (P := fun cmd => cmd.id ≠ 0 → ∃ l rest, cmd.leaves = l :: rest ∧
      l.id = cmd.id ∧ l.instrument = cmd.instrument)
    (Q := fun cmds => ∀ c ∈ cmds.head?, c.id ≠ 0 → ∃ l rest, allLeaves cmds = l :: rest ∧
      l.id = c.id ∧ l.instrument = c.instrument)
    (fun cmd hs _ => ⟨cmd, [], leaves_of_single hs, rfl, rfl⟩) (fun cmds hall hz => ?_) nofun
    fun cmd cmds hcmd _ c hc hz => ?_).1 cmd h
  · cases cmds with
    | nil =>
      rw [Command.id] at hz
      exact absurd rfl hz
    | cons c cs =>
      rw [Command.id] at hz ⊢
      rw [leaves, Command.instrument]
      exact hall c rfl hz
  · obtain rfl : cmd = c := some.inj hc
    obtain ⟨l, rest, hl, hid⟩ := hcmd hz
    exact ⟨l, rest ++ allLeaves cmds, by rw [allLeaves, hl, cons_append], hid⟩

/-- The command comes through the high-priority queue. -/
def Command.admin (cmd : Command) : Bool := cmd.stream.2.2

theorem Command.stream_of_single (h : cmd.Single) :
    cmd.stream = (cmd.id, cmd.instrument, cmd.admin) := by
  cases cmd with
  | batch cmds => exact h.elim
  | _ => rfl

/-- The iteration orders that the single commands of a batch meet, for the sequence of these
commands. -/
def Oracle.flat (ω : Oracle) (cmds : List Command) : Oracle :=
  fun place => (Command.scheduleAll ω 0 cmds)[place.headD 0]?.elim 1 Prod.fst

open Command (allLeaves scheduleAll map_schedule exists_leaves_cons leaves)

namespace Processor

variable {cmd l : Command} {sched : List (HashOrder × Command)} {a b cmds : List Command}
  {expected reports : List ExecReport} {ω : Oracle} {p p' q : Processor} {i : ℕ}

/-- Process single commands one after the other, each under its own iteration order. -/
def serve (p : Processor) : List (HashOrder × Command) → Option (Processor × List ExecReport)
  | [] => some (p, [])
  | (ω, cmd) :: rest => do
      let (p, reports) ← p.gated cmd fun p => p.apply ω cmd
      let (p, later) ← p.serve rest
      pure (p, reports ++ later)

theorem serve_append (p : Processor) (a b : List (HashOrder × Command)) :
    p.serve (a ++ b) = (p.serve a).bind fun r =>
      (r.1.serve b).map fun r' => (r'.1, r.2 ++ r'.2) := by
  induction a generalizing p with
  | nil => simp [serve]
  | cons x a ih =>
    rw [cons_append, serve, serve]
    cases p.gated x.2 fun p => p.apply x.1 x.2 with
    | none => rfl
    | some r =>
      simp only [bind_eq_bind, bind_some, ih]
      cases r.1.serve a with
      | none => rfl
      | some r' =>
        simp only [bind_some, Option.pure_def]
        cases r'.1.serve b <;> simp

/-- A retry is rejected, a batch as a whole. -/
theorem process_of_seen (hz : cmd.id ≠ 0) (hseen : cmd.id ∈ p.seenCommandIds) (ω : Oracle) :
    p.process ω cmd = some (p, [.rejected cmd.instrument cmd.id .duplicate]) := by
  have hdedupe : p.dedupe cmd = (p, some (.rejected cmd.instrument cmd.id .duplicate)) := by
    rw [dedupe, if_neg hz, if_pos hseen]
  by_cases hs : cmd.Single
  · rw [process_of_single p ω hs, gated, hdedupe]
  · cases cmd with
    | batch cmds => rw [process, gated, hdedupe]
    | _ => exact absurd trivial hs

/-- Remember an id. -/
def mark (p : Processor) (id : ℕ) : Processor :=
  { p with seenCommandIds := p.seenCommandIds.insert id }

theorem mem_seen_mark (p : Processor) (id id' : ℕ) :
    id' ∈ (p.mark id).seenCommandIds ↔ id' ∈ p.seenCommandIds ∨ id = id' := by
  rw [mark, ExtTreeSet.mem_insert, LawfulEqCmp.compare_eq_iff_eq, or_comm]

/-- The commands have ids of their own that the processor has not seen. -/
def Fresh (p : Processor) (cmds : List Command) : Prop :=
  (∀ c ∈ cmds, c.id ≠ 0 ∧ c.id ∉ p.seenCommandIds) ∧ (cmds.map Command.id).Nodup

theorem Fresh.left (h : p.Fresh (a ++ b)) : p.Fresh a := by
  obtain ⟨hnew, hnodup⟩ := h
  rw [map_append, nodup_append] at hnodup
  exact ⟨fun c hc => hnew c (mem_append_left _ hc), hnodup.1⟩

/-- Fresh commands of two lists have different ids. -/
theorem Fresh.ne (h : p.Fresh (a ++ b)) {c d : Command} (hc : c ∈ a) (hd : d ∈ b) :
    c.id ≠ d.id := by
  have hnodup := h.2
  rw [map_append, nodup_append] at hnodup
  exact hnodup.2.2 _ (List.mem_map_of_mem hc) _ (List.mem_map_of_mem hd)

/-- Commands stay fresh when others are processed. -/
theorem Fresh.right (h : p.Fresh (a ++ b))
    (hseen : ∀ id ∈ p'.seenCommandIds, id ∈ p.seenCommandIds ∨ ∃ c ∈ a, c.id = id) :
    p'.Fresh b := by
  have hnodup := h.2
  rw [map_append, nodup_append] at hnodup
  refine ⟨fun c hc => ⟨(h.1 c (mem_append_right _ hc)).1, fun hmem => ?_⟩, hnodup.2.1⟩
  rcases hseen _ hmem with hold | ⟨d, hd, heq⟩
  · exact (h.1 c (mem_append_right _ hc)).2 hold
  · exact h.ne hd hc heq

/-! ### Stale commands -/

/-- After the `earlier` commands, the cursor of the command's queue has passed its id. -/
def Stale (p : Processor) (earlier : List Command) (cmd : Command) : Prop :=
  p.config.dedup = true ∧ (cmd.id ≤ p.cursor cmd.admin ∨
    ∃ c ∈ earlier, c.admin = cmd.admin ∧ cmd.id ≤ c.id)

theorem stale_nil (p : Processor) (cmd : Command) :
    p.Stale [] cmd ↔ p.config.dedup = true ∧ cmd.id ≤ p.cursor cmd.admin := by
  simp [Stale]

/-- **The filters on a new id**: a stale command is rejected, any other moves its cursor. -/
theorem dedupe_of_fresh (hs : cmd.Single) (hz : cmd.id ≠ 0) (hnew : cmd.id ∉ p.seenCommandIds) :
    (p.Stale [] cmd ∧ p.dedupe cmd =
      (p.mark cmd.id, some (.rejected cmd.instrument cmd.id .duplicate))) ∨
    (¬ p.Stale [] cmd ∧ ∃ q, p.dedupe cmd = (q, none) ∧ q.config = p.config ∧
      (p.config.dedup = true →
        ∀ a, q.cursor a = if a = cmd.admin then cmd.id else p.cursor a)) := by
  have hdedupe : p.dedupe cmd = (p.mark cmd.id).advance cmd := by
    rw [dedupe, if_neg hz, if_neg hnew]
    rfl
  have hcursor : ∀ a, (p.mark cmd.id).cursor a = p.cursor a := fun _ => rfl
  have hconf : (p.mark cmd.id).config = p.config := rfl
  rw [hdedupe, advance, Command.stream_of_single hs, stale_nil]
  simp only [hcursor, hconf, hz, or_false]
  cases hd : p.config.dedup with
  | false => simp [mark]
  | true =>
    by_cases hle : cmd.id ≤ p.cursor cmd.admin
    · simp [hle]
    · refine .inr ⟨fun hc => hle hc.2, _, by simp [hle]; rfl, ?_, fun _ a => ?_⟩
      · unfold setCursor
        split <;> rfl
      · cases a <;> cases hadm : cmd.admin <;> simp [setCursor, cursor, mark]

/-- An applied command does not report a duplicate. -/
theorem not_duplicate_of_apply {ω : HashOrder} (h : p.apply ω cmd = some (p', reports))
    (instrument id : ℕ) : .rejected instrument id .duplicate ∉ reports := by
  refine fun hmem => (?_ : ∀ r ∈ reports, r ≠ .rejected instrument id .duplicate) _ hmem rfl
  cases apply_does h with
  | enters hcmd hnew =>
    obtain ⟨-, -, ids, rfl⟩ := hcmd.facts
    refine forall_mem_append.mpr ⟨by simp, ?_⟩
    cases hnew with
    | refused hscreen => simp [ne_duplicate_of_screen hscreen]
    | @accepted _ _ report =>
      refine forall_mem_acceptReports.mpr ⟨nofun, fun _ _ _ => nofun, fun _ _ => nofun, ?_⟩
      cases report.status <;> simp [statusReport]
  | @cancel _ _ _ _ removed => cases removed <;> simp
  | @modify _ _ _ _ _ _ outcome =>
    cases outcome with
    | requoted report =>
      exact forall_mem_requoted (fun _ _ => nofun) nofun (fun _ => nofun) nofun
    | _ => simp [modifyReports]
  | _ => simp

/-- **What processing fresh commands does** to the filters, and which duplicates it reports. -/
theorem serve_facts (hf : p.Fresh (sched.map Prod.snd)) (hs : ∀ c ∈ sched.map Prod.snd, c.Single)
    (h : p.serve sched = some (p', reports)) :
    p'.config = p.config ∧
    (∀ id, id ∈ p'.seenCommandIds ↔
      id ∈ p.seenCommandIds ∨ ∃ c ∈ sched.map Prod.snd, c.id = id) ∧
    (p.config.dedup = true → ∀ a y, y ≤ p'.cursor a ↔
      y ≤ p.cursor a ∨ ∃ c ∈ sched.map Prod.snd, c.admin = a ∧ y ≤ c.id) ∧
    ∀ instrument id, .rejected instrument id .duplicate ∈ reports →
      ∃ c ∈ sched.map Prod.snd, c.id = id := by
  induction sched generalizing p reports with
  | nil =>
    cases h
    simp
  | cons x sched ih =>
    obtain ⟨ω, cmd⟩ := x
    rw [serve, bind_eq_bind, bind_eq_some_iff] at h
    obtain ⟨⟨p₁, r₁⟩, h₁, h⟩ := h
    obtain ⟨⟨p₂, r₂⟩, h₂, heq⟩ := bind_eq_some_iff.mp h
    cases heq
    rw [map_cons] at hf hs
    have hcmd := hs cmd mem_cons_self
    obtain ⟨hz, hnew⟩ := hf.1 cmd mem_cons_self
    -- the first command
    have hfirst : p₁.config = p.config ∧
        (∀ id, id ∈ p₁.seenCommandIds ↔ id ∈ p.seenCommandIds ∨ id = cmd.id) ∧
        (p.config.dedup = true → ∀ a y, y ≤ p₁.cursor a ↔
          y ≤ p.cursor a ∨ cmd.admin = a ∧ y ≤ cmd.id) ∧
        ∀ instrument id, .rejected instrument id .duplicate ∈ r₁ → cmd.id = id := by
      have hseen := mem_seen_dedupe p cmd
      rw [gated] at h₁
      rcases dedupe_of_fresh hcmd hz hnew with ⟨hstale, hadm⟩ | ⟨hstale, q, hadm, hconf, hcur⟩
      · rw [hadm] at h₁ hseen
        cases h₁
        refine ⟨rfl, fun id => (hseen id).trans (by simp [hz]), fun _ a y => ?_, ?_⟩
        · refine ⟨.inl, fun hor => hor.elim (fun h => h) ?_⟩
          rintro ⟨rfl, hle⟩
          exact hle.trans ((stale_nil p cmd).mp hstale).2
        · intro instrument id hmem
          have := mem_singleton.mp hmem
          injection this with _ hid _
          exact hid.symm
      · rw [hadm] at h₁ hseen
        obtain ⟨engines, positions, rfl⟩ := exists_apply h₁
        refine ⟨hconf, fun id => (hseen id).trans (by simp [hz]), fun hd a y => ?_, ?_⟩
        · have hgt : p.cursor cmd.admin < cmd.id := by
            by_contra hle
            exact hstale ((stale_nil p cmd).mpr ⟨hd, Nat.le_of_not_lt hle⟩)
          have hq : ∀ a, cursor { q with engines := engines, positions := positions
                                         halted := cmd.haltedAfter q.halted
                                         suspended := cmd.suspendedAfter q.suspended } a =
              q.cursor a := fun _ => rfl
          rw [hq, hcur hd]
          split
          · rename_i ha
            subst ha
            constructor
            · exact fun hle => .inr ⟨rfl, hle⟩
            · rintro (hle | ⟨-, hle⟩)
              · omega
              · exact hle
          · rename_i ha
            exact ⟨.inl, fun hor => hor.elim (fun h => h) fun h => absurd h.1.symm ha⟩
        · intro instrument id hmem
          exact absurd hmem (not_duplicate_of_apply h₁ instrument id)
    obtain ⟨hconf, hseen, hcursor, hdup⟩ := hfirst
    have hf₁ : p₁.Fresh (sched.map Prod.snd) := by
      refine Fresh.right (a := [cmd]) hf fun id hid => ((hseen id).mp hid).imp_right fun h => ?_
      exact ⟨cmd, mem_cons_self, h.symm⟩
    obtain ⟨hconf', hseen', hcursor', hdup'⟩ :=
      ih hf₁ (fun c hc => hs c (mem_cons_of_mem _ hc)) h₂
    refine ⟨hconf'.trans hconf, fun id => ?_, fun hd a y => ?_, fun instrument id hmem => ?_⟩
    · rw [hseen', hseen]
      simp only [map_cons, exists_mem_cons_iff, or_assoc, eq_comm]
    · rw [hcursor' (by rw [hconf]; exact hd), hcursor hd]
      simp only [map_cons, exists_mem_cons_iff, or_assoc]
    · rcases mem_append.mp hmem with hmem | hmem
      · exact ⟨cmd, mem_cons_self, hdup instrument id hmem⟩
      · obtain ⟨c, hc, hid⟩ := hdup' instrument id hmem
        exact ⟨c, mem_cons_of_mem _ hc, hid⟩

/-! ### Transparent batches -/

mutual

/-- Each batch with an id has one single command at its head, and that command is stale when
its turn comes. -/
def Transparent (p : Processor) (earlier : List Command) : Command → Prop
  | .batch cmds =>
    ((Command.batch cmds).id ≠ 0 → ∃ c l, cmds.head? = some c ∧ c.leaves = [l] ∧
      p.Stale earlier l) ∧ p.TransparentAll earlier cmds
  | _ => True

/-- All commands are transparent, each after those before it. -/
def TransparentAll (p : Processor) (earlier : List Command) : List Command → Prop
  | [] => True
  | cmd :: cmds => p.Transparent earlier cmd ∧ p.TransparentAll (earlier ++ cmd.leaves) cmds

end

theorem transparent_of_single (h : cmd.Single) (p : Processor) (earlier : List Command) :
    p.Transparent earlier cmd := by
  cases cmd with
  | batch cmds => exact h.elim
  | _ => simp [Transparent]

/-- Commands already processed may be taken from the state. -/
theorem transparentAll_shift {d : List Command}
    (h : ∀ later l, p.Stale (d ++ later) l ↔ q.Stale later l) (cmds : List Command) :
    p.TransparentAll d cmds ↔ q.TransparentAll [] cmds := by
  have hall := (Command.induct
    (P := fun cmd => ∀ later, p.Transparent (d ++ later) cmd ↔ q.Transparent later cmd)
    (Q := fun cmds => ∀ later, p.TransparentAll (d ++ later) cmds ↔ q.TransparentAll later cmds)
    (fun cmd hs _ => iff_of_true (transparent_of_single hs _ _) (transparent_of_single hs _ _))
    (fun cmds ih later => by simp only [Transparent, h, ih])
    (fun _ => by simp only [TransparentAll])
    fun cmd cmds ih ihs later => by
      simp only [TransparentAll, ih, append_assoc, ihs]).2 cmds []
  rwa [append_nil] at hall

/-- What is stale after fresh commands were processed. -/
theorem stale_of_serve (hf : p.Fresh (sched.map Prod.snd)) (hs : ∀ c ∈ sched.map Prod.snd, c.Single)
    (h : p.serve sched = some (p', reports)) (later : List Command) (l : Command) :
    p.Stale (sched.map Prod.snd ++ later) l ↔ p'.Stale later l := by
  obtain ⟨hconf, -, hcursor, -⟩ := serve_facts hf hs h
  unfold Stale
  rw [hconf]
  refine and_congr_right fun hd => ?_
  rw [hcursor hd]
  simp only [mem_append, or_and_right, exists_or, or_assoc]

/-- A command with at most one single command, a stale one, is transparent. -/
theorem transparent_of_stale {earlier : List Command} (hstale : ∀ l ∈ cmd.leaves, p.Stale earlier l)
    (hlen : cmd.leaves.length ≤ 1) :
    p.Transparent earlier cmd := by
  refine (Command.induct
    (P := fun cmd => ∀ earlier, (∀ l ∈ cmd.leaves, p.Stale earlier l) → cmd.leaves.length ≤ 1 →
      p.Transparent earlier cmd)
    (Q := fun cmds => ∀ earlier, (∀ l ∈ allLeaves cmds, p.Stale earlier l) →
      (allLeaves cmds).length ≤ 1 → p.TransparentAll earlier cmds)
    (fun cmd hs _ _ _ => transparent_of_single hs _ _) (fun cmds hall earlier hstale hlen => ?_)
    (fun _ _ _ => by simp [TransparentAll]) fun cmd cmds hcmd hcmds earlier hstale hlen => ?_).1
    cmd earlier hstale hlen
  · rw [leaves] at hstale hlen
    rw [Transparent]
    refine ⟨fun hz => ?_, hall earlier hstale hlen⟩
    cases cmds with
    | nil => rw [Command.id] at hz; exact absurd rfl hz
    | cons c cs =>
      rw [Command.id] at hz
      obtain ⟨l, rest, hl, -⟩ := exists_leaves_cons hz
      rw [allLeaves, hl] at hstale hlen
      simp only [length_append, length_cons] at hlen
      obtain rfl : rest = [] := length_eq_zero_iff.mp (by omega)
      exact ⟨c, l, rfl, hl, hstale l (mem_append_left _ mem_cons_self)⟩
  · rw [allLeaves, forall_mem_append] at hstale
    rw [allLeaves, length_append] at hlen
    rw [TransparentAll]
    refine ⟨hcmd earlier hstale.1 (by omega), hcmds _ (fun l hl => ?_) (by omega)⟩
    obtain ⟨hd, hle⟩ := hstale.2 l hl
    refine ⟨hd, hle.imp_right ?_⟩
    rintro ⟨c, hc, h⟩
    exact ⟨c, mem_append_left _ hc, h⟩

/-- A batch passes the filters: it only marks its id as seen. -/
theorem dedupe_batch (hf : p.Fresh (allLeaves cmds)) :
    p.dedupe (.batch cmds) = (if (Command.batch cmds).id = 0 then p
      else p.mark (Command.batch cmds).id, none) := by
  unfold dedupe
  split
  · simp [advance, Command.stream]
  · rename_i hz
    have hnew : (Command.batch cmds).id ∉ p.seenCommandIds := by
      obtain ⟨l, rest, hl, hid, -⟩ := exists_leaves_cons hz
      rw [leaves] at hl
      rw [← hid]
      exact (hf.1 l (by rw [hl]; exact mem_cons_self)).2
    rw [if_neg hnew]
    simp [advance, Command.stream, mark]

/-- One stale command, served. -/
theorem serve_stale (hs : l.Single) (hz : l.id ≠ 0) (hnew : l.id ∉ p.seenCommandIds)
    (hstale : p.Stale [] l) (ω : HashOrder) :
    p.serve [(ω, l)] = some (p.mark l.id, [.rejected l.instrument l.id .duplicate]) := by
  rcases dedupe_of_fresh hs hz hnew with ⟨-, hadm⟩ | ⟨hno, -⟩
  · simp [serve, gated, hadm]
  · exact absurd hstale hno

/-- The schedule of a command with one leaf. -/
theorem exists_schedule_of_leaves (h : cmd.leaves = [l]) (ω : Oracle) :
    ∃ ω', cmd.schedule ω = [(ω', l)] := by
  have hmap := (map_schedule.1 cmd ω).1
  rw [h] at hmap
  obtain ⟨x, hx, heq⟩ := map_eq_singleton_iff.mp hmap
  exact ⟨x.1, by rw [hx, ← heq]⟩

/-- A single command is its own schedule. -/
theorem process_eq_serve_of_single (h : cmd.Single) :
    p.process ω cmd = p.serve (cmd.schedule ω) := by
  rw [process_of_single p ω h, Command.schedule_of_single h, serve]
  cases p.gated cmd fun p => p.apply (ω []) cmd <;> simp [serve]

/-- Commands mark the ids of their single commands at most. -/
theorem seen_processAll (h : p.processAll ω i cmds = some (p', reports)) :
    ∀ id ∈ p'.seenCommandIds, id ∈ p.seenCommandIds ∨ ∃ l ∈ allLeaves cmds, l.id = id := by
  refine (Command.induct
    (P := fun cmd => ∀ (p p' : Processor) ω reports, p.process ω cmd = some (p', reports) →
      ∀ id ∈ p'.seenCommandIds, id ∈ p.seenCommandIds ∨ ∃ l ∈ cmd.leaves, l.id = id)
    (Q := fun cmds => ∀ (p p' : Processor) ω i reports, p.processAll ω i cmds = some (p', reports) →
      ∀ id ∈ p'.seenCommandIds, id ∈ p.seenCommandIds ∨ ∃ l ∈ allLeaves cmds, l.id = id)
    ?_ ?_ ?_ ?_).2 cmds p p' ω i reports h
  · intro cmd hs p p' ω reports h id hid
    rw [Command.leaves_of_single hs]
    exact ((mem_seen_process hs h id).mp hid).imp_right fun h =>
      ⟨cmd, mem_cons_self, h.2.symm⟩
  · intro cmds ih p p' ω reports h id hid
    have hown : ∀ id, id ∈ (p.dedupe (.batch cmds)).1.seenCommandIds →
        id ∈ p.seenCommandIds ∨ ∃ l ∈ (Command.batch cmds).leaves, l.id = id := by
      intro id hid
      refine ((mem_seen_dedupe p _ id).mp hid).imp_right fun hor => ?_
      obtain ⟨l, rest, hl, hlid, -⟩ := exists_leaves_cons hor.1
      exact ⟨l, by rw [hl]; exact mem_cons_self, hlid.trans hor.2.symm⟩
    rw [process] at h
    rcases gated_eq_some h with ⟨hadm, -⟩ | ⟨p₁, hadm, hall⟩
    · rw [hadm] at hown
      exact hown id hid
    · rw [hadm] at hown
      rcases ih _ _ _ _ _ hall id hid with hid | hid
      · exact hown id hid
      · rw [leaves]
        exact .inr hid
  · intro p p' ω i reports h id hid
    rw [processAll] at h
    cases h
    exact .inl hid
  · intro cmd cmds ih ihs p p' ω i reports h id hid
    obtain ⟨p₁, r₁, r₂, h₁, h₂, rfl⟩ := processAll_cons_eq_some h
    rw [allLeaves]
    rcases ihs _ _ _ _ _ h₂ id hid with hid | ⟨l, hl, heq⟩
    · refine (ih _ _ _ _ h₁ id hid).imp_right ?_
      rintro ⟨l, hl, heq⟩
      exact ⟨l, mem_append_left _ hl, heq⟩
    · exact .inr ⟨l, mem_append_right _ hl, heq⟩

/-- What gives a batch away: the id of one of its commands is unknown afterwards, or a command
is reported as a duplicate that was due. -/
def Differs (cmds : List Command) (p' : Processor) (reports expected : List ExecReport) : Prop :=
  (∃ c ∈ cmds, c.id ∉ p'.seenCommandIds) ∨
    ∃ c ∈ cmds, (∃ instrument, .rejected instrument c.id .duplicate ∈ reports) ∧
      ∀ instrument, .rejected instrument c.id .duplicate ∉ expected

/-- The difference of the first part stays. -/
theorem Differs.left {p₁ : Processor} {r r' e e' : List ExecReport} (h : Differs a p₁ r e)
    (hf : p.Fresh (a ++ b))
    (hseen : ∀ id ∈ p'.seenCommandIds, id ∈ p₁.seenCommandIds ∨ ∃ c ∈ b, c.id = id)
    (hdup : ∀ instrument id, .rejected instrument id .duplicate ∈ e' → ∃ c ∈ b, c.id = id) :
    Differs (a ++ b) p' (r ++ r') (e ++ e') := by
  rcases h with ⟨c, hc, hnew⟩ | ⟨c, hc, ⟨instrument, hmem⟩, hnone⟩
  · refine .inl ⟨c, mem_append_left _ hc, fun hid => ?_⟩
    rcases hseen _ hid with hid | ⟨d, hd, heq⟩
    · exact hnew hid
    · exact hf.ne hc hd heq.symm
  · refine .inr ⟨c, mem_append_left _ hc, ⟨instrument, mem_append_left _ hmem⟩, ?_⟩
    intro i hi
    rcases mem_append.mp hi with hi | hi
    · exact hnone i hi
    · obtain ⟨d, hd, heq⟩ := hdup i _ hi
      exact hf.ne hc hd heq.symm

/-- A difference of the rest shows. -/
theorem Differs.right {r r' e e' : List ExecReport} (h : Differs b p' r' e') (hf : p.Fresh (a ++ b))
    (hdup : ∀ instrument id, .rejected instrument id .duplicate ∈ e → ∃ c ∈ a, c.id = id) :
    Differs (a ++ b) p' (r ++ r') (e ++ e') := by
  rcases h with ⟨c, hc, hnew⟩ | ⟨c, hc, ⟨instrument, hmem⟩, hnone⟩
  · exact .inl ⟨c, mem_append_right _ hc, hnew⟩
  · refine .inr ⟨c, mem_append_right _ hc, ⟨instrument, mem_append_right _ hmem⟩, ?_⟩
    intro i hi
    rcases mem_append.mp hi with hi | hi
    · obtain ⟨d, hd, heq⟩ := hdup i _ hi
      exact hf.ne hd hc heq
    · exact hnone i hi

/-- What serving a command and then others does, with the facts about the first part. -/
theorem serve_cons (hf : p.Fresh cmd.leaves)
    (h : p.serve (scheduleAll ω i (cmd :: cmds)) = some (p', expected)) :
    ∃ p₁ e₁ e₂, p.serve (cmd.schedule (ω.at i)) = some (p₁, e₁) ∧
      p₁.serve (scheduleAll ω (i + 1) cmds) = some (p', e₂) ∧ expected = e₁ ++ e₂ ∧
      (∀ later l, p.Stale (cmd.leaves ++ later) l ↔ p₁.Stale later l) ∧
      (∀ id ∈ p₁.seenCommandIds, id ∈ p.seenCommandIds ∨ ∃ c ∈ cmd.leaves, c.id = id) ∧
      ∀ instrument id, .rejected instrument id .duplicate ∈ e₁ → ∃ c ∈ cmd.leaves, c.id = id := by
  rw [scheduleAll, serve_append, bind_eq_some_iff] at h
  obtain ⟨⟨p₁, e₁⟩, h₁, h⟩ := h
  obtain ⟨⟨p₂, e₂⟩, h₂, heq⟩ := map_eq_some_iff.mp h
  cases heq
  obtain ⟨hmap, hs⟩ := map_schedule.1 cmd (ω.at i)
  rw [← hmap] at hf hs
  obtain ⟨-, hseen, -, hdup⟩ := serve_facts hf hs h₁
  have hstale := stale_of_serve hf hs h₁
  rw [hmap] at hseen hdup hstale
  exact ⟨p₁, e₁, e₂, h₁, h₂, rfl, hstale, fun id hid => (hseen id).mp hid, hdup⟩

/-- The duplicates that serving the rest reports. -/
theorem duplicates_of_serveAll (hf : p.Fresh (allLeaves cmds))
    (h : p.serve (scheduleAll ω i cmds) = some (p', expected)) (instrument id : ℕ)
    (hmem : .rejected instrument id .duplicate ∈ expected) :
    ∃ c ∈ allLeaves cmds, c.id = id := by
  obtain ⟨hmap, hs⟩ := map_schedule.2 cmds ω i
  rw [← hmap] at hf hs ⊢
  exact (serve_facts hf hs h).2.2.2 instrument id hmem

/-- A command that was due is not reported as a duplicate. -/
theorem not_duplicate_of_serve {ω : HashOrder} (hs : l.Single) (hz : l.id ≠ 0)
    (hnew : l.id ∉ p.seenCommandIds) (hdue : ¬ p.Stale [] l)
    (h : p.serve [(ω, l)] = some (p', expected)) (instrument id : ℕ) :
    .rejected instrument id .duplicate ∉ expected := by
  simp only [serve, bind, bind_eq_some_iff, Prod.exists, some.injEq, Prod.mk.injEq,
    Option.pure_def] at h
  obtain ⟨p₁, r₁, h₁, _, _, ⟨rfl, rfl⟩, rfl, rfl⟩ := h
  rw [append_nil]
  rcases dedupe_of_fresh hs hz hnew with ⟨hstale, -⟩ | ⟨-, q, hadm, -⟩
  · exact absurd hstale hdue
  · rw [gated, hadm] at h₁
    exact not_duplicate_of_apply h₁ instrument id

/-- Processing a command that can be served, or commands: it is transparent and gives what serving
gives, or it differs. -/
def Served (transparent : Prop) (leaves : List Command) (r : Option (Processor × List ExecReport))
    (q : Processor) (expected : List ExecReport) : Prop :=
  (transparent ∧ r = some (q, expected)) ∨
    (¬ transparent ∧ ∀ p' reports, r = some (p', reports) → Differs leaves p' reports expected)

/-- Commands that can be served are transparent or differ, whatever processes them. -/
def ServedAll (cmds : List Command) : Prop :=
  ∀ (p q : Processor) (ω : Oracle) (i : ℕ) (expected : List ExecReport),
    p.Fresh (Command.allLeaves cmds) →
    p.serve (Command.scheduleAll ω i cmds) = some (q, expected) →
    Served (p.TransparentAll [] cmds) (Command.allLeaves cmds) (p.processAll ω i cmds) q expected

/-- The head of a batch with an id. -/
theorem served_head {c : Command} {cs : List Command} (hz : c.id ≠ 0)
    (hf : p.Fresh (c.leaves ++ allLeaves cs))
    (hserve : p.serve (scheduleAll ω 0 (c :: cs)) = some (q, expected)) (ih : ServedAll cs) :
    Served (p.Transparent [] (.batch (c :: cs))) (c.leaves ++ allLeaves cs)
      ((p.mark c.id).processAll ω 0 (c :: cs)) q expected := by
  have hid₀ : (Command.batch (c :: cs)).id = c.id := by rw [Command.id]
  obtain ⟨p₁, e₁, e₂, h₁, h₂, rfl, hstale₁, hseen₁, hdup₁⟩ := serve_cons hf.left hserve
  obtain ⟨l, rest, hl, hid, hinst⟩ := exists_leaves_cons hz
  have hlmem : l ∈ c.leaves := by rw [hl]; exact mem_cons_self
  obtain ⟨hlz, hlnew⟩ := hf.1 l (mem_append_left _ hlmem)
  have hls := (map_schedule.1 c ω).2 l hlmem
  have hf₁ : p₁.Fresh (allLeaves cs) := hf.right hseen₁
  -- the head of the batch is rejected as a duplicate of the batch
  rw [Served, processAll_cons, process_of_seen hz ((p.mem_seen_mark _ _).mpr (.inr rfl)), bind_some]
  by_cases hrest : rest = []
  · subst hrest
    obtain ⟨ω', hsched⟩ := exists_schedule_of_leaves hl (ω.at 0)
    rw [hsched] at h₁
    by_cases hstale : p.Stale [] l
    · -- a stale head is rejected both ways
      have hserve' := serve_stale hls hlz hlnew hstale ω'
      cases h₁.symm.trans hserve'
      have htrans : p.Transparent [] (.batch (c :: cs)) ↔ (p.mark l.id).TransparentAll [] cs := by
        rw [Transparent, TransparentAll, ← transparentAll_shift hstale₁, nil_append]
        refine ⟨fun h => h.2.2, fun h => ⟨fun _ => ⟨c, l, rfl, hl, hstale⟩,
          transparent_of_stale (fun l' hl' => ?_) (by rw [hl]; exact le_rfl), h⟩⟩
        rw [hl] at hl'
        rwa [mem_singleton.mp hl']
      rw [← hid, ← hinst]
      rcases ih _ _ _ _ _ hf₁ h₂ with ⟨ht, heq⟩ | ⟨ht, hd⟩
      · exact .inl ⟨htrans.mpr ht, by rw [heq]; rfl⟩
      · refine .inr ⟨fun h => ht (htrans.mp h), fun p' reports h => ?_⟩
        obtain ⟨⟨p₂, r₂⟩, hrest, heq⟩ := map_eq_some_iff.mp h
        cases heq
        exact (hd _ _ hrest).right hf hdup₁
    · -- a head that was due is reported as a duplicate
      refine .inr ⟨fun h => ?_, fun p' reports h => ?_⟩
      · rw [Transparent] at h
        obtain ⟨c', l', hc', hl', hs'⟩ := h.1 (by rw [hid₀]; exact hz)
        cases hc'
        obtain ⟨rfl, -⟩ := cons.inj (hl.symm.trans hl')
        exact hstale hs'
      · obtain ⟨⟨p₂, r₂⟩, -, heq⟩ := map_eq_some_iff.mp h
        cases heq
        refine .inr ⟨l, mem_append_left _ hlmem, ⟨c.instrument, ?_⟩, fun instrument hmem => ?_⟩
        · rw [hid]
          exact mem_append_left _ mem_cons_self
        · rcases mem_append.mp hmem with hmem | hmem
          · exact not_duplicate_of_serve hls hlz hlnew hstale h₁ _ _ hmem
          · obtain ⟨d, hd, heq⟩ := duplicates_of_serveAll hf₁ h₂ _ _ hmem
            exact hf.ne hlmem hd heq.symm
  · -- the second command of the head is lost
    obtain ⟨l₂, rest, rfl⟩ := exists_cons_of_ne_nil hrest
    refine .inr ⟨fun h => ?_, fun p' reports h => ?_⟩
    · rw [Transparent] at h
      obtain ⟨c', l', hc', hl', -⟩ := h.1 (by rw [hid₀]; exact hz)
      cases hc'
      exact absurd (hl.symm.trans hl') (by simp)
    · obtain ⟨⟨p₂, r₂⟩, hrest, heq⟩ := map_eq_some_iff.mp h
      cases heq
      have hl₂ : l₂ ∈ c.leaves := by rw [hl]; simp
      have hne : l.id ≠ l₂.id := by
        have hnodup := hf.left.2
        rw [hl, map_cons, map_cons, nodup_cons] at hnodup
        exact fun heq => hnodup.1 (heq ▸ mem_cons_self)
      refine .inl ⟨l₂, mem_append_left _ hl₂, fun hmem => ?_⟩
      rcases seen_processAll hrest _ hmem with hmem | ⟨d, hd, heq⟩
      · rcases (p.mem_seen_mark _ _).mp hmem with hmem | heq
        · exact (hf.1 l₂ (mem_append_left _ hl₂)).2 hmem
        · exact hne (hid.trans heq)
      · exact hf.ne hl₂ hd heq.symm

/-- **A batch is transparent or differs** from its commands one after the other. -/
theorem transparent_or_differs (hf : p.Fresh cmd.leaves)
    (hserve : p.serve (cmd.schedule ω) = some (q, expected)) :
    Served (p.Transparent [] cmd) cmd.leaves (p.process ω cmd) q expected := by
  refine (Command.induct
    (P := fun cmd => ∀ (p q : Processor) (ω : Oracle) expected, p.Fresh cmd.leaves →
      p.serve (cmd.schedule ω) = some (q, expected) →
      Served (p.Transparent [] cmd) cmd.leaves (p.process ω cmd) q expected)
    (Q := fun cmds => ServedAll cmds ∧ ServedAll cmds.tail) ?_ ?_ ?_ ?_).1
    cmd p q ω expected hf hserve
  · intro cmd hs p q ω expected _ hserve
    exact .inl ⟨transparent_of_single hs p [], (process_eq_serve_of_single hs).trans hserve⟩
  · intro cmds ih p q ω expected hf hserve
    rw [leaves] at hf ⊢
    rw [Command.schedule] at hserve
    rw [process, gated, dedupe_batch hf]
    by_cases hz : (Command.batch cmds).id = 0
    · rw [if_pos hz, Transparent, and_iff_right fun hne => absurd hz hne]
      exact ih.1 p q ω 0 expected hf hserve
    · cases cmds with
      | nil => rw [Command.id] at hz; exact absurd rfl hz
      | cons c cs =>
        rw [if_neg hz, allLeaves]
        rw [Command.id] at hz ⊢
        rw [allLeaves] at hf
        exact served_head hz hf hserve ih.2
  · have hnil : ServedAll [] := fun p q ω i expected _ hserve =>
      .inl ⟨by rw [TransparentAll]; trivial, by rw [processAll]; exact hserve⟩
    exact ⟨hnil, hnil⟩
  · refine fun cmd cmds ih ihs => ⟨fun p q ω i expected hf hserve => ?_, ihs.1⟩
    rw [allLeaves] at hf ⊢
    obtain ⟨p₁, e₁, e₂, h₁, h₂, rfl, hstale₁, hseen₁, hdup₁⟩ := serve_cons hf.left hserve
    have hf₁ : p₁.Fresh (allLeaves cmds) := hf.right hseen₁
    rw [TransparentAll, nil_append, transparentAll_shift hstale₁]
    rcases ih p p₁ _ e₁ hf.left h₁ with ⟨ht, heq⟩ | ⟨ht, hd⟩
    · rw [Served, and_iff_right ht, processAll_cons, heq, bind_some]
      rcases ihs.1 p₁ q ω (i + 1) e₂ hf₁ h₂ with ⟨hts, heqs⟩ | ⟨hts, hds⟩
      · exact .inl ⟨hts, by rw [heqs]; rfl⟩
      · refine .inr ⟨hts, fun p' reports h => ?_⟩
        obtain ⟨⟨p₂, r₂⟩, hrest, heq⟩ := map_eq_some_iff.mp h
        cases heq
        exact (hds _ _ hrest).right hf hdup₁
    · refine .inr ⟨fun h => ht h.1, fun p' reports h => ?_⟩
      obtain ⟨p₂, r₁, r₂, hfirst, hrest, rfl⟩ := processAll_cons_eq_some h
      exact (hd _ _ hfirst).left hf (seen_processAll hrest) (duplicates_of_serveAll hf₁ h₂)

/-! ### Both ways -/

/-- A sequence of single commands is served. -/
theorem processAll_eq_serve_of_single (hs : ∀ c ∈ sched.map Prod.snd, c.Single)
    (hω : ∀ k x, sched[k]? = some x → ω [i + k] = x.1) :
    p.processAll ω i (sched.map Prod.snd) = p.serve sched := by
  induction sched generalizing p i with
  | nil => rfl
  | cons x sched ih =>
    have hx : ω.at i [] = x.1 := hω 0 x rfl
    rw [map_cons, processAll, process_of_single _ _ (hs x.2 mem_cons_self), serve, hx]
    cases p.gated x.2 fun p => p.apply x.1 x.2 with
    | none => rfl
    | some r =>
      have hrest : ∀ k y, sched[k]? = some y → ω [i + 1 + k] = y.1 := by
        intro k y hy
        rw [add_assoc, add_comm 1]
        exact hω (k + 1) y hy
      simp only [bind_eq_bind, bind_some, ih (fun c hc => hs c (mem_cons_of_mem _ hc)) hrest]

/-- The commands of a batch as a sequence. -/
theorem processAll_flat (p : Processor) (ω : Oracle) (cmds : List Command) :
    p.processAll (ω.flat cmds) 0 (allLeaves cmds) =
      p.serve (scheduleAll ω 0 cmds) := by
  obtain ⟨hmap, hs⟩ := map_schedule.2 cmds ω 0
  rw [← hmap] at hs ⊢
  refine processAll_eq_serve_of_single hs fun k x hx => ?_
  simp only [Oracle.flat, headD_cons, zero_add, hx, elim_some]

/-- **Batch transparency.** Where the commands of a batch, with new ids of their own, can be
processed one after the other, processing the batch gives the same reports and the same state
exactly if it is transparent. -/
theorem batch_transparent_iff (p : Processor) (ω : Oracle) (cmds : List Command)
    (hfresh : p.Fresh (Command.allLeaves cmds)) (r : Processor × List ExecReport)
    (hflat : p.processAll (ω.flat cmds) 0 (Command.allLeaves cmds) = some r) :
    p.process ω (.batch cmds) = some r ↔ p.Transparent [] (.batch cmds) := by
  have hleaves : (Command.batch cmds).leaves = allLeaves cmds := by rw [leaves]
  have hserve : p.serve ((Command.batch cmds).schedule ω) = some r := by
    rw [Command.schedule, ← processAll_flat]
    exact hflat
  rw [← hleaves] at hfresh
  rcases transparent_or_differs hfresh hserve with ⟨ht, heq⟩ | ⟨ht, hd⟩
  · exact iff_of_true heq ht
  · refine iff_of_false (fun h => ?_) ht
    obtain ⟨hmap, hs⟩ := map_schedule.1 (.batch cmds) ω
    have hd := hd _ _ h
    rw [← hmap] at hfresh hs hd
    obtain ⟨-, hseen, -, -⟩ := serve_facts hfresh hs hserve
    rcases hd with ⟨c, hc, hnew⟩ | ⟨c, hc, ⟨instrument, hmem⟩, hnone⟩
    · exact hnew ((hseen c.id).mpr (.inr ⟨c, hc, rfl⟩))
    · exact hnone instrument hmem

/-- The default settings with the cursor gate. -/
def cursorConfig : ProcessorConfig := { defaultConfig with dedup := true }

/-- A batch that starts with a stale cancel: the cursor stands at 5. -/
def staleBatch : List Command := [.cancel 0 9 3, .new (Order.limit 7 .buy 100 5)]

theorem batch_transparent_iff_stale : ∃ p reports r,
    (fresh cursorConfig).process (fun _ => 1) (.cancel 0 9 5) = some (p, reports) ∧
    p.processAll (Oracle.flat (fun _ => 1) staleBatch) 0 (Command.allLeaves staleBatch) = some r ∧
    p.process (fun _ => 1) (.batch staleBatch) = some r := by
  have hrun : ((fresh cursorConfig).process (fun _ => 1) (.cancel 0 9 5)).map (fun r =>
      (r.1.config.dedup, r.1.maxAdminId, decide (3 ∈ r.1.seenCommandIds),
        decide (7 ∈ r.1.seenCommandIds), (r.1.processAll (Oracle.flat (fun _ => 1) staleBatch) 0
          (allLeaves staleBatch)).isSome)) = some (true, 5, false, false, true) := by
    decide +kernel
  obtain ⟨⟨p, reports⟩, hrun, hres⟩ := map_eq_some_iff.mp hrun
  simp only [Prod.mk.injEq, decide_eq_false_iff_not] at hres
  obtain ⟨hdedup, hcursor, h3, h7, hsome⟩ := hres
  obtain ⟨r, hflat⟩ := isSome_iff_exists.mp hsome
  have hleaves : allLeaves staleBatch = staleBatch := rfl
  have hfresh : p.Fresh (allLeaves staleBatch) := by
    rw [hleaves]
    refine ⟨fun c hc => ?_, by decide⟩
    simp only [staleBatch, mem_cons, not_mem_nil, or_false] at hc
    rcases hc with rfl | rfl
    · exact ⟨by decide, h3⟩
    · exact ⟨by decide, h7⟩
  refine ⟨p, reports, r, hrun, hflat, ?_⟩
  refine (batch_transparent_iff p (fun _ => 1) staleBatch hfresh r hflat).mpr ?_
  have hstale : p.Stale [] (.cancel 0 9 3) := by
    rw [stale_nil]
    refine ⟨hdedup, ?_⟩
    have hadmin : p.cursor (Command.cancel 0 9 3).admin = 5 := hcursor
    rw [hadmin]
    decide
  simp only [Transparent, TransparentAll, staleBatch, and_true]
  exact fun _ => ⟨_, _, rfl, rfl, hstale⟩

/-- **A batch of one order rejects it**: the order is a duplicate of its batch. -/
theorem batch_rejects_its_head : ∃ p reports p' reports',
    (fresh defaultConfig).Fresh [.new (Order.limit 1 .buy 100 5)] ∧
    (fresh defaultConfig).process (fun _ => 1) (.batch [.new (Order.limit 1 .buy 100 5)]) =
      some (p, reports) ∧ reports = [.rejected 0 1 .duplicate] ∧
    (fresh defaultConfig).process (fun _ => 1) (.new (Order.limit 1 .buy 100 5)) =
      some (p', reports') ∧ reports' = [.accepted 0 1, .resting 0 1] := by
  have hbatch : ((fresh defaultConfig).process (fun _ => 1)
      (.batch [.new (Order.limit 1 .buy 100 5)])).map Prod.snd =
        some [.rejected 0 1 .duplicate] := by decide +kernel
  have hnew : ((fresh defaultConfig).process (fun _ => 1) (.new (Order.limit 1 .buy 100 5))).map
      Prod.snd = some [.accepted 0 1, .resting 0 1] := by decide +kernel
  obtain ⟨⟨p, reports⟩, hbatch, hreports⟩ := map_eq_some_iff.mp hbatch
  obtain ⟨⟨p', reports'⟩, hnew, hreports'⟩ := map_eq_some_iff.mp hnew
  refine ⟨p, reports, p', reports', ⟨fun c hc => ?_, by decide⟩, hbatch, hreports, hnew, hreports'⟩
  rw [mem_singleton.mp hc]
  exact ⟨by decide, by decide +kernel⟩

end Processor

end TradeCore
