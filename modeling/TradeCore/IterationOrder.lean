import TradeCore.BookRefines
import TradeCore.Wire

/-!
# Iteration Orders and Replay

The processor is deterministic except for one thing: `ForceClose` reports the cancelled orders
in the iteration order of a hash map, and that order is chosen anew by every process. An
`Oracle` is such a choice, and two executions of one command sequence may differ in theirs.

An execution is **calm** when no `ForceClose` that it applies finds two resting orders of its
user. Calm executions agree with every other execution (`Processor.processAll_of_calm`), and
every execution that is not calm has one that reports another order first
(`Processor.exists_diverging`).

## Main results

* `Processor.deterministic_iff` — all executions of a sequence emit the same reports exactly
  when its complete executions are calm, and then a replay passes the proof of the first run.
* `Processor.forceClose_replay_mismatch` — a forced liquidation of two orders whose replay
  fails against its own proof.
-/

namespace TradeCore

open Std List Option

/-! ### The orders of a user -/

namespace OrderBook

variable {b : OrderBook} {user : ℕ}

/-- The entry of the id index leads to an order of the user. -/
def ownedBy (b : OrderBook) (user : ℕ) (e : ℕ × ℕ) : Bool :=
  (b.pool.get e.2).any fun o => o.user = user

/-- The ids of the resting orders of a user. -/
def openIds (b : OrderBook) (user : ℕ) : List ℕ :=
  (b.locate.toList.filter (b.ownedBy user)).map Prod.fst

/-- The orders of a user are those of the id index, in the chosen order. -/
theorem ordersOfUser_eq (b : OrderBook) (ω : HashOrder) (user : ℕ) :
    b.ordersOfUser ω user =
      if ∀ e ∈ b.locate.toList, (b.pool.get e.2).isSome then
        some (((ω.apply b.locate.toList).filter (b.ownedBy user)).map Prod.fst)
      else none := by
  have hmem : ∀ {e}, e ∈ ω.apply b.locate.toList ↔ e ∈ b.locate.toList :=
    (perm_apply ω _).mem_iff
  split
  · rename_i hall
    have hentry : ∀ e ∈ ω.apply b.locate.toList, (b.pool.get e.2).map (e.1, ·) =
        some (e.1, (b.pool.get e.2).getD default) := by
      intro e he
      obtain ⟨o, ho⟩ := isSome_iff_exists.mp (hall e (hmem.mp he))
      rw [ho]
      rfl
    rw [ordersOfUser, mapM_eq_map hentry]
    simp only [Option.pure_def, bind_eq_bind, bind_some, List.filter_map, List.map_map, some.injEq]
    refine congrArg (List.map Prod.fst) (filter_congr fun e he => ?_)
    obtain ⟨o, ho⟩ := isSome_iff_exists.mp (hall e (hmem.mp he))
    simp [ownedBy, ho]
  · rename_i hall
    cases hm : (ω.apply b.locate.toList).mapM fun e => (b.pool.get e.2).map (e.1, ·) with
    | none => rw [ordersOfUser, hm]; rfl
    | some orders =>
      refine absurd (fun e he => ?_) hall
      simpa using isSome_of_mapM hm e (hmem.mpr he)

/-- Up to the order, the orders of a user are the open ones. -/
theorem perm_openIds {ω : HashOrder} {ids : List ℕ} (h : b.ordersOfUser ω user = some ids) :
    ids.Perm (b.openIds user) := by
  rw [ordersOfUser_eq] at h
  split at h
  · rw [← some.inj h]
    exact ((perm_apply ω _).filter _).map _
  · cases h

/-- A user has every open order once. -/
theorem nodup_openIds (b : OrderBook) (user : ℕ) : (b.openIds user).Nodup := by
  refine (filter_sublist.map _).nodup ?_
  rw [ExtTreeMap.map_fst_toList_eq_keys]
  exact ExtTreeMap.nodup_keys

/-- With at most one open order there is only one order to list them in. -/
theorem ordersOfUser_of_length_le (h : (b.openIds user).length ≤ 1) (ω ω' : HashOrder) :
    b.ordersOfUser ω user = b.ordersOfUser ω' user := by
  have hsame : ∀ ω : HashOrder,
      ((ω.apply b.locate.toList).filter (b.ownedBy user)).map Prod.fst = b.openIds user := by
    intro ω
    have hperm : (((ω.apply b.locate.toList).filter (b.ownedBy user)).map Prod.fst).Perm
        (b.openIds user) := ((perm_apply ω _).filter _).map _
    cases hids : b.openIds user with
    | nil => exact perm_nil.mp (hids ▸ hperm)
    | cons id ids =>
      rw [hids, length_cons] at h
      obtain rfl := length_eq_zero_iff.mp (Nat.le_zero.mp (Nat.le_of_succ_le_succ h))
      exact perm_singleton.mp (hids ▸ hperm)
  rw [ordersOfUser_eq, ordersOfUser_eq, hsame, hsame]

/-- Any entry can come first. -/
theorem exists_apply_eq_cons {α : Type} {entries : List α} {a : α} (h : a ∈ entries) :
    ∃ (ω : HashOrder) (rest : List α), ω.apply entries = a :: rest := by
  obtain ⟨k, hk, rfl⟩ := getElem_of_mem h
  have hpos : 0 < entries.length := Nat.zero_lt_of_lt hk
  let ω : HashOrder := fun n =>
    if hn : 0 < n ∧ k < n then Equiv.swap ⟨0, hn.1⟩ ⟨k, hn.2⟩ else 1
  refine ⟨ω, (ω.apply entries).tail, ?_⟩
  have hhead : (ω.apply entries).head? = some (entries.get ⟨k, hk⟩) := by
    rw [HashOrder.apply, head?_eq_getElem?, List.getElem?_ofFn, dif_pos hpos]
    simp only [ω, dif_pos (And.intro hpos hk), Equiv.swap_apply_left]
  exact (cons_head?_tail hhead).symm

/-- Two open orders can be listed in either order. -/
theorem exists_ordersOfUser_ne {ω : HashOrder} {ids : List ℕ} (h : b.ordersOfUser ω user = some ids)
    (hlen : 1 < (b.openIds user).length) :
    ∃ (ω' : HashOrder) (id id' : ℕ) (rest rest' : List ℕ), id ≠ id' ∧ ids = id :: rest ∧
      b.ordersOfUser ω' user = some (id' :: rest') := by
  have hperm := perm_openIds h
  have hnodup := hperm.nodup_iff.mpr (b.nodup_openIds user)
  rw [← hperm.length_eq] at hlen
  match ids, hlen with
  | id :: id' :: rest, _ =>
    have hne : id ≠ id' := fun heq => (nodup_cons.mp hnodup).1 (heq ▸ mem_cons_self)
    have hopen : id' ∈ b.openIds user :=
      hperm.mem_iff.mp (mem_cons_of_mem _ mem_cons_self)
    obtain ⟨e, he, rfl⟩ := List.mem_map.mp hopen
    obtain ⟨hmem, howned⟩ := mem_filter.mp he
    obtain ⟨ω', entries, hω'⟩ := exists_apply_eq_cons hmem
    refine ⟨ω', id, e.1, _, (entries.filter (b.ownedBy user)).map Prod.fst, hne, rfl, ?_⟩
    rw [ordersOfUser_eq] at h ⊢
    split at h
    · rename_i hall
      rw [if_pos hall, hω', filter_cons_of_pos howned, map_cons]
    · cases h

end OrderBook

/-! ### Calm executions -/

/-- The oracle that takes its orders for position `i` from `ω` and the others from `ω'`. -/
def Oracle.splice (ω ω' : Oracle) (i : ℕ) : Oracle
  | [] => ω' []
  | j :: place => if j = i then ω place else ω' (j :: place)

/-- The spliced orders at their position. -/
theorem Oracle.at_splice (ω ω' : Oracle) (i : ℕ) : (splice ω ω' i).at i = ω := by
  funext place
  exact if_pos rfl

namespace Processor

variable {cmd : Command} {reports : List ExecReport} {p p' : Processor}

/-- A `ForceClose` finds at most one resting order of its user. -/
def PullsAtMostOne (p : Processor) : Command → Prop
  | .forceClose instrument user _ _ _ =>
    ((p.engineFor instrument).book.openIds user).length ≤ 1
  | _ => True

mutual

/-- The execution of a command applies no `ForceClose` to two resting orders of its user. -/
def Calm (p : Processor) (ω : Oracle) : Command → Prop
  | .batch cmds => (p.dedupe (.batch cmds)).2 = none → (p.dedupe (.batch cmds)).1.CalmAll ω 0 cmds
  | cmd => (p.dedupe cmd).2 = none → (p.dedupe cmd).1.PullsAtMostOne cmd

/-- The execution of a sequence is calm command by command. -/
def CalmAll (p : Processor) (ω : Oracle) (i : ℕ) : List Command → Prop
  | [] => True
  | cmd :: cmds =>
    p.Calm (ω.at i) cmd ∧
      ∀ p' reports, p.process (ω.at i) cmd = some (p', reports) → p'.CalmAll ω (i + 1) cmds

end

/-- Calm single commands. -/
theorem calm_of_single (p : Processor) (ω : Oracle) (h : cmd.Single) :
    p.Calm ω cmd ↔ ((p.dedupe cmd).2 = none → (p.dedupe cmd).1.PullsAtMostOne cmd) := by
  cases cmd with
  | batch cmds => exact h.elim
  | _ => rw [Calm]; simp

/-- A command that pulls at most one order is applied in the same way under all orders. -/
theorem apply_of_pullsAtMostOne (h : p.PullsAtMostOne cmd) (ω ω' : HashOrder) :
    p.apply ω cmd = p.apply ω' cmd := by
  cases cmd with
  | forceClose instrument user closeOrderId closeSide closeQty =>
    have hcall : (p.engineFor instrument).cancelAllForUser ω user =
        (p.engineFor instrument).cancelAllForUser ω' user := by
      simp only [MatchingEngine.cancelAllForUser, OrderBook.ordersOfUser_of_length_le h ω ω']
    rw [apply, apply, onEngine, onEngine, hcall]
  | _ => rfl

/-- What a gated command needs to behave in the same way: that its application does. -/
theorem gated_congr {f g : Processor → Option (Processor × List ExecReport)}
    (h : (p.dedupe cmd).2 = none → f (p.dedupe cmd).1 = g (p.dedupe cmd).1) :
    p.gated cmd f = p.gated cmd g := by
  unfold gated
  rcases hadm : p.dedupe cmd with ⟨p', report | report⟩
  · rw [hadm] at h
    exact h rfl
  · rfl

/-- **A calm execution** is the same under all orders. -/
theorem process_of_calm :
    (∀ (cmd : Command) (p : Processor) (ω ω' : Oracle), p.Calm ω cmd →
      p.process ω cmd = p.process ω' cmd) ∧
    ∀ (cmds : List Command) (p : Processor) (ω ω' : Oracle) (i i' : ℕ), p.CalmAll ω i cmds →
      p.processAll ω i cmds = p.processAll ω' i' cmds := by
  refine Command.induct (fun cmd hs p ω ω' h => ?_) (fun cmds ih p ω ω' h => ?_)
    (fun p ω ω' i i' _ => by rw [processAll, processAll]) fun cmd cmds ih ihs p ω ω' i i' h => ?_
  · rw [process_of_single p ω hs, process_of_single p ω' hs]
    rw [calm_of_single p ω hs] at h
    exact gated_congr fun hadm => apply_of_pullsAtMostOne (h hadm) _ _
  · rw [process, process]
    rw [Calm] at h
    exact gated_congr fun hadm => ih _ ω ω' 0 0 (h hadm)
  · rw [CalmAll] at h
    rw [processAll_cons, processAll_cons, ← ih p (ω.at i) (ω'.at i') h.1]
    cases hp : p.process (ω.at i) cmd with
    | none => rfl
    | some r => rw [bind_some, bind_some, ihs r.1 ω ω' (i + 1) (i' + 1) (h.2 _ _ hp)]

theorem processAll_of_calm {ω : Oracle} {i : ℕ} (ω' : Oracle) (i' : ℕ) (cmds : List Command)
    (h : p.CalmAll ω i cmds) :
    p.processAll ω i cmds = p.processAll ω' i' cmds :=
  process_of_calm.2 cmds p ω ω' i i' h

/-! ### Executions that are not calm -/

/-- Reports `r` differ from what an execution emits, should it complete. -/
def Diverges (r : List ExecReport) (result : Option (Processor × List ExecReport)) : Prop :=
  ∃ (common : List ExecReport) (x y : ExecReport) (rest : List ExecReport), x ≠ y ∧
    r = common ++ x :: rest ∧
    ∀ p' r', result = some (p', r') → ∃ rest', r' = common ++ y :: rest'

namespace Diverges

variable {r : List ExecReport} {result : Option (Processor × List ExecReport)}

/-- Diverging reports are different. -/
theorem ne_map (h : Diverges r result) : some r ≠ result.map Prod.snd := by
  obtain ⟨common, x, y, rest, hne, rfl, hall⟩ := h
  rintro heq
  obtain ⟨⟨p', r'⟩, rfl, hr'⟩ := map_eq_some_iff.mp heq.symm
  obtain ⟨rest', hrest'⟩ := hall p' r' rfl
  rw [show r' = common ++ x :: rest from hr'] at hrest'
  exact hne (cons.inj (append_cancel_left hrest')).1

/-- What follows does not undo a divergence. -/
theorem bind_later (h : Diverges r result) (later : List ExecReport)
    (next : Processor → Option (Processor × List ExecReport)) :
    Diverges (r ++ later) (result.bind fun a => (next a.1).map fun b => (b.1, a.2 ++ b.2)) := by
  obtain ⟨common, x, y, rest, hne, rfl, hall⟩ := h
  refine ⟨common, x, y, rest ++ later, hne, by simp, fun p' r' h' => ?_⟩
  obtain ⟨a, ha, hb⟩ := bind_eq_some_iff.mp h'
  obtain ⟨b, -, hb⟩ := map_eq_some_iff.mp hb
  obtain ⟨rest', hrest'⟩ := hall a.1 a.2 ha
  rw [← (Prod.mk.inj hb).2, hrest']
  exact ⟨rest' ++ b.2, by simp⟩

/-- Equal reports in front keep a divergence. -/
theorem bind_earlier (h : Diverges r result) (earlier : List ExecReport) :
    Diverges (earlier ++ r) (result.map fun b => (b.1, earlier ++ b.2)) := by
  obtain ⟨common, x, y, rest, hne, rfl, hall⟩ := h
  refine ⟨earlier ++ common, x, y, rest, hne, by simp, fun p' r' h' => ?_⟩
  obtain ⟨b, hb, heq⟩ := map_eq_some_iff.mp h'
  obtain ⟨rest', hrest'⟩ := hall b.1 b.2 hb
  rw [← (Prod.mk.inj heq).2, hrest']
  exact ⟨rest', by simp⟩

end Diverges

/-- A sequence, split anywhere. -/
theorem processAll_append (p : Processor) (ω : Oracle) (i : ℕ) (cmds cmds' : List Command) :
    p.processAll ω i (cmds ++ cmds') = (p.processAll ω i cmds).bind fun a =>
      (a.1.processAll ω (i + cmds.length) cmds').map fun b => (b.1, a.2 ++ b.2) := by
  induction cmds generalizing p i with
  | nil => simp [processAll]
  | cons cmd cmds ih =>
    rw [cons_append, processAll_cons, processAll_cons, length_cons]
    cases p.process (ω.at i) cmd with
    | none => rfl
    | some a =>
      simp only [bind_some, ih, Option.map_bind, Option.bind_map, Function.comp_def,
        Option.map_map, append_assoc, add_assoc, add_comm 1]

/-- The reports of a forced liquidation start with the cancelled orders. -/
theorem apply_forceClose_reports {ω : HashOrder} {instrument user closeOrderId closeQty : ℕ}
    {closeSide : Side}
    (h : p.apply ω (.forceClose instrument user closeOrderId closeSide closeQty) =
      some (p', reports)) :
    ∃ ids rest, (p.engineFor instrument).book.ordersOfUser ω user = some ids ∧
      reports = ids.map (ExecReport.cancelled instrument) ++ rest := by
  simp only [apply, onEngine, MatchingEngine.cancelAllForUser, bind_eq_bind,
    Option.pure_def, bind_eq_some_iff, some.injEq] at h
  obtain ⟨⟨p₁, ids⟩, ⟨⟨e, ids'⟩, ⟨ids'', hids, book, -, heq⟩, heq'⟩, h⟩ := h
  cases heq
  cases heq'
  split at h
  · cases h
    exact ⟨_, [], hids, (append_nil _).symm⟩
  · obtain ⟨⟨p₂, rest⟩, -, heq⟩ := bind_eq_some_iff.mp h
    cases heq
    exact ⟨_, rest, hids, rfl⟩

/-- A forced liquidation of two orders can report either of them first. -/
theorem exists_diverging_apply {ω : HashOrder} (h : p.apply ω cmd = some (p', reports))
    (hpull : ¬ p.PullsAtMostOne cmd) :
    ∃ ω' : HashOrder, Diverges reports (p.apply ω' cmd) := by
  cases cmd with
  | forceClose instrument user closeOrderId closeSide closeQty =>
    obtain ⟨ids, rest, hids, rfl⟩ := apply_forceClose_reports h
    obtain ⟨ω', id, id', more, more', hne, rfl, hids'⟩ :=
      OrderBook.exists_ordersOfUser_ne hids (Nat.lt_of_not_le hpull)
    refine ⟨ω', [], .cancelled instrument id, .cancelled instrument id', _, ?_, rfl, ?_⟩
    · exact fun heq => hne (ExecReport.cancelled.inj heq).2
    · intro p₂ reports₂ h₂
      obtain ⟨ids₂, rest₂, hids₂, rfl⟩ := apply_forceClose_reports h₂
      rw [hids'] at hids₂
      cases hids₂
      exact ⟨_, rfl⟩
  | _ => exact absurd trivial hpull

/-- A gated command that is not calm was admitted. -/
theorem gated_of_admitted (h : (p.dedupe cmd).2 = none)
    (f : Processor → Option (Processor × List ExecReport)) :
    p.gated cmd f = f (p.dedupe cmd).1 := by
  unfold gated
  rcases hadm : p.dedupe cmd with ⟨p', report | report⟩
  · rfl
  · rw [hadm] at h
    cases h

/-- **An execution that is not calm diverges** under another choice of orders. -/
theorem exists_diverging {ω : Oracle} {i : ℕ} (cmds : List Command)
    (h : p.processAll ω i cmds = some (p', reports)) (hcalm : ¬ p.CalmAll ω i cmds) :
    ∃ ω' : Oracle, Diverges reports (p.processAll ω' i cmds) := by
  refine (Command.induct
    (P := fun cmd => ∀ (p p' : Processor) ω reports, p.process ω cmd = some (p', reports) →
      ¬ p.Calm ω cmd → ∃ ω' : Oracle, Diverges reports (p.process ω' cmd))
    (Q := fun cmds => ∀ (p p' : Processor) ω i reports, p.processAll ω i cmds = some (p', reports) →
      ¬ p.CalmAll ω i cmds → ∃ ω' : Oracle, Diverges reports (p.processAll ω' i cmds))
    ?_ ?_ (fun _ _ _ _ _ _ hcalm => absurd (by rw [CalmAll]; trivial) hcalm) ?_).2
    cmds p p' ω i reports h hcalm
  · intro cmd hs p p' ω reports h hcalm
    rw [calm_of_single p ω hs, Classical.not_imp] at hcalm
    rw [process_of_single p ω hs, gated_of_admitted hcalm.1] at h
    obtain ⟨ω', hdiv⟩ := exists_diverging_apply h hcalm.2
    refine ⟨fun _ => ω', ?_⟩
    rw [process_of_single p _ hs, gated_of_admitted hcalm.1]
    exact hdiv
  · intro cmds ih p p' ω reports h hcalm
    rw [Calm, Classical.not_imp] at hcalm
    rw [process, gated_of_admitted hcalm.1] at h
    obtain ⟨ω', hdiv⟩ := ih _ _ _ _ _ h hcalm.2
    refine ⟨ω', ?_⟩
    rw [process, gated_of_admitted hcalm.1]
    exact hdiv
  · intro cmd cmds ih ihs p p' ω i reports h hcalm
    obtain ⟨p₁, r₁, r₂, h₁, h₂, rfl⟩ := processAll_cons_eq_some h
    by_cases hfirst : p.Calm (ω.at i) cmd
    · -- the first command agrees, so that the divergence comes later
      have hrest : ¬ p₁.CalmAll ω (i + 1) cmds := by
        intro hrest
        refine hcalm ?_
        rw [CalmAll]
        refine ⟨hfirst, fun p' r' h' => ?_⟩
        obtain ⟨rfl, rfl⟩ := Prod.mk.inj (mem_unique h₁ h')
        exact hrest
      obtain ⟨ω', hdiv⟩ := ihs _ _ _ _ _ h₂ hrest
      refine ⟨ω', ?_⟩
      rw [processAll_cons, ← process_of_calm.1 cmd p _ (ω'.at i) hfirst, h₁]
      exact hdiv.bind_earlier r₁
    · obtain ⟨ω', hdiv⟩ := ih _ _ _ _ h₁ hfirst
      refine ⟨Oracle.splice ω' ω i, ?_⟩
      rw [processAll_cons, Oracle.at_splice]
      exact hdiv.bind_later r₂ fun p => p.processAll (Oracle.splice ω' ω i) (i + 1) cmds

/-! ### Replay -/

/-- **Replay determinism.** All executions of a sequence emit the same reports exactly when
its complete executions are calm. Then every replay has the fingerprint of the first run and
passes its proof. -/
theorem deterministic_iff (p : Processor) (cmds : List Command) :
    ((∀ ω ω' : Oracle, (p.processAll ω 0 cmds).map Prod.snd =
        (p.processAll ω' 0 cmds).map Prod.snd) ↔
      ∀ ω p' reports, p.processAll ω 0 cmds = some (p', reports) → p.CalmAll ω 0 cmds) ∧
    ((∀ ω p' reports, p.processAll ω 0 cmds = some (p', reports) → p.CalmAll ω 0 cmds) →
      ∀ (ω ω' : Oracle) (p₁ p₂ : Processor) (first replay : List ExecReport) (raftIndex : UInt64),
        p.processAll ω 0 cmds = some (p₁, first) → p.processAll ω' 0 cmds = some (p₂, replay) →
        fingerprintReports first = fingerprintReports replay ∧
        verifyAppliedBatch (.ofReports raftIndex first) (UInt32.ofNat replay.length)
          (fingerprintReports replay) = .ok ()) := by
  have hagree (hcalm : ∀ ω p' reports, p.processAll ω 0 cmds = some (p', reports) →
      p.CalmAll ω 0 cmds) (ω ω' : Oracle) : p.processAll ω 0 cmds = p.processAll ω' 0 cmds := by
    cases h : p.processAll ω 0 cmds with
    | some r => rw [← h, processAll_of_calm ω' 0 cmds (hcalm ω r.1 r.2 h)]
    | none =>
      cases h' : p.processAll ω' 0 cmds with
      | none => rfl
      | some r =>
        rw [← h, ← h', processAll_of_calm ω 0 cmds (hcalm ω' r.1 r.2 h')]
  refine ⟨⟨fun hall ω p' reports h => ?_, fun hcalm ω ω' => ?_⟩, ?_⟩
  · by_contra hcalm
    obtain ⟨ω', hdiv⟩ := exists_diverging cmds h hcalm
    have heq := hall ω ω'
    rw [h] at heq
    exact hdiv.ne_map heq
  · rw [hagree hcalm ω ω']
  · intro hcalm ω ω' p₁ p₂ first replay raftIndex h₁ h₂
    rw [hagree hcalm ω ω', h₂] at h₁
    obtain ⟨-, rfl⟩ := Prod.mk.inj (some.inj h₁)
    exact ⟨rfl, verifyAppliedBatch_ofReports raftIndex replay⟩

/-- Two resting orders of user 7 and their forced liquidation. -/
def liquidation : List Command :=
  [.new ((Order.limit 1 .buy 100 5).by_ 7), .new ((Order.limit 2 .buy 99 5).by_ 7),
    .forceClose 0 7 3 .sell 0]

/-- The iteration order that reverses the other one. -/
def reversed : Oracle := fun _ _ => Fin.revPerm

/-- The reports before the liquidation. -/
def liquidationReports : List ExecReport :=
  [.accepted 0 1, .resting 0 1, .accepted 0 2, .resting 0 2]

/-- **A replay that fails its own proof**: the two executions cancel the two orders in
different order. -/
theorem forceClose_replay_mismatch : ∃ p₁ p₂ first replay,
    (fresh defaultConfig).processAll (fun _ _ => 1) 0 liquidation = some (p₁, first) ∧
    (fresh defaultConfig).processAll reversed 0 liquidation = some (p₂, replay) ∧
    first ≠ replay ∧
    verifyAppliedBatch (.ofReports 1 first) (UInt32.ofNat replay.length)
      (fingerprintReports replay) ≠ .ok () := by
  have hfirst : ((fresh defaultConfig).processAll (fun _ _ => 1) 0 liquidation).map Prod.snd =
      some (liquidationReports ++ [.cancelled 0 1, .cancelled 0 2]) := by decide +kernel
  have hreplay : ((fresh defaultConfig).processAll reversed 0 liquidation).map Prod.snd =
      some (liquidationReports ++ [.cancelled 0 2, .cancelled 0 1]) := by decide +kernel
  obtain ⟨⟨p₁, _⟩, h₁, rfl⟩ := map_eq_some_iff.mp hfirst
  obtain ⟨⟨p₂, _⟩, h₂, rfl⟩ := map_eq_some_iff.mp hreplay
  refine ⟨p₁, p₂, _, _, h₁, h₂, by decide, ?_⟩
  rw [verifyAppliedBatch, if_pos (by decide +kernel)]
  nofun

end Processor

end TradeCore
