import TradeCore.ProcessorSpec
import TradeCore.Amendments
import TradeCore.Conservation

/-!
# The Position Ledger and the Trade Tape

A `Trade` report names the taker's and the maker's order. Who owns them can be read off the
state before the command: the maker rests in the book, and the taker comes with the command
(`Processor.parties`). Summing the reports with these owners gives the position that the tape
implies for each user (`tapePosition`).

The ledger of the processor agrees with the tape, up to the wrapping of 64-bit positions,
in every execution without an amendment that trades: the processor reports the executions of
an amended order and does not book them.

## Main results

* `Processor.Sound.apply` — engines in good order stay in good order.
* `Processor.position_eq_tape` — the ledger is the tape.
* `Processor.ledger_follows_tape` — its form without wrapping, and the zero sum of positions.
-/

namespace TradeCore

open Std List Option

variable {ω : HashOrder} {es : List Event} {reports : List ExecReport} {e e' : MatchingEngine}
  {taken : Order}

/-! ### Makers and their owners -/

namespace NaiveEngine

/-- What is left of a maker has its id and owner. -/
theorem owner_of_aftermath {trades : List Trade} {stp : List ℕ} {o o' : Order}
    (h : aftermath trades stp o = some o') : o'.id = o.id ∧ o'.user = o.user := by
  rw [aftermath] at h
  split at h
  · cases h
  · split at h
    · cases h
    · rw [← some.inj h]
      exact ⟨rfl, rfl⟩

/-- **The owner that a trade names** owns the resting order that it names. -/
theorem cross_makers (n : NaiveEngine) (hr : n.book.Realized) (hs : n.stpCancelled = [])
    (order : Order) (budget : ℕ) : ∀ t ∈ (n.cross order budget).1.trades,
      ∃ s p, ∃ o ∈ n.book.queue s p, o.id = t.maker ∧ o.user = t.makerUser := by
  -- along the loop: what it has done so far, and the owners of the makers so far
  refine (NaiveCross.loop_induction
    (P := fun c => Conserving { book := n.book, order := order, trades := [], budgetLeft := budget
                                stpCancelled := n.stpCancelled } c ∧
      ∀ t ∈ c.trades, ∃ s p, ∃ o ∈ n.book.queue s p, o.id = t.maker ∧ o.user = t.makerUser)
    (fun c flow c' hrc hc hturn => ⟨hc.1.turn hr hrc hturn, ?_⟩) hr
    ⟨Conserving.refl hr rfl hs, nofun⟩ _).1.2
  obtain rfl | ⟨-, ids, rfl⟩ | ⟨px, lots, q, view, allocs, ht, rfl⟩ := hturn.effect
  · exact hc.2
  · exact hc.2
  · intro t hmem
    rcases mem_append.mp hmem with hmem | hmem
    · exact hc.2 t hmem
    · obtain ⟨a, ha, rfl⟩ := List.mem_map.mp hmem
      obtain ⟨-, o', ho', hview, hid, -⟩ := ht.of_mem hrc ha
      rw [← ht.queue_eq] at ho'
      obtain ⟨o, ho, hafter⟩ := hc.1.of_mem_queue ho'
      obtain ⟨hid', huser⟩ := owner_of_aftermath hafter
      refine ⟨_, _, o, ho, hid'.symm.trans hid, huser.symm.trans ?_⟩
      simp [tradeOf, hview, Order.toResting]

theorem submit_makers (n : NaiveEngine) (hr : n.book.Realized) (order : Order) :
    ∀ t ∈ (n.submit order).2.trades,
      ∃ s p, ∃ o ∈ n.book.queue s p, o.id = t.maker ∧ o.user = t.makerUser := by
  rw [submit]
  split
  · exact fun t ht => absurd ht not_mem_nil
  · rename_i order' budget hb
    split
    · exact fun t ht => absurd ht not_mem_nil
    · exact n.stamped.cross_makers hr rfl order' budget

end NaiveEngine

namespace MatchingEngine

/-- Cancelling the orders of a user frees slots. -/
theorem Refines.hasRoom_cancelAllForUser {n : NaiveEngine} (h : e.Refines n) {user : ℕ}
    {ids : List ℕ} (hcall : e.cancelAllForUser ω user = some (e', ids)) (hroom : e.book.HasRoom) :
    e'.book.HasRoom := by
  obtain ⟨ids', hids, -⟩ := h.book.ordersOfUser ω user
  obtain ⟨b', hcancel, -, hroom'⟩ := h.book.cancelEach ids'
  rw [MatchingEngine.cancelAllForUser, hids] at hcall
  simp only [bind_eq_bind, bind_some, hcancel, Option.pure_def, some.injEq, Prod.mk.injEq] at hcall
  rw [← hcall.1]
  exact hroom' hroom

/-- The engine is in good order. -/
def Sound (e : MatchingEngine) : Prop := ∃ n, e.Refines n

/-- The maker of a trade rests in the book, with the owner that the trade names. -/
theorem Sound.get_maker (h : e.Sound) (hroom : e.book.HasRoom) {order : Order}
    (horder : order.InRange) {report : SubmitReport} (hsubmit : e.submit order = some (e', report))
    {t : Trade} (ht : t ∈ report.trades) :
    ∃ o, e.book.get t.maker = some o ∧ o.user = t.makerUser := by
  obtain ⟨n, hn⟩ := h
  obtain ⟨rfl, -, -⟩ := hn.of_submit (fun _ => hroom) horder.price horder.quantity hsubmit
  obtain ⟨s, p, o, ho, hid, huser⟩ := n.submit_makers ⟨e.book, hn.book⟩ order t ht
  rw [← hn.book.queue] at ho
  refine ⟨o, hn.book.inv.get_eq_some.mpr ⟨hid, ?_⟩, huser⟩
  obtain ⟨-, rfl, rfl⟩ := hn.book.inv.of_mem_queue ho
  exact ho

/-- Cancelling all orders of a user leaves an engine in good order, and what it leaves in the
book was there before. -/
theorem Sound.cancelAllForUser (h : e.Sound) {user : ℕ} {ids : List ℕ}
    (hpull : e.cancelAllForUser ω user = some (e', ids)) :
    e'.Sound ∧ (e.book.HasRoom → e'.book.HasRoom) ∧
      ∀ id o, e'.book.get id = some o → e.book.get id = some o := by
  obtain ⟨n, hn⟩ := h
  obtain ⟨e₁, ids₁, hpull₁, -, hn'⟩ := hn.cancelAllForUser ω user
  cases hpull.symm.trans hpull₁
  refine ⟨⟨_, hn'⟩, hn.hasRoom_cancelAllForUser hpull, fun id o ho => ?_⟩
  obtain ⟨hid, hmem⟩ := hn'.book.inv.get_eq_some.mp ho
  refine hn.book.inv.get_eq_some.mpr ⟨hid, ?_⟩
  rw [hn'.book.queue, NaiveEngine.cancelAllForUser, NaiveBook.queue_rewrite] at hmem
  obtain ⟨a, ha, hkeep⟩ := mem_filterMap.mp hmem
  rw [without] at hkeep
  split at hkeep
  · cases hkeep
  · rw [hn.book.queue, ← some.inj hkeep]
    rwa [← some.inj hkeep] at ha

end MatchingEngine

/-- A book with room has room for all calls of a command: pulling orders frees slots. -/
theorem Command.Makes.roomy {cmd : Command} {calls : List (HashOrder × Call)} (h : cmd.Makes calls)
    (he : e.Sound) (hroom : e.book.HasRoom) :
    e.Roomy calls := by
  cases h with
  | none => trivial
  | close ω ω' hv =>
    refine ⟨hroom, fun e' outcome hcall => ⟨?_, fun _ _ _ => trivial⟩⟩
    obtain ⟨⟨e₁, ids⟩, hpull, hres⟩ := map_eq_some_iff.mp hcall
    cases hres
    exact (he.cancelAllForUser hpull).2.1 hroom
  | _ => exact ⟨hroom, fun _ _ _ => trivial⟩

namespace Processor

variable {p : Processor}

/-- The book of the command's instrument has room for one more order. -/
def HasRoom (p : Processor) (cmd : Command) : Prop :=
  (p.engineFor cmd.instrument).book.HasRoom

/-- All engines are in good order. -/
def Sound (p : Processor) : Prop := ∀ instrument, (p.engineFor instrument).Sound

/-- A new processor is in good order. -/
theorem sound_fresh (config : ProcessorConfig) : (fresh config).Sound := by
  intro instrument
  simp only [engineFor, fresh, ExtTreeMap.getElem?_empty, getD_none]
  exact ⟨_, .fresh _ _ _ _⟩

/-- The filters keep the engines. -/
theorem Sound.dedupe (h : p.Sound) (cmd : Command) : (p.dedupe cmd).1.Sound := by
  intro instrument
  rw [engineFor_dedupe]
  exact h instrument

/-- **Engines in good order stay in good order** as long as the books have room. -/
theorem Sound.apply {p' : Processor} (h : p.Sound) {cmd : Command} (hs : cmd.Single)
    (hr : cmd.InRange) (hroom : p.HasRoom cmd) (happly : p.apply ω cmd = some (p', reports)) :
    p'.Sound := by
  obtain ⟨calls, outcomes, hmakes, hrun, hothers⟩ := apply_makes hs happly
  intro i
  by_cases hi : i = cmd.instrument
  · obtain ⟨n, hn⟩ := h cmd.instrument
    have hcalls := hmakes.roomy ⟨n, hn⟩ hroom
    rw [hi]
    exact ⟨_, (hn.of_run (hmakes.inRange hr) hcalls hrun).2⟩
  · rw [hothers i hi]
    exact h i

/-! ### The tape -/

/-- The owner of a resting order. -/
def ownerOf (p : Processor) (instrument id : ℕ) : ℕ :=
  ((p.engineFor instrument).book.get id).elim 0 Order.user

/-- The owner of the order with which a command can take liquidity. -/
def takerUser (p : Processor) : Command → ℕ
  | .new order => order.user
  | .forceClose _ user _ _ _ => user
  | .modify instrument orderId _ _ _ => p.ownerOf instrument orderId
  | _ => 0

/-- The buyer and the seller of a reported trade. -/
def parties (p : Processor) (cmd : Command) (instrument maker : ℕ) : Side → ℕ × ℕ
  | .buy => (p.takerUser cmd, p.ownerOf instrument maker)
  | .sell => (p.ownerOf instrument maker, p.takerUser cmd)

end Processor

/-- What a user gains when `parties` (buyer, seller) trade `qty`. -/
def moved (parties : ℕ × ℕ) (qty user : ℕ) : ℤ :=
  (if parties.1 = user then (qty : ℤ) else 0) - if parties.2 = user then (qty : ℤ) else 0

/-- What a report of the command adds to the position of a user on an instrument. -/
def Processor.gain (p : Processor) (cmd : Command) (user instrument : ℕ) : ExecReport → ℤ
  | .trade i _ maker aggressor _ qty _ _ =>
    if i = instrument then moved (p.parties cmd i maker aggressor) qty user else 0
  | _ => 0

/-- What an event adds to the position of a user on an instrument. -/
def Event.gain (user instrument : ℕ) : Event → ℤ
  | .applied p cmd reports => (reports.map (p.gain cmd user instrument)).sum
  | _ => 0

/-- **The position that the trade tape implies**: what the user bought less what it sold. -/
def tapePosition (es : List Event) (user instrument : ℕ) : ℤ :=
  (es.map (Event.gain user instrument)).sum

/-- The buyer and the seller of a trade. -/
def Trade.parties (t : Trade) : ℕ × ℕ :=
  match t.aggressor with
  | .buy => (t.takerUser, t.makerUser)
  | .sell => (t.makerUser, t.takerUser)

/-- Only trades add to a position. -/
theorem Processor.gain_of_not_isTrade (p : Processor) (cmd : Command) (user instrument : ℕ)
    {r : ExecReport} (h : r.isTrade = false) : p.gain cmd user instrument r = 0 := by
  cases r with
  | trade => cases h
  | _ => rfl

/-- The gain of the reports is that of the trades among them. -/
theorem Processor.sum_gain_filter (p : Processor) (cmd : Command) (user instrument : ℕ)
    (reports : List ExecReport) :
    ((reports.filter ExecReport.isTrade).map (p.gain cmd user instrument)).sum =
      (reports.map (p.gain cmd user instrument)).sum :=
  ExecReport.sum_filter_isTrade _ (fun _ hr => p.gain_of_not_isTrade cmd user instrument hr) _

namespace Processor

variable {cmd : Command} {p : Processor} {instrument user : ℕ} {x : ℤ}

/-! ### The ledger -/

section

variable (h : p.position user instrument = Int.bmod x (2 ^ 64)) (huser : user ≠ 0)
include h huser

/-- One leg of an execution in the ledger. -/
theorem position_addPosition_bmod (user' instrument' : ℕ) (qty : ℤ) :
    (p.addPosition user' instrument' qty).position user instrument =
      Int.bmod (x + if user' = user ∧ instrument' = instrument then qty else 0) (2 ^ 64) := by
  rw [position_addPosition]
  by_cases hkey : user' = user ∧ instrument' = instrument
  · obtain ⟨rfl, rfl⟩ := hkey
    rw [if_pos ⟨huser, rfl, rfl⟩, if_pos ⟨rfl, rfl⟩, h, Int.bmod_add_bmod]
  · rw [if_neg fun hc => hkey ⟨hc.2.1.symm, hc.2.2.symm⟩, if_neg hkey, add_zero]
    exact h

/-- One execution in the ledger. -/
theorem position_book (instrument' : ℕ) (t : Trade) :
    (p.book instrument' t).position user instrument =
      Int.bmod (x + if instrument' = instrument then moved t.parties t.quantity user else 0)
        (2 ^ 64) := by
  -- both legs wrap on their own; the wraps collapse into one
  have hlegs : ∀ buyer seller, ((p.addPosition buyer instrument' (Int.bmod t.quantity (2 ^ 64))
      ).addPosition seller instrument' (-Int.bmod t.quantity (2 ^ 64))).position user instrument =
      Int.bmod (x + if instrument' = instrument then moved (buyer, seller) t.quantity user else 0)
        (2 ^ 64) := by
    intro buyer seller
    rw [position_addPosition_bmod (position_addPosition_bmod h huser _ _ _) huser]
    by_cases hi : instrument' = instrument
    · by_cases hb : buyer = user <;> by_cases hs : seller = user <;>
        simp [hi, hb, hs, moved, ← sub_eq_add_neg, Int.sub_bmod_bmod, Int.add_bmod_bmod]
    · simp [hi]
  unfold book Trade.parties
  cases t.aggressor with
  | buy => exact hlegs _ _
  | sell => exact hlegs _ _

/-- The executions of an order in the ledger. -/
theorem position_books (instrument' : ℕ) (trades : List Trade) :
    (trades.foldl (fun p t => p.book instrument' t) p).position user instrument =
      Int.bmod (x + (trades.map fun t =>
        if instrument' = instrument then moved t.parties t.quantity user else 0).sum)
        (2 ^ 64) := by
  induction trades generalizing p x with
  | nil => rw [map_nil, sum_nil, add_zero]; exact h
  | cons t trades ih =>
    rw [foldl_cons, ih (position_book h huser instrument' t), map_cons, sum_cons, add_assoc]

end

/-- A command in range, with room in the book of its instrument; an amendment does not reach
the other side of the book. -/
def BooksTrades (p : Processor) (cmd : Command) : Prop :=
  cmd.InRange ∧ p.HasRoom cmd ∧ ∀ instrument o newPrice newQty,
    p.Amends cmd instrument o newPrice newQty → ¬ p.Reaches instrument o newPrice newQty

/-- The owner of a taker. -/
theorem TakerOf.takerUser (h : p.TakerOf cmd e taken) :
    taken.user = p.takerUser cmd := by
  cases h with
  | new h => exact (vettedTo_of_screen h).user
  | close hpull h => exact (vettedTo_of_screen h).user
  | @requote instrument id newPrice newQty cmdId o b hreq hcancel =>
    rw [Processor.takerUser, ownerOf, hreq.1]
    rfl

/-- **Owners on the tape.** The maker of a reported trade rests in the book, and the parties of
the trade are those that the engine names. -/
theorem owners_of_trade (hsound : p.Sound) (hcharted : p.Charted) (hok : p.BooksTrades cmd)
    {report : SubmitReport} (h : p.TakerOf cmd e taken)
    (hsubmit : e.submit taken = some (e', report)) {t : Trade} (ht : t ∈ report.trades) :
    (∃ o, (p.engineFor cmd.instrument).book.get t.maker = some o ∧ o.user = t.makerUser) ∧
      p.parties cmd cmd.instrument t.maker t.aggressor = t.parties := by
  have hmaker : ∃ o, (p.engineFor cmd.instrument).book.get t.maker = some o ∧
      o.user = t.makerUser := by
    cases h with
    | @new order taken hok' =>
      have hv := vettedTo_of_screen hok'
      exact (hsound order.instrument).get_maker hok.2.1 (hv.inRange hok.1) hsubmit ht
    | @close instrument user closeOrderId closeQty closeSide taken ω e ids hpull hok' =>
      have hv := vettedTo_of_screen hok'
      obtain ⟨hsound', hroom', hkeep⟩ := (hsound instrument).cancelAllForUser hpull
      obtain ⟨o, hget, huser⟩ := hsound'.get_maker (hroom' hok.2.1)
        (hv.inRange (inRange_closeOrder hok.1)) hsubmit ht
      exact ⟨o, hkeep _ _ hget, huser⟩
    | @requote instrument id newPrice newQty cmdId o b hreq hcancel =>
      exact absurd (reaches_of_trade hcancel hsubmit (ne_nil_of_mem ht))
        (hok.2.2 instrument o newPrice newQty ⟨id, cmdId, rfl, hreq⟩)
  refine ⟨hmaker, ?_⟩
  obtain ⟨o, hget, huser⟩ := hmaker
  obtain ⟨taker', -, htaker, -, -, hof⟩ := MatchingEngine.submit_trades (h.charted hcharted) hsubmit
  have hown : p.ownerOf cmd.instrument t.maker = t.makerUser := by
    rw [ownerOf, hget]
    exact huser
  have htake : t.takerUser = p.takerUser cmd := by
    rw [(hof t ht).takerUser, htaker, h.takerUser]
  unfold parties Trade.parties
  cases t.aggressor with
  | buy => rw [hown, htake]
  | sell => rw [hown, htake]

/-- **One command in the ledger**: a position moves by what its reports say. -/
theorem position_apply {p' : Processor} (hsound : p.Sound) (hcharted : p.Charted) (hs : cmd.Single)
    (hok : p.BooksTrades cmd) (happly : p.apply ω cmd = some (p', reports)) (huser : user ≠ 0)
    (h : p.position user instrument = Int.bmod x (2 ^ 64)) :
    p'.position user instrument =
      Int.bmod (x + (reports.map (p.gain cmd user instrument)).sum) (2 ^ 64) := by
  obtain ⟨trades, hreports, htaker, hpos⟩ := apply_tape hs happly
  have hgain : (reports.map (p.gain cmd user instrument)).sum = (trades.map fun t =>
      if cmd.instrument = instrument then moved t.parties t.quantity user else 0).sum := by
    rw [← sum_gain_filter, hreports, List.map_map]
    refine congrArg List.sum (map_congr_left fun t ht => ?_)
    rcases htaker with rfl | ⟨e, taken, e', report, htaker, hsubmit, rfl⟩
    · cases ht
    · simp only [Function.comp, tradeReport, gain,
        (owners_of_trade hsound hcharted hok htaker hsubmit ht).2]
  have hposition : p'.position user instrument =
      (trades.foldl (fun p t => p.book cmd.instrument t) p).position user instrument := by
    cases hmod : cmd.isModify with
    | false =>
      rw [hmod, if_neg Bool.false_ne_true] at hpos
      simp only [position, hpos]
    | true =>
      -- the condition leaves an amendment without trades
      rw [hmod, if_pos rfl] at hpos
      rcases htaker with rfl | ⟨e, taken, e', report, htaker, hsubmit, rfl⟩
      · simp only [foldl_nil, position, hpos]
      · cases htaker with
        | new => cases hmod
        | close => cases hmod
        | @requote instrument id newPrice newQty cmdId o b hreq hcancel =>
          have hnone : report.trades = [] := by
            by_contra hne
            exact hok.2.2 instrument o newPrice newQty ⟨id, cmdId, rfl, hreq⟩
              (reaches_of_trade hcancel hsubmit hne)
          simp only [hnone, foldl_nil, position, hpos]
  rw [hposition, hgain]
  exact position_books h huser cmd.instrument trades

/-- The filters keep the ledger. -/
theorem position_dedupe (p : Processor) (cmd : Command) (user instrument : ℕ) :
    (p.dedupe cmd).1.position user instrument = p.position user instrument := by
  obtain ⟨seen, maxNewId, maxAdminId, h⟩ := p.exists_dedupe cmd
  rw [h]
  rfl

theorem tapePosition_cons (e : Event) (es : List Event) (user instrument : ℕ) :
    tapePosition (e :: es) user instrument =
      e.gain user instrument + tapePosition es user instrument := by
  rw [tapePosition, tapePosition, map_cons, sum_cons]

/-- **The ledger is the tape**, in wrapping arithmetic. -/
theorem position_eq_tape {p' : Processor} (h : Trace undisturbed BooksTrades p es p')
    (hsound : p.Sound) (hcharted : p.Charted) (huser : user ≠ 0)
    (hx : p.position user instrument = Int.bmod x (2 ^ 64)) :
    p'.position user instrument = Int.bmod (x + tapePosition es user instrument) (2 ^ 64) := by
  induction h generalizing x with
  | nil p => simpa [tapePosition] using hx
  | @rejected p p₁ _ cmd report es hadm _ ih =>
    have hs := hsound.dedupe cmd
    have hc := hcharted.dedupe cmd
    have hpos := p.position_dedupe cmd user instrument
    rw [hadm] at hs hc hpos
    rw [ih hs hc (hpos.trans hx)]
    simp only [tapePosition_cons, Event.gain, zero_add]
  | @applied p p₁ p₂ _ cmd reports es ω hs hadm hok happly _ ih =>
    have hs₁ := hsound.dedupe cmd
    have hc₁ := hcharted.dedupe cmd
    have hpos := p.position_dedupe cmd user instrument
    rw [hadm] at hs₁ hc₁ hpos
    have hstep := position_apply hs₁ hc₁ hs hok happly huser (hpos.trans hx)
    rw [ih (hs₁.apply hs hok.1 hok.2.1 happly) (hc₁.apply hs hok.1 happly) hstep,
      tapePosition_cons, Event.gain, add_assoc]
  | @opened p p₁ _ cmds es hadm _ ih =>
    have hs := hsound.dedupe (.batch cmds)
    have hc := hcharted.dedupe (.batch cmds)
    have hpos := p.position_dedupe (.batch cmds) user instrument
    rw [hadm] at hs hc hpos
    rw [ih hs hc (hpos.trans hx)]
    simp only [tapePosition_cons, Event.gain, zero_add]
  | outside hstep _ _ => exact hstep.elim

end Processor

/-! ### Positions sum to zero -/

/-- A finitely supported function that sums to zero. -/
def ZeroSum (f : ℕ → ℤ) : Prop := Function.HasFiniteSupport f ∧ ∑ᶠ user, f user = 0

theorem zeroSum_zero : ZeroSum fun _ => 0 := ⟨by simp [Function.HasFiniteSupport], finsum_zero⟩

theorem ZeroSum.add {f g : ℕ → ℤ} (hf : ZeroSum f) (hg : ZeroSum g) :
    ZeroSum fun user => f user + g user :=
  ⟨hf.1.add hg.1, by rw [finsum_add_distrib hf.1 hg.1, hf.2, hg.2, add_zero]⟩

/-- What one party gains the other loses. -/
theorem zeroSum_moved (parties : ℕ × ℕ) (qty : ℕ) : ZeroSum (moved parties qty) := by
  have hleg : ∀ owner : ℕ,
      Function.HasFiniteSupport (fun user => if owner = user then (qty : ℤ) else 0) ∧
        ∑ᶠ user, (if owner = user then (qty : ℤ) else 0) = qty := by
    intro owner
    refine ⟨(Set.finite_singleton owner).subset fun user hu => ?_, ?_⟩
    · by_contra hne
      exact hu (if_neg fun heq => hne heq.symm)
    · rw [finsum_eq_single _ owner fun user hne => if_neg hne.symm, if_pos rfl]
  obtain ⟨hb, hbsum⟩ := hleg parties.1
  obtain ⟨hs, hssum⟩ := hleg parties.2
  exact ⟨hb.sub hs, by simp only [moved, finsum_sub_distrib hb hs, hbsum, hssum, sub_self]⟩

/-- **The tape sums to zero** over all owners. -/
theorem zeroSum_tapePosition (es : List Event) (instrument : ℕ) :
    ZeroSum fun user => tapePosition es user instrument := by
  have hreports : ∀ (p : Processor) (cmd : Command) (reports : List ExecReport),
      ZeroSum fun user => (reports.map (p.gain cmd user instrument)).sum := by
    intro p cmd reports
    induction reports with
    | nil => exact zeroSum_zero
    | cons r reports ih =>
      simp only [map_cons, sum_cons]
      refine ZeroSum.add ?_ ih
      cases r with
      | trade i taker maker aggressor price qty makerFee takerFee =>
        simp only [Processor.gain]
        split
        · exact zeroSum_moved _ qty
        · exact zeroSum_zero
      | _ => exact zeroSum_zero
  induction es with
  | nil => exact zeroSum_zero
  | cons e es ih =>
    simp only [Processor.tapePosition_cons]
    refine ZeroSum.add ?_ ih
    cases e with
    | applied p cmd reports => exact hreports p cmd reports
    | _ => exact zeroSum_zero

/-- The book had room for the command. -/
def Event.HasRoom : Event → Prop
  | .applied p cmd _ => p.HasRoom cmd
  | _ => True

instance decidableHasRoom (e : Event) : Decidable e.HasRoom := by
  cases e <;> unfold Event.HasRoom
  case applied p cmd _ => exact inferInstanceAs (Decidable (_ ∨ _))
  all_goals infer_instance

/-- The order that comes with a command, if any, has an owner. -/
def Command.Attributed : Command → Prop
  | .new order => order.user ≠ 0
  | .forceClose _ user _ _ _ => user ≠ 0
  | _ => True

/-- An applied command comes with an attributed order. -/
def Event.Attributed : Event → Prop
  | .applied _ cmd _ => cmd.Attributed
  | _ => True

namespace Processor

variable {p p' : Processor}

/-- The taker of an attributed command has an owner if the resting orders have. -/
theorem TakerOf.user_ne_zero {cmd : Command} (h : p.TakerOf cmd e taken) (hattr : cmd.Attributed)
    (hrec : p.Records fun o => o.user ≠ 0) :
    taken.user ≠ 0 := by
  cases h with
  | new h =>
    rw [(vettedTo_of_screen h).user]
    exact hattr
  | close hpull h =>
    rw [(vettedTo_of_screen h).user]
    exact hattr
  | @requote instrument id newPrice newQty cmdId o b hreq hcancel =>
    obtain ⟨slot, -, hget⟩ := bind_eq_some_iff.mp hreq.1
    exact hrec instrument slot o hget

/-- The reports of an attributed command name owners. -/
theorem gain_zero (hsound : p.Sound) (hcharted : p.Charted) (hrec : p.Records fun o => o.user ≠ 0)
    {cmd : Command} (hs : cmd.Single) (hok : p.BooksTrades cmd) (hattr : cmd.Attributed)
    (happly : p.apply ω cmd = some (p', reports)) (instrument : ℕ) :
    (reports.map (p.gain cmd 0 instrument)).sum = 0 := by
  obtain ⟨trades, hreports, htaker, -⟩ := apply_tape hs happly
  rw [← sum_gain_filter, hreports, List.map_map]
  refine sum_eq_zero fun z hz => ?_
  obtain ⟨t, ht, rfl⟩ := List.mem_map.mp hz
  rcases htaker with rfl | ⟨e, taken, e', report, htaker, hsubmit, rfl⟩
  · cases ht
  · obtain ⟨⟨o, hget, huser⟩, hparties⟩ := owners_of_trade hsound hcharted hok htaker hsubmit ht
    have hmaker : t.makerUser ≠ 0 := by
      obtain ⟨slot, -, hget⟩ := bind_eq_some_iff.mp hget
      rw [← huser]
      exact hrec _ slot o hget
    obtain ⟨taker', -, htaker', -, -, hof⟩ :=
      MatchingEngine.submit_trades (htaker.charted hcharted) hsubmit
    have htake : t.takerUser ≠ 0 := by
      rw [(hof t ht).takerUser, htaker']
      exact htaker.user_ne_zero hattr hrec
    simp only [Function.comp, tradeReport, gain, hparties]
    unfold Trade.parties moved
    cases t.aggressor <;> simp [hmaker, htake]

/-- **No unattributed position** on the tape of an execution with attributed orders. -/
theorem tapePosition_zero (h : Trace undisturbed BooksTrades p es p') (hsound : p.Sound)
    (hcharted : p.Charted) (hrec : p.Records fun o => o.user ≠ 0) (hattr : ∀ e ∈ es, e.Attributed)
    (instrument : ℕ) :
    tapePosition es 0 instrument = 0 := by
  induction h with
  | nil p => rfl
  | @rejected p p₁ _ cmd report es hadm _ ih =>
    have hs := hsound.dedupe cmd
    have hc := hcharted.dedupe cmd
    have hr := hrec.dedupe cmd
    rw [hadm] at hs hc hr
    rw [tapePosition_cons, ih hs hc hr fun e he => hattr e (mem_cons_of_mem _ he)]
    rfl
  | @applied p p₁ p₂ _ cmd reports es ω hs hadm hok happly _ ih =>
    have hs₁ := hsound.dedupe cmd
    have hc₁ := hcharted.dedupe cmd
    have hr₁ := hrec.dedupe cmd
    rw [hadm] at hs₁ hc₁ hr₁
    have hcmd : cmd.Attributed := hattr _ mem_cons_self
    have hr₂ : p₂.Records fun o => o.user ≠ 0 := by
      refine hr₁.apply hc₁ hs happly (fun o o' hsame ho => by rw [hsame]; exact ho)
        fun e taken seq rest htaker hrest => ?_
      rw [hrest.same]
      exact htaker.user_ne_zero hcmd hr₁
    rw [tapePosition_cons, ih (hs₁.apply hs hok.1 hok.2.1 happly) (hc₁.apply hs hok.1 happly) hr₂
      fun e he => hattr e (mem_cons_of_mem _ he), add_zero]
    exact gain_zero hs₁ hc₁ hr₁ hs hok hcmd happly instrument
  | @opened p p₁ _ cmds es hadm _ ih =>
    have hs := hsound.dedupe (.batch cmds)
    have hc := hcharted.dedupe (.batch cmds)
    have hr := hrec.dedupe (.batch cmds)
    rw [hadm] at hs hc hr
    rw [tapePosition_cons, ih hs hc hr fun e he => hattr e (mem_cons_of_mem _ he)]
    rfl
  | outside hstep _ _ => exact hstep.elim

/-- User 0 has no position. -/
theorem position_zero {ok : Processor → Command → Prop} (h : Trace undisturbed ok p es p')
    {instrument : ℕ} (hp : p.position 0 instrument = 0) :
    p'.position 0 instrument = 0 := by
  have hadd : ∀ (p : Processor) user i qty,
      (p.addPosition user i qty).position 0 instrument = p.position 0 instrument := by
    intro p user i qty
    rw [position_addPosition, if_neg fun hc => hc.1 hc.2.1.symm]
  have hbooks : ∀ (trades : List Trade) (p : Processor) i,
      (trades.foldl (fun p t => p.book i t) p).position 0 instrument = p.position 0 instrument := by
    intro trades
    induction trades with
    | nil => exact fun _ _ => rfl
    | cons t trades ih =>
      intro p i
      rw [foldl_cons, ih, book]
      cases t.aggressor with
      | buy => rw [hadd, hadd]
      | sell => rw [hadd, hadd]
  refine h.invariant (P := fun p => p.position 0 instrument = 0) (fun p cmd hp => ?_)
    (fun p ω cmd p' reports hs _ hp happly => ?_) (fun _ _ _ hstep => hstep.elim) hp
  · rw [position_dedupe, hp]
  · obtain ⟨trades, -, -, hpos⟩ := apply_tape hs happly
    have hsame : p'.position 0 instrument = if cmd.isModify then p.position 0 instrument
        else (trades.foldl (fun p t => p.book cmd.instrument t) p).position 0 instrument := by
      simp only [position, hpos]
      split <;> rfl
    rw [hsame, hbooks, hp, ite_self]

/-- The value fits into a signed 64-bit number. -/
def Fits (z : ℤ) : Prop := -2 ^ 63 ≤ z ∧ z < 2 ^ 63

/-- **The position ledger equals the trade tape** in every execution whose amendments do not
trade. With attributed orders the positions of an instrument sum to zero. -/
theorem ledger_follows_tape (config : ProcessorConfig) (es : List Event) (p : Processor)
    (h : Trace undisturbed BooksTrades (fresh config) es p) :
    (∀ user instrument, user ≠ 0 → Fits (tapePosition es user instrument) →
      p.position user instrument = tapePosition es user instrument) ∧
    ∀ instrument, (∀ e ∈ es, e.Attributed) →
      (∀ user, Fits (tapePosition es user instrument)) →
      Function.HasFiniteSupport (fun user => p.position user instrument) ∧
        ∑ᶠ user, p.position user instrument = 0 := by
  have hledger : ∀ user instrument, user ≠ 0 → Fits (tapePosition es user instrument) →
      p.position user instrument = tapePosition es user instrument := by
    intro user instrument huser hfits
    have hzero : (fresh config).position user instrument = Int.bmod 0 (2 ^ 64) := rfl
    rw [position_eq_tape h (sound_fresh config) (charted_fresh config) huser hzero, zero_add]
    exact Int.bmod_eq_of_le (by simpa using hfits.1) (by simpa using hfits.2)
  refine ⟨hledger, fun instrument hattr hfits => ?_⟩
  have hsame : (fun user => p.position user instrument) =
      fun user => tapePosition es user instrument := by
    funext user
    by_cases huser : user = 0
    · subst huser
      rw [position_zero h rfl, tapePosition_zero h (sound_fresh config) (charted_fresh config)
        (records_fresh _ config) hattr]
    · exact hledger user instrument huser (hfits user)
  rw [hsame]
  exact zeroSum_tapePosition es instrument

/-- User 1 offers five lots and user 2 buys them. -/
def sale : List Command :=
  [.new ((Order.limit 1 .sell 105 5).by_ 1), .new ((Order.limit 2 .buy 105 5).by_ 2)]

theorem ledger_follows_tape_sale : ∃ es p,
    Trace undisturbed BooksTrades (fresh defaultConfig) es p ∧ tapePosition es 2 0 = 5 ∧
    p.position 2 0 = 5 := by
  have hrun : ((fresh defaultConfig).events 1 sale).map
      (fun r => (r.2.all fun e => decide e.HasRoom, tapePosition r.2 2 0)) =
      some (true, 5) := by decide +kernel
  obtain ⟨⟨p, es⟩, hrun, hres⟩ := map_eq_some_iff.mp hrun
  obtain ⟨hroom, htape⟩ := Prod.mk.inj hres
  have htrace : Trace undisturbed BooksTrades (fresh defaultConfig) es p := by
    refine trace_of_events hrun (by decide) fun c hc q reports hmem => ?_
    have hroom := of_decide_eq_true (List.all_eq_true.mp hroom _ hmem)
    simp only [sale, mem_cons, not_mem_nil, or_false] at hc
    rcases hc with rfl | rfl <;>
      exact ⟨by unfold Command.InRange; decide, hroom,
        fun _ _ _ _ h => absurd h (not_amends (by simp) _ _ _ _ _)⟩
  have hledger := (ledger_follows_tape defaultConfig es p htrace).1 2 0 (by decide)
    (by rw [htape]; exact ⟨by norm_num, by norm_num⟩)
  exact ⟨es, p, htrace, htape, hledger.trans htape⟩

/-- **An amendment is not booked**: bid 2 moves to the ask and buys five lots on the tape,
while no position changes. -/
theorem amendment_not_booked : ∃ es p,
    Trace undisturbed (fun _ cmd => cmd.InRange) (fresh defaultConfig) es p ∧
    .trade 0 2 1 .buy 105 5 0 0 ∈ es.flatMap Event.reports ∧
    tapePosition es 2 0 = 5 ∧ p.position 2 0 = 0 ∧ tapePosition es 1 0 = -5 ∧
    p.position 1 0 = 0 := by
  have hrun : ((fresh defaultConfig).events 1 raisedBid).map
      (fun r => (decide (.trade 0 2 1 .buy 105 5 0 0 ∈ r.2.flatMap Event.reports),
        tapePosition r.2 2 0, r.1.position 2 0, tapePosition r.2 1 0, r.1.position 1 0)) =
      some (true, 5, 0, -5, 0) := by decide +kernel
  obtain ⟨⟨p, es⟩, hrun, hres⟩ := map_eq_some_iff.mp hrun
  simp only [Prod.mk.injEq] at hres
  refine ⟨es, p, trace_of_events hrun (by decide) fun c hc q reports _ => ?_,
    of_decide_eq_true hres.1, hres.2⟩
  simp only [raisedBid, quotes, cons_append, nil_append, mem_cons, not_mem_nil, or_false] at hc
  rcases hc with rfl | rfl | rfl <;> unfold Command.InRange <;> decide

end Processor

end TradeCore
