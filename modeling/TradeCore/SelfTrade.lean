import TradeCore.Slab

/-!
# Self-Trade Prevention

An engine with a policy other than `allow` never lets an attributed user trade with itself,
and what it removes to that end are orders of the taker's own user. The argument is about the
view that a turn of the crossing loop inspects: a maker outside the view gets no allocation,
because every allocation names a maker of the view, and the turn only trades when no order of
the view belongs to the taker.

The facts hold in every state that an engine reaches, also when slot numbers have wrapped
around. Which orders self-trade prevention removes is read off the books: what is neither
listed as cancelled nor the maker of a trade rests as before (`OrderBook.Spares`).

## Main results

* `MatchingEngine.selfTrade_prevented` — every reachable engine, every call.
-/

namespace TradeCore

open Std

/-- The ids that the crossing loop removes or trades with lead to their resting orders. -/
theorem Cross.Crosses.known {stp : SelfTradePolicy} {c c' : Cross} {own : List ℕ}
    {later : List Trade} (h : Cross.Crosses stp c c' own later) :
    ∀ id ∈ own ++ later.map Trade.maker, c.book.Known id := by
  intro id hid
  rcases List.mem_append.mp hid with hid | hid
  · obtain ⟨-, -, o, ho, hid, -⟩ := h.removed id hid
    exact .inl ⟨o, ho, hid⟩
  · obtain ⟨t, ht, rfl⟩ := List.mem_map.mp hid
    obtain ⟨o, ho, hid, -⟩ := (h.of t ht).maker
    exact .inl ⟨o, ho, hid⟩

namespace MatchingEngine

/-- **What a submit did to prevent self-trades**, for a taker of the user `user` that met the
book `b`: no trade of the user with itself, only own orders removed, all others spared until
the remainder rests. -/
structure StpSafe (b : OrderBook) (user : ℕ) (e : MatchingEngine) (trades : List Trade) : Prop where
  noSelf : ∀ t ∈ trades, t.makerUser = t.takerUser → t.takerUser = 0
  makers : ∀ t ∈ trades, t.takerUser = user ∧
    ∃ o, b.Rests o ∧ o.id = t.maker ∧ (o.user = user → user = 0)
  removed : ∀ id ∈ e.stpCancelled, user ≠ 0 ∧ ∃ o, b.Rests o ∧ o.id = id ∧ o.user = user
  cancelTaker : e.stp = .cancelTaker → e.stpCancelled = []
  spared : ∃ b', (e.book = b' ∨ ∃ rest, b'.insert rest = some e.book) ∧
    ∀ o, b.Rests o → o.id ∉ e.stpCancelled → (∀ t ∈ trades, t.maker ≠ o.id) → b'.Rests o

/-- What a submit removes and spares. -/
theorem submit_prevented {e e' : MatchingEngine} {order : Order} {report : SubmitReport}
    (hs : e.submit order = some (e', report)) (h : e.book.Charted) :
    (∀ id ∈ e'.stpCancelled, e'.stp ≠ .cancelTaker ∧ order.user ≠ 0 ∧
      ∃ o, e.book.Rests o ∧ o.id = id ∧ o.user = order.user) ∧
    ∃ b', (e'.book = b' ∨ ∃ rest, b'.insert rest = some e'.book) ∧
      ∀ o, e.book.Rests o → o.id ∉ e'.stpCancelled → (∀ t ∈ report.trades, t.maker ≠ o.id) →
        b'.Rests o := by
  obtain ⟨-, -, hpolicy, taker, c, c', ⟨-, huser, -⟩, hbook, horder, hc, hend⟩ :=
    submit_crosses h hs
  rw [hpolicy, ← hbook, ← huser, ← horder]
  refine ⟨hc.removed, c'.book, hend.imp_right fun ⟨rest, _, hins⟩ => ⟨rest, hins⟩,
    fun o ho hid hmaker => (hc.thins.spares hc.known).rests o ho ?_⟩
  rw [List.mem_append, not_or]
  refine ⟨hid, fun hmem => ?_⟩
  obtain ⟨t, ht, heq⟩ := List.mem_map.mp hmem
  exact hmaker t ht heq

/-- **A submit is safe.** -/
theorem submit_stpSafe {e e' : MatchingEngine} {order : Order} {report : SubmitReport}
    (hs : e.submit order = some (e', report)) (h : e.book.Charted) (hstp : e.stp ≠ .allow) :
    StpSafe e.book order.user e' report.trades := by
  obtain ⟨taker, -, huser, -, -, hof⟩ := submit_trades h hs
  obtain ⟨hremoved, hspared⟩ := submit_prevented hs h
  refine ⟨fun t ht heq => ?_, fun t ht => ⟨(hof t ht).takerUser.trans huser, ?_⟩,
    fun id hid => (hremoved id hid).2, fun htaker => ?_, hspared⟩
  · by_contra hne
    have hof := hof t ht
    rw [hof.takerUser] at heq hne
    exact hof.makerUser hstp hne heq
  · obtain ⟨o, ho, hid, hown⟩ := (hof t ht).maker
    refine ⟨o, ho, hid, fun heq => ?_⟩
    by_contra hne
    rw [← huser] at heq hne
    exact hown hstp hne heq
  · exact List.eq_nil_iff_forall_not_mem.mpr fun id hid => (hremoved id hid).1 htaker

/-- **Self-trade prevention.** In every state that an engine with a policy reaches, a submit
and an amendment that re-enters its order are safe, and an amendment in place prevents
nothing; the other calls do not trade. -/
theorem selfTrade_prevented (strategy : Strategy) (stp : SelfTradePolicy) (hstp : stp ≠ .allow)
    (maxOrders : ℕ) (prefault : Bool) (calls : List (HashOrder × Call))
    (hin : ∀ c ∈ calls, c.2.InRange) (e : MatchingEngine) (outcomes : List Outcome)
    (hrun : (fresh strategy stp maxOrders prefault).run calls = some (e, outcomes)) :
    (∀ order e' report, e.submit order = some (e', report) →
      StpSafe e.book order.user e' report.trades) ∧
    (∀ id newPrice newQty e' outcome, e.modify id newPrice newQty = some (e', outcome) →
      ((∀ report, outcome ≠ .requoted report) ∧ e'.stpCancelled = e.stpCancelled) ∨
      ∃ o b report, e.Requotes id newPrice newQty o ∧ e.book.cancel id = some (some o, b) ∧
        outcome = .requoted report ∧ StpSafe b o.user e' report.trades) := by
  obtain ⟨hc, hpolicy⟩ := run_charted (OrderBook.charted_withCapacity maxOrders prefault) hin hrun
  have hpolicy : e.stp = stp := hpolicy
  rw [← hpolicy] at hstp
  refine ⟨fun order e' report hs => submit_stpSafe hs hc hstp, ?_⟩
  intro id newPrice newQty e' outcome hmodify
  rcases modify_slab hc.tidy hmodify with
    ⟨-, heq, hnot⟩ | ⟨o, b, report, hreq, hcancel, hw, hs, rfl⟩
  · exact .inl ⟨hnot, by rw [heq]⟩
  · have hsafe := submit_stpSafe hs (hc.wears hw.wears) hstp
    exact .inr ⟨o, b, report, hreq, hcancel, rfl, hsafe⟩

/-- A taker that pulls its own ask and trades with the ask of another user behind it. -/
theorem selfTrade_prevented_ownAsk : ∃ e outcomes e' report,
    (fresh .priceTimePriority .cancelMaker 4 true).run
      [(1, .submit ((Order.limit 1 .sell 101 5).by_ 7)),
        (1, .submit ((Order.limit 2 .sell 101 3).by_ 8))] = some (e, outcomes) ∧
      e.submit ((Order.limit 3 .buy 102 2).by_ 7) = some (e', report) ∧
      e'.stpCancelled = [1] ∧ report.trades.map Trade.maker = [2] ∧
      StpSafe e.book 7 e' report.trades := by
  have hrun : ((fresh .priceTimePriority .cancelMaker 4 true).run
      [(1, .submit ((Order.limit 1 .sell 101 5).by_ 7)),
        (1, .submit ((Order.limit 2 .sell 101 3).by_ 8))]).map (fun r =>
          (r.1.submit ((Order.limit 3 .buy 102 2).by_ 7)).map fun r' =>
            (r'.1.stpCancelled, r'.2.trades.map Trade.maker)) = some (some ([1], [2])) := by
    decide +kernel
  obtain ⟨⟨e, outcomes⟩, hrun, hres⟩ := Option.map_eq_some_iff.mp hrun
  obtain ⟨⟨e', report⟩, hsubmit, hpair⟩ := Option.map_eq_some_iff.mp hres
  obtain ⟨hcancelled, hmakers⟩ := Prod.mk.inj hpair
  exact ⟨e, outcomes, e', report, hrun, hsubmit, hcancelled, hmakers,
    (selfTrade_prevented .priceTimePriority .cancelMaker nofun 4 true _ (by decide) e outcomes
      hrun).1 _ e' report hsubmit⟩

end MatchingEngine

end TradeCore
