import TradeCore.Snapshot

/-!
# The Cutover Fingerprint

The fingerprint that both sides of a migration compare (`exchange.rs`, `migration.rs`): the
selected engine states are flattened into 64-bit words, which an FNV-1a hash folds. The words
carry neither the sides of the orders nor how many orders an engine has.

* `fingerprintWords` — the words.
* `fingerprintWords_separate` — states with the same words are the same exactly if they have the
  same instruments, with the same sides of the orders at each of them.
* `fingerprintWords_collide` — reachable states with the same words: a bid and an ask; and six
  empty books, against one book with two orders.
* `SnapshotData.load_write` — a snapshot file gives back what was written into it, and with it the
  fingerprints of the processor that wrote it.
-/

open List Option

namespace TradeCore

/-- The category of an instrument. -/
def assetCategory (instrument categorySize : ℕ) : ℕ := (instrument - 1) / max categorySize 1

/-- The words of an order. -/
def Order.words (o : Order) : List ℕ := [o.id, o.price, o.remaining, o.timestamp, o.user]

/-- The words of an engine. -/
def EngineState.words (s : EngineState) : List ℕ :=
  s.instrument :: s.engineSeq :: s.orders.flatMap Order.words

/-- The words that the hash of the selected engines folds. -/
def fingerprintWords (states : List EngineState) (select : ℕ → Bool) : List ℕ :=
  (states.filter fun s => select s.instrument).flatMap EngineState.words

/-- FNV-1a over the little-endian bytes of the words. -/
def fingerprintEngineStates (states : List EngineState) (select : ℕ → Bool) : UInt64 :=
  fnv1a ((fingerprintWords states select).flatMap (leBytes 8))

namespace Processor

def categoryFingerprint (p : Processor) (ω : ℕ → HashOrder) (categoryId categorySize : ℕ) :
    Option UInt64 := do
  let states ← p.exportState ω
  pure (fingerprintEngineStates states fun instrument =>
    assetCategory instrument categorySize = categoryId)

end Processor

/-- A resting order as the matching sees it. -/
structure RestingView where
  id : ℕ
  side : Side
  price : ℕ
  remaining : ℕ
  timestamp : ℕ
  user : ℕ
deriving DecidableEq

def Order.view (o : Order) : RestingView :=
  ⟨o.id, o.side, o.price, o.remaining, o.timestamp, o.user⟩

/-- Instrument, sequence number and orders of the selected engines. -/
def matchingState (states : List EngineState) (select : ℕ → Bool) :
    List (ℕ × ℕ × List RestingView) :=
  (states.filter fun s => select s.instrument).map fun s =>
    (s.instrument, s.engineSeq, s.orders.map Order.view)

/-- Instrument and sides of the orders of the selected engines. -/
def matchingSides (states : List EngineState) (select : ℕ → Bool) : List (ℕ × List Side) :=
  (states.filter fun s => select s.instrument).map fun s => (s.instrument, s.orders.map Order.side)

/-! ### Words that are cut alike -/

/-- What two functions determine about elements they determine about lists. -/
theorem map_eq_map_of_determined {α β γ δ : Type} {f : α → β} {g : α → γ} {h : α → δ}
    (hdet : ∀ a b, f a = f b → g a = g b → h a = h b) {l₁ l₂ : List α}
    (hf : l₁.map f = l₂.map f) (hg : l₁.map g = l₂.map g) : l₁.map h = l₂.map h := by
  induction l₁ generalizing l₂ with
  | nil =>
    rw [map_nil, eq_comm, map_eq_nil_iff] at hf
    rw [hf]
  | cons a l₁ ih =>
    cases l₂ with
    | nil => cases hf
    | cons b l₂ =>
      obtain ⟨hfa, hf⟩ := cons.inj hf
      obtain ⟨hga, hg⟩ := cons.inj hg
      rw [map_cons, map_cons, hdet a b hfa hga, ih hf hg]

/-- A flattened list can be cut back where the lengths of its parts agree. -/
theorem map_eq_map_of_flatMap_eq {α β : Type} {f : α → List β} {l₁ l₂ : List α}
    (hlen : l₁.map (List.length ∘ f) = l₂.map (List.length ∘ f))
    (h : l₁.flatMap f = l₂.flatMap f) : l₁.map f = l₂.map f := by
  refine eq_iff_flatten_eq.mpr ⟨?_, ?_⟩
  · rwa [flatMap_def, flatMap_def] at h
  · rwa [List.map_map, List.map_map]

theorem Order.length_words (o : Order) : o.words.length = 5 := rfl

theorem EngineState.length_words (s : EngineState) :
    s.words.length = 5 * s.orders.length + 2 := by
  simp [words, length_flatMap, Order.length_words, mul_comm]

/-- The words of an order and its side are what the matching sees of it. -/
theorem Order.view_eq_of_words {a b : Order} (hwords : a.words = b.words)
    (hside : a.side = b.side) : a.view = b.view := by
  simp only [words, cons.injEq, and_true] at hwords
  obtain ⟨hid, hprice, hremaining, htimestamp, huser⟩ := hwords
  rw [view, view, hid, hside, hprice, hremaining, htimestamp, huser]

/-- The words of an engine and the sides of its orders are what the matching sees of it. -/
theorem EngineState.view_eq_of_words {s t : EngineState} (hwords : s.words = t.words)
    (hsides : s.orders.map Order.side = t.orders.map Order.side) :
    s.engineSeq = t.engineSeq ∧ s.orders.map Order.view = t.orders.map Order.view := by
  obtain ⟨-, hwords⟩ := cons.inj hwords
  obtain ⟨hseq, hwords⟩ := cons.inj hwords
  have hlen : s.orders.length = t.orders.length := by
    simpa using congrArg List.length hsides
  have hcut : s.orders.map Order.words = t.orders.map Order.words := by
    refine map_eq_map_of_flatMap_eq ?_ hwords
    have hfive : List.length ∘ Order.words = fun _ => 5 := funext Order.length_words
    rw [hfive, map_const', map_const', hlen]
  exact ⟨hseq, map_eq_map_of_determined (fun a b => Order.view_eq_of_words) hcut hsides⟩

/-- **What the fingerprint separates**: two lists of engine states with the same words agree on
the sequence numbers and orders of the selected instruments exactly if they have the same
instruments, with orders of the same sides. -/
theorem fingerprintWords_separate (states₁ states₂ : List EngineState) (select : ℕ → Bool)
    (hwords : fingerprintWords states₁ select = fingerprintWords states₂ select) :
    matchingState states₁ select = matchingState states₂ select ↔
      matchingSides states₁ select = matchingSides states₂ select := by
  constructor
  · intro h
    have hsides := congrArg (List.map fun v : ℕ × ℕ × List RestingView =>
      (v.1, v.2.2.map RestingView.side)) h
    simpa [matchingState, matchingSides, Function.comp_def, Order.view] using hsides
  · intro hsides
    -- the sides say how many orders an engine has, so both streams are cut at the same places
    have hlen := congrArg (List.map fun v : ℕ × List Side => 5 * v.2.length + 2) hsides
    have hcut : (states₁.filter fun s => select s.instrument).map EngineState.words =
        (states₂.filter fun s => select s.instrument).map EngineState.words := by
      refine map_eq_map_of_flatMap_eq ?_ hwords
      simpa [matchingSides, Function.comp_def, EngineState.length_words] using hlen
    refine map_eq_map_of_determined (fun s t hs ht => ?_) hcut hsides
    obtain ⟨hinstrument, hsides⟩ := Prod.mk.inj ht
    obtain ⟨hseq, horders⟩ := EngineState.view_eq_of_words hs hsides
    rw [hinstrument, hseq, horders]

/-- The same book in category 0, with and without an engine of another category. -/
theorem fingerprintWords_separate_bids : let bid : EngineState :=
      ⟨1, 1, [{ Order.limit 1 .buy 100 5 with instrument := 1, timestamp := 1 }]⟩
    fingerprintWords [⟨2, 4, []⟩, bid] (fun i => assetCategory i 1 = 0) =
      fingerprintWords [bid] (fun i => assetCategory i 1 = 0) ∧
    (matchingState [⟨2, 4, []⟩, bid] (fun i => assetCategory i 1 = 0) =
        matchingState [bid] (fun i => assetCategory i 1 = 0) ↔
      matchingSides [⟨2, 4, []⟩, bid] (fun i => assetCategory i 1 = 0) =
        matchingSides [bid] fun i => assetCategory i 1 = 0) :=
  ⟨by decide, fingerprintWords_separate _ _ _ (by decide)⟩

/-! ### Books with the same words -/

/-- The engine states of a processor after some commands. -/
def exported (cmds : List Command) : Option (List EngineState) := do
  let (p, _) ← (Processor.fresh Processor.defaultConfig).processAll (fun _ => 1) 0 cmds
  p.exportState fun _ => 1

/-- A buyer who does not wait, at an empty book. -/
def passing (id instrument : ℕ) : Command :=
  .new { Order.limit id .buy 1 1 with instrument := instrument, tif := .ioc }

/-- Two bids, with four buyers who do not wait between them. -/
def twoBids : List Command :=
  [.new { Order.limit 2 .buy 1 3 with instrument := 1, user := 4 }, passing 11 1, passing 12 1,
    passing 13 1, passing 14 1, .new { Order.limit 1 .buy 5 1 with instrument := 1, user := 1 }]

/-- Eleven buyers who do not wait, at six instruments. -/
def passersBy : List Command :=
  [passing 11 1, passing 12 1, passing 13 1, passing 14 1, passing 15 1, passing 16 1,
    passing 17 2, passing 18 3, passing 19 4, passing 20 5, passing 21 6]

/-- The resting state of one of the two bids. -/
def restingBid (id price quantity user timestamp : ℕ) : Order :=
  { Order.limit id .buy price quantity with
    instrument := 1, user := user, timestamp := timestamp }

/-- **States that the fingerprint does not tell apart**: a bid and an ask with the same numbers;
and a book with two bids, from six books that are empty. -/
theorem fingerprintWords_collide :
    (∃ states₁ states₂, exported [.new (Order.limit 1 .buy 100 5)] = some states₁ ∧
      exported [.new (Order.limit 1 .sell 100 5)] = some states₂ ∧
      fingerprintWords states₁ (fun _ => true) = fingerprintWords states₂ (fun _ => true) ∧
      matchingState states₁ (fun _ => true) ≠ matchingState states₂ fun _ => true) ∧
    ∃ states₁ states₂, exported twoBids = some states₁ ∧ exported passersBy = some states₂ ∧
      fingerprintWords states₁ (fun _ => true) = fingerprintWords states₂ (fun _ => true) ∧
      matchingState states₁ (fun _ => true) ≠ matchingState states₂ fun _ => true := by
  have hbid : exported [.new (Order.limit 1 .buy 100 5)] =
      some [⟨0, 1, [{ Order.limit 1 .buy 100 5 with timestamp := 1 }]⟩] := by decide +kernel
  have hask : exported [.new (Order.limit 1 .sell 100 5)] =
      some [⟨0, 1, [{ Order.limit 1 .sell 100 5 with timestamp := 1 }]⟩] := by decide +kernel
  have hbids : exported twoBids =
      some [⟨1, 6, [restingBid 2 1 3 4 1, restingBid 1 5 1 1 6]⟩] := by decide +kernel
  have hempty : exported passersBy =
      some [⟨1, 6, []⟩, ⟨2, 1, []⟩, ⟨3, 1, []⟩, ⟨4, 1, []⟩, ⟨5, 1, []⟩, ⟨6, 1, []⟩] := by
    decide +kernel
  exact ⟨⟨_, _, hbid, hask, by decide, by decide⟩, _, _, hbids, hempty, by decide, by decide⟩

/-! ### The fingerprint of a snapshot file -/

/-- A category fingerprint with the applied index that it was taken at. -/
structure CategoryFingerprint where
  raftAppliedIndex : ℕ
  fingerprint : UInt64
deriving DecidableEq, Repr

/-- The fingerprint of a category, from the content of a snapshot file. A file that is missing has
none. -/
def snapshotCategoryFingerprint (file : Option (List UInt8)) (categoryId categorySize : ℕ) :
    Option (Except IoError (Option CategoryFingerprint)) :=
  match file with
  | none => some (.ok none)
  | some bytes => (MatchingSnapshot.load bytes).map fun loaded => loaded.map fun snap =>
    some ⟨snap.raftAppliedIndex, fingerprintEngineStates snap.engines fun instrument =>
      assetCategory instrument categorySize = categoryId⟩

/-- The fingerprint of a file that can be read. -/
theorem snapshotCategoryFingerprint_of_load {bytes : List UInt8} {snap : MatchingSnapshot}
    (h : MatchingSnapshot.load bytes = some (.ok snap)) (categoryId categorySize : ℕ) :
    snapshotCategoryFingerprint (some bytes) categoryId categorySize =
      some (.ok (some ⟨snap.raftAppliedIndex, fingerprintEngineStates snap.engines fun instrument =>
        assetCategory instrument categorySize = categoryId⟩)) := by
  rw [snapshotCategoryFingerprint, h]
  rfl

/-- The engines of a snapshot are those that the processor exports. -/
theorem Processor.exportState_of_snapshotData {p : Processor} {ω : SnapshotOrders}
    {journalSeq raftAppliedIndex : ℕ} {d : SnapshotData}
    (h : p.snapshotData ω journalSeq raftAppliedIndex = some d) :
    p.exportState ω.orders = some d.engines ∧ d.raftAppliedIndex = raftAppliedIndex := by
  obtain ⟨states, hstates, h⟩ := bind_eq_some_iff.mp h
  cases h
  exact ⟨hstates, rfl⟩

/-- **A snapshot file is read back.** Every written snapshot whose counts fit their fields is
loaded as it was, in the current version; so the file has, for every category, the fingerprint of
the processor that the snapshot was taken from. -/
theorem SnapshotData.load_write (d : SnapshotData) (hr : d.InRange)
    (hhalted : d.halted.length < 2 ^ 32) (hsuspended : d.suspended.length < 2 ^ 32)
    (hpositions : d.positions.length < 2 ^ 32) (hengines : d.engines.length < 2 ^ 32)
    (bytes : List UInt8) (hwrite : d.write = some bytes) :
    MatchingSnapshot.load bytes = some (.ok { d with formatVersion := 4 }) ∧
      ∀ (p : Processor) (ω : SnapshotOrders) (journalSeq raftAppliedIndex : ℕ),
        p.snapshotData ω journalSeq raftAppliedIndex = some d →
        ∀ categoryId categorySize : ℕ, ∃ fingerprint : UInt64,
          p.categoryFingerprint ω.orders categoryId categorySize = some fingerprint ∧
          snapshotCategoryFingerprint (some bytes) categoryId categorySize =
            some (.ok (some ⟨raftAppliedIndex, fingerprint⟩)) := by
  have hload : MatchingSnapshot.load bytes = some (.ok { d with formatVersion := 4 }) := by
    rw [write] at hwrite
    split at hwrite
    · rename_i hlen
      cases hwrite
      rw [load_bytes hr hlen hhalted hsuspended hpositions, Nat.mod_eq_of_lt hengines, take_length]
      rfl
    · cases hwrite
  refine ⟨hload, fun p ω journalSeq raftAppliedIndex hd categoryId categorySize => ?_⟩
  obtain ⟨hexport, hindex⟩ := Processor.exportState_of_snapshotData hd
  refine ⟨_, by rw [Processor.categoryFingerprint, hexport]; rfl, ?_⟩
  rw [snapshotCategoryFingerprint_of_load hload, ← hindex]

/-- What is written after two bids, a halt and a suspension. -/
def bidState : SnapshotData where
  journalSeq := 1000
  raftAppliedIndex := 777
  maxCmdId := 0
  maxAdminId := 0
  halted := [7]
  suspended := [42]
  positions := []
  engines := [⟨1, 6, [restingBid 2 1 3 4 1, restingBid 1 5 1 1 6]⟩]

theorem bidState_inRange : bidState.InRange where
  journalSeq := by decide
  raftAppliedIndex := by decide
  maxCmdId := by decide
  maxAdminId := by decide
  halted := by decide
  suspended := by decide
  positions := by decide
  engines := by
    intro e he
    obtain rfl := mem_singleton.mp he
    refine ⟨by decide, by decide, fun o ho => ?_⟩
    simp only [mem_cons, not_mem_nil, or_false] at ho
    rcases ho with rfl | rfl <;> constructor <;> decide

/-- A processor with two bids has the fingerprints of its snapshot file. -/
theorem load_write_bidState : ∃ p reports ω bytes,
    (Processor.fresh Processor.defaultConfig).processAll (fun _ => 1) 0
        (twoBids ++ [.halt 7 30, .haltUser 1 42 31]) = some (p, reports) ∧
      p.snapshotData ω 1000 777 = some bidState ∧ bidState.write = some bytes ∧
      MatchingSnapshot.load bytes = some (.ok { bidState with formatVersion := 4 }) ∧
      ∃ fingerprint, p.categoryFingerprint ω.orders 0 1000 = some fingerprint ∧
        snapshotCategoryFingerprint (some bytes) 0 1000 = some (.ok (some ⟨777, fingerprint⟩)) := by
  have hrun : ((Processor.fresh Processor.defaultConfig).processAll (fun _ => 1) 0
      (twoBids ++ [.halt 7 30, .haltUser 1 42 31])).bind (fun r =>
        r.1.snapshotData ⟨1, 1, 1, fun _ => 1⟩ 1000 777) = some bidState := by decide +kernel
  obtain ⟨⟨p, reports⟩, hrun, hd⟩ := bind_eq_some_iff.mp hrun
  have hwrite : bidState.write = some bidState.bytes := by decide +kernel
  have h := SnapshotData.load_write bidState bidState_inRange (by decide) (by decide) (by decide)
    (by decide) _ hwrite
  exact ⟨p, reports, _, _, hrun, hd, hwrite, h.1, h.2 p _ _ _ hd 0 1000⟩

end TradeCore
