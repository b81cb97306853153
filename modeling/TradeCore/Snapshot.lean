import TradeCore.Wire

/-!
# Snapshots

A snapshot (`snapshot.rs`) holds the state of a shard at a point of its history: the engines
with their resting orders, halts, suspensions, positions and the cursors of the duplicate
filter. `persist_processor_snapshot` writes it to a file, `load` reads the file, and
`restore_state` puts the state into a new processor.

The file is little-endian: magic, version, four 64-bit numbers, then the halted instruments,
the suspended users, the positions and the engines, each behind a 32-bit count, and a checksum
over everything. The counts are cut to 32 bits when they are written. The reader does not ask
whether it has used up the file, and its slices abort (`none`) when they leave it.

The sets and maps of the processor are written in their iteration order (`SnapshotOrders`).
Engines are sorted by instrument, and the orders of an engine by timestamp.

## Main results

* `SnapshotData.load_bytes` — what is read back from a written file.
* `SnapshotData.halted_of_load` — the part of it that needs the first count only.
-/

namespace TradeCore

open Std List
open Option hiding guard

/-! ### The file format -/

/-- One engine inside a snapshot. -/
structure EngineState where
  instrument : ℕ
  engineSeq : ℕ
  /-- Resting orders in time-priority order. -/
  orders : List Order
deriving DecidableEq, Repr

/-- The state that is written. -/
structure SnapshotData where
  journalSeq : ℕ
  raftAppliedIndex : ℕ
  maxCmdId : ℕ
  maxAdminId : ℕ
  halted : List ℕ
  suspended : List ℕ
  /-- User, instrument and net quantity. -/
  positions : List (ℕ × ℕ × ℤ)
  engines : List EngineState
deriving DecidableEq, Repr

/-- A decoded snapshot. -/
structure MatchingSnapshot extends SnapshotData where
  formatVersion : ℕ
deriving DecidableEq, Repr

/-- `TCS1`. -/
def SNAPSHOT_MAGIC : List UInt8 := [0x54, 0x43, 0x53, 0x31]

def SNAPSHOT_VERSION : ℕ := 4

def LEGACY_VERSION : ℕ := 3

/-- The length of an order record. -/
def ORDER_ENC : ℕ := 56

/-- The record of an order. -/
def encodeOrder (o : Order) : List UInt8 :=
  leBytes 8 o.id ++ leBytes 4 o.instrument ++ leBytes 8 o.user ++
    [o.side.code, o.orderType.code, o.tif.code, 0] ++ leBytes 8 o.price ++
    leBytes 8 o.quantity ++ leBytes 8 o.remaining ++ leBytes 8 o.timestamp

/-- A number inside a record. -/
def leAt (b : List UInt8) (off k : ℕ) : ℕ := leNat ((b.drop off).take k)

/-- The order of a record. -/
def decodeOrder (b : List UInt8) : Order where
  id := leAt b 0 8
  instrument := leAt b 8 4
  user := leAt b 12 8
  side := if b.getD 20 0 = 0 then .buy else .sell
  orderType := if b.getD 21 0 = 1 then .market else .limit
  tif :=
    if b.getD 22 0 = 1 then .ioc
    else if b.getD 22 0 = 2 then .fok
    else if b.getD 22 0 = 3 then .iocBudget
    else if b.getD 22 0 = 4 then .fokBudget
    else .gtc
  price := leAt b 24 8
  quantity := leAt b 32 8
  remaining := leAt b 40 8
  timestamp := leAt b 48 8

/-- A list behind its 32-bit count. -/
def counted {α : Type} (write : α → List UInt8) (xs : List α) : List UInt8 :=
  leBytes 4 xs.length ++ xs.flatMap write

/-- The record of a position. -/
def encodePosition (e : ℕ × ℕ × ℤ) : List UInt8 :=
  leBytes 8 e.1 ++ leBytes 4 e.2.1 ++ leBytes 8 (e.2.2 % 2 ^ 64).toNat

/-- An engine: instrument, sequence number, and the orders behind a 64-bit count. -/
def EngineState.bytes (e : EngineState) : List UInt8 :=
  leBytes 4 e.instrument ++ leBytes 8 e.engineSeq ++ leBytes 8 e.orders.length ++
    e.orders.flatMap encodeOrder

namespace SnapshotData

variable (d : SnapshotData)

/-- Everything between the version and the checksum. -/
def payload : List UInt8 :=
  leBytes 8 d.journalSeq ++ leBytes 8 d.raftAppliedIndex ++ leBytes 8 d.maxCmdId ++
    leBytes 8 d.maxAdminId ++ counted (leBytes 4) d.halted ++ counted (leBytes 8) d.suspended ++
    counted encodePosition d.positions ++ counted EngineState.bytes d.engines

/-- Everything before the checksum. -/
def body : List UInt8 :=
  SNAPSHOT_MAGIC ++ leBytes 4 SNAPSHOT_VERSION ++ d.payload

/-- The content of the file. -/
def bytes : List UInt8 := d.body ++ leBytes 8 (fnv1a d.body).toNat

/-- The content that `write` puts in place; it aborts if a byte vector cannot hold it. -/
def write : Option (List UInt8) :=
  if d.bytes.length < 2 ^ 63 then some d.bytes else none

end SnapshotData

/-! ### Reading -/

namespace MatchingSnapshot

/-- Read a list behind its 32-bit count. -/
def readCounted {α : Type} (read : List UInt8 → Option (α × List UInt8)) (rest : List UInt8) :
    Option (List α × List UInt8) := do
  let (n, rest) ← readLe 4 rest
  readItems read n rest

/-- Read a position. -/
def readPosition (rest : List UInt8) : Option ((ℕ × ℕ × ℤ) × List UInt8) := do
  let (user, rest) ← readLe 8 rest
  let (instrument, rest) ← readLe 4 rest
  let (qty, rest) ← readLe 8 rest
  pure ((user, instrument, Int.bmod qty (2 ^ 64)), rest)

/-- Read an order. -/
def readOrder (rest : List UInt8) : Option (Order × List UInt8) :=
  (readExact ORDER_ENC rest).map fun r => (decodeOrder r.1, r.2)

/-- Read engines from a file of `len` bytes. The size check wraps; the reservation of the
orders aborts if it cannot be represented. -/
def readEngines (len : ℕ) : ℕ → List UInt8 → Option (Except IoError (List EngineState))
  | 0, _ => some (.ok [])
  | k + 1, rest =>
    if rest.length < 20 + 8 then some (.error (.invalidData "truncated engine header"))
    else do
      let (instrument, rest) ← readLe 4 rest
      let (engineSeq, rest) ← readLe 8 rest
      let (n, rest) ← readLe 8 rest
      if len - 8 < (len - rest.length + n * ORDER_ENC) % 2 ^ 64 then
        some (.error (.invalidData "truncated orders"))
      else do
        guard (n * ORDER_ENC < 2 ^ 63)
        let (orders, rest) ← readItems readOrder n rest
        let engines ← readEngines len k rest
        pure (engines.map (⟨instrument, engineSeq, orders⟩ :: ·))

/-- Everything behind the version. -/
def parse (len version : ℕ) (rest : List UInt8) : Option (Except IoError MatchingSnapshot) := do
  let (journalSeq, rest) ← readLe 8 rest
  let (raftAppliedIndex, rest) ← if 4 ≤ version then readLe 8 rest else some (0, rest)
  let (maxCmdId, rest) ← readLe 8 rest
  let (maxAdminId, rest) ← readLe 8 rest
  let (halted, rest) ← readCounted (readLe 4) rest
  let (suspended, rest) ← readCounted (readLe 8) rest
  let (positions, rest) ← readCounted readPosition rest
  let (count, rest) ← readLe 4 rest
  let engines ← readEngines len count rest
  pure (engines.map fun engines =>
    { journalSeq := journalSeq, raftAppliedIndex := raftAppliedIndex, maxCmdId := maxCmdId
      maxAdminId := maxAdminId, halted := halted, suspended := suspended
      positions := positions, engines := engines, formatVersion := version })

/-- Load a snapshot from the content of its file. -/
def load (bytes : List UInt8) : Option (Except IoError MatchingSnapshot) :=
  let bodyLen := bytes.length - 8
  let version := leNat ((bytes.drop 4).take 4)
  if bytes.length < 4 + 4 + 8 + 4 + 8 ∨ bytes.take 4 ≠ SNAPSHOT_MAGIC then
    some (.error (.invalidData "bad magic/size"))
  else if fnv1a (bytes.take bodyLen) ≠ UInt64.ofNat (leNat (bytes.drop bodyLen)) then
    some (.error (.invalidData "checksum mismatch"))
  else if version ≠ SNAPSHOT_VERSION ∧ version ≠ LEGACY_VERSION then
    some (.error (.invalidData "unsupported version"))
  else parse bytes.length version (bytes.drop 8)

end MatchingSnapshot

/-! ### Processors -/

namespace MatchingEngine

/-- All resting orders, sorted by timestamp. -/
def exportOrders (e : MatchingEngine) (ω : HashOrder) : Option (List Order) := do
  let orders ← e.book.iterOrders ω
  pure (orders.insertionSort fun a b => a.timestamp ≤ b.timestamp)

/-- Set the sequence number and insert the orders again, without matching. -/
def restore (e : MatchingEngine) (seq : ℕ) (orders : List Order) : Option MatchingEngine := do
  let book ← orders.foldlM OrderBook.insert e.book
  pure { e with seq := seq, book := book }

end MatchingEngine

/-- The iteration orders that one snapshot meets: those of three collections of the processor,
and for each engine that of its id index. -/
structure SnapshotOrders where
  halted : HashOrder
  suspended : HashOrder
  positions : HashOrder
  orders : ℕ → HashOrder

namespace Processor

variable (p : Processor)

/-- The engines, sorted by instrument. -/
def exportState (ω : ℕ → HashOrder) : Option (List EngineState) :=
  p.engines.toList.mapM fun e => do
    let orders ← e.2.exportOrders (ω e.1)
    pure ⟨e.1, e.2.seq, orders⟩

/-- The state of a processor as it is written; positions of zero are left out. -/
def snapshotData (ω : SnapshotOrders) (journalSeq raftAppliedIndex : ℕ) : Option SnapshotData := do
  let states ← p.exportState ω.orders
  pure
    { journalSeq := journalSeq
      raftAppliedIndex := raftAppliedIndex
      maxCmdId := p.maxNewId
      maxAdminId := p.maxAdminId
      halted := ω.halted.apply p.halted.toList
      suspended := ω.suspended.apply p.suspended.toList
      positions := ((ω.positions.apply p.positions.entries).filter fun e => e.2 ≠ 0).map
        fun e => (e.1.1, e.1.2, e.2)
      engines := states }

/-- Write the snapshot file of a processor (`persist_processor_snapshot`). -/
def persistSnapshot (ω : SnapshotOrders) (journalSeq raftAppliedIndex : ℕ) :
    Option (List UInt8) := do
  let d ← p.snapshotData ω journalSeq raftAppliedIndex
  d.write

/-- Add a position of a snapshot. -/
def restorePosition (e : ℕ × ℕ × ℤ) : Processor :=
  let total := Int.bmod (p.position e.1 e.2.1 + e.2.2) (2 ^ 64)
  { p with positions := p.positions.insert (e.1, e.2.1) total }

/-- Restore an engine. The ids of its orders count as seen. -/
def restoreEngine (e : EngineState) : Option Processor := do
  let p := { p with
    seenCommandIds := (e.orders.map Order.id).foldl (fun s i => s.insert i) p.seenCommandIds }
  let engine ← (p.engineFor e.instrument).restore e.engineSeq e.orders
  pure (p.setEngine e.instrument engine)

/-- Restore a snapshot. -/
def restoreState (snap : MatchingSnapshot) : Option Processor :=
  let p := { p with
    maxNewId := max p.maxNewId snap.maxCmdId
    maxAdminId := max p.maxAdminId snap.maxAdminId
    halted := snap.halted.foldl (fun s i => s.insert i) p.halted
    suspended := snap.suspended.foldl (fun s u => s.insert u) p.suspended }
  snap.engines.foldlM restoreEngine (snap.positions.foldl restorePosition p)

/-- A restart from a snapshot: `p'` is a new processor with the settings of `p` that restored
the snapshot file of `p`. -/
def Restarts (p' : Processor) : Prop :=
  ∃ ω journalSeq raftAppliedIndex bytes snap,
    p.persistSnapshot ω journalSeq raftAppliedIndex = some bytes ∧
      MatchingSnapshot.load bytes = some (.ok snap) ∧ (fresh p.config).restoreState snap = some p'

end Processor

/-! ### What is read back -/

/-- The fields of the snapshot are values of the source's machine integers. -/
structure EngineState.InRange (e : EngineState) : Prop where
  instrument : e.instrument < 2 ^ 32
  engineSeq : e.engineSeq < 2 ^ 64
  orders : ∀ o ∈ e.orders, o.InRange

/-- The fields of the snapshot are values of the source's machine integers. -/
structure SnapshotData.InRange (d : SnapshotData) : Prop where
  journalSeq : d.journalSeq < 2 ^ 64
  raftAppliedIndex : d.raftAppliedIndex < 2 ^ 64
  maxCmdId : d.maxCmdId < 2 ^ 64
  maxAdminId : d.maxAdminId < 2 ^ 64
  halted : ∀ i ∈ d.halted, i < 2 ^ 32
  suspended : ∀ u ∈ d.suspended, u < 2 ^ 64
  positions : ∀ e ∈ d.positions, e.1 < 2 ^ 64 ∧ e.2.1 < 2 ^ 32 ∧ -2 ^ 63 ≤ e.2.2 ∧ e.2.2 < 2 ^ 63
  engines : ∀ e ∈ d.engines, e.InRange

@[simp] theorem length_encodeOrder (o : Order) : (encodeOrder o).length = ORDER_ENC := by
  simp [encodeOrder, ORDER_ENC]

/-- An order is read back from its record. -/
theorem decodeOrder_encodeOrder {o : Order} (h : o.InRange) : decodeOrder (encodeOrder o) = o := by
  have hid : leAt (encodeOrder o) 0 8 = leNat (leBytes 8 o.id) := rfl
  have hinstrument : leAt (encodeOrder o) 8 4 = leNat (leBytes 4 o.instrument) := rfl
  have huser : leAt (encodeOrder o) 12 8 = leNat (leBytes 8 o.user) := rfl
  have hprice : leAt (encodeOrder o) 24 8 = leNat (leBytes 8 o.price) := rfl
  have hquantity : leAt (encodeOrder o) 32 8 = leNat (leBytes 8 o.quantity) := rfl
  have hremaining : leAt (encodeOrder o) 40 8 = leNat (leBytes 8 o.remaining) := rfl
  have htimestamp : leAt (encodeOrder o) 48 8 = leNat (leBytes 8 o.timestamp) := rfl
  have hside : (encodeOrder o).getD 20 0 = o.side.code := rfl
  have htype : (encodeOrder o).getD 21 0 = o.orderType.code := rfl
  have htif : (encodeOrder o).getD 22 0 = o.tif.code := rfl
  rw [decodeOrder, hid, hinstrument, huser, hprice, hquantity, hremaining, htimestamp, hside, htype,
    htif, leNat_leBytes_of_lt h.id, leNat_leBytes_of_lt h.instrument, leNat_leBytes_of_lt h.user,
    leNat_leBytes_of_lt h.price, leNat_leBytes_of_lt h.quantity, leNat_leBytes_of_lt h.remaining,
    leNat_leBytes_of_lt h.timestamp]
  obtain ⟨_, _, _, side, orderType, tif, _, _, _, _⟩ := o
  cases side <;> cases orderType <;> cases tif <;> rfl

namespace MatchingSnapshot

theorem readOrder_encodeOrder {o : Order} (h : o.InRange) (rest : List UInt8) :
    readOrder (encodeOrder o ++ rest) = some (o, rest) := by
  rw [readOrder, readExact_append (length_encodeOrder o), map_some, decodeOrder_encodeOrder h]

theorem readPosition_encodePosition {e : ℕ × ℕ × ℤ} (hu : e.1 < 2 ^ 64) (hi : e.2.1 < 2 ^ 32)
    (hlo : -2 ^ 63 ≤ e.2.2) (hhi : e.2.2 < 2 ^ 63) (rest : List UInt8) :
    readPosition (encodePosition e ++ rest) = some (e, rest) := by
  obtain ⟨user, instrument, qty⟩ := e
  have hpos := Int.emod_nonneg qty (b := 2 ^ 64) (by norm_num)
  have hq : (qty % 2 ^ 64).toNat < 2 ^ 64 := by
    have := Int.emod_lt_of_pos qty (b := 2 ^ 64) (by norm_num)
    omega
  have hback : Int.bmod (qty % 2 ^ 64).toNat (2 ^ 64) = qty := by
    rw [Int.toNat_of_nonneg hpos]
    refine Eq.trans (Int.emod_bmod qty (2 ^ 64)) (Int.bmod_eq_of_le ?_ ?_)
    · simpa using hlo
    · simpa using hhi
  simp only [readPosition, encodePosition, append_assoc, readLe_leBytes_eight hu,
    readLe_leBytes_four hi, readLe_leBytes_eight hq, bind_eq_bind, bind_some,
    Option.pure_def, hback]

/-- A counted list is read back if its count fits. -/
theorem readCounted_counted {α : Type} {read : List UInt8 → Option (α × List UInt8)}
    {write : α → List UInt8} {xs : List α} (hlen : xs.length < 2 ^ 32)
    (h : ∀ a ∈ xs, ∀ rest, read (write a ++ rest) = some (a, rest)) (rest : List UInt8) :
    readCounted read (counted write xs ++ rest) = some (xs, rest) := by
  rw [readCounted, counted, append_assoc, readLe_leBytes_four hlen]
  exact readItems_flatMap h rest

/-- The size of an engine in the file. -/
theorem length_engineBytes (e : EngineState) :
    e.bytes.length = 20 + ORDER_ENC * e.orders.length := by
  simp only [EngineState.bytes, length_append, length_leBytes, length_flatMap,
    length_encodeOrder, map_const', sum_replicate, smul_eq_mul]
  ring

/-- Engines are read back from a file that holds them and a checksum. -/
theorem readEngines_flatMap {len : ℕ} (hlen : len < 2 ^ 63) {engines : List EngineState}
    (hr : ∀ e ∈ engines, e.InRange) {tail : List UInt8} (htail : 8 ≤ tail.length)
    (hfit : (engines.flatMap EngineState.bytes ++ tail).length ≤ len) :
    readEngines len engines.length (engines.flatMap EngineState.bytes ++ tail) =
      some (.ok engines) := by
  induction engines with
  | nil => rfl
  | cons e engines ih =>
    have he := hr e mem_cons_self
    have hbytes := length_engineBytes e
    rw [flatMap_cons, append_assoc] at hfit ⊢
    have hrest : (engines.flatMap EngineState.bytes ++ tail).length + 20 +
        ORDER_ENC * e.orders.length ≤ len := by
      rw [length_append, hbytes] at hfit
      omega
    have htail' : 8 ≤ (engines.flatMap EngineState.bytes ++ tail).length := by
      rw [length_append]
      omega
    have hcount : e.orders.length < 2 ^ 64 := by
      simp only [ORDER_ENC] at hrest
      omega
    have hafter : (e.orders.flatMap encodeOrder ++
        (engines.flatMap EngineState.bytes ++ tail)).length =
        ORDER_ENC * e.orders.length + (engines.flatMap EngineState.bytes ++ tail).length := by
      rw [length_append, length_flatMap]
      simp [mul_comm]
    have hcomm : e.orders.length * ORDER_ENC = ORDER_ENC * e.orders.length := mul_comm _ _
    rw [length_cons, readEngines, if_neg]
    · simp only [EngineState.bytes, append_assoc, readLe_leBytes_four he.instrument,
        readLe_leBytes_eight he.engineSeq, readLe_leBytes_eight hcount, bind_eq_bind,
        bind_some]
      rw [hafter, hcomm, if_neg]
      · have hguard : ORDER_ENC * e.orders.length < 2 ^ 63 := by omega
        have hitems := readItems_flatMap (fun o ho rest =>
          readOrder_encodeOrder (he.orders o ho) rest)
          (engines.flatMap EngineState.bytes ++ tail)
        have hengines := ih (fun e' he' => hr e' (mem_cons_of_mem _ he')) (by omega)
        simp only [guard, hguard, if_true, Option.pure_def, bind_some, hitems, hengines]
        rfl
      · -- the orders end before the checksum, and nothing wraps
        rw [Nat.mod_eq_of_lt (by omega)]
        omega
    · rw [length_append, hbytes]
      omega

end MatchingSnapshot

namespace SnapshotData

variable (d : SnapshotData)

/-- A written file passes the checks of its frame. -/
theorem load_bytes_eq_parse : MatchingSnapshot.load d.bytes =
    MatchingSnapshot.parse d.bytes.length SNAPSHOT_VERSION
      (d.payload ++ leBytes 8 (fnv1a d.body).toNat) := by
  have hpayload : 32 ≤ d.payload.length := by
    simp only [payload, length_append, length_leBytes]
    omega
  have hbody : d.body.length = 8 + d.payload.length := by
    simp [body, SNAPSHOT_MAGIC]
    omega
  have hlen : d.bytes.length = d.body.length + 8 := by simp [bytes]
  have hmagic : d.bytes.take 4 = SNAPSHOT_MAGIC := rfl
  have hversion : (d.bytes.drop 4).take 4 = leBytes 4 SNAPSHOT_VERSION := rfl
  have hrest : d.bytes.drop 8 = d.payload ++ leBytes 8 (fnv1a d.body).toNat := rfl
  have htake : d.bytes.take (d.bytes.length - 8) = d.body := by
    rw [hlen, Nat.add_sub_cancel, bytes, take_left]
  have hdrop : d.bytes.drop (d.bytes.length - 8) = leBytes 8 (fnv1a d.body).toNat := by
    rw [hlen, Nat.add_sub_cancel, bytes, drop_left]
  unfold MatchingSnapshot.load
  simp only [hmagic, hversion, hrest, htake, hdrop, ofNat_leNat_leBytes_eight, ne_eq,
    not_true_eq_false, or_false, if_false]
  rw [if_neg (by omega), leNat_leBytes_of_lt (by decide), if_neg (by simp)]

/-- The halted instruments are read back if they are fewer than `2 ^ 32`. -/
theorem halted_of_load {d : SnapshotData} (hr : ∀ i ∈ d.halted, i < 2 ^ 32)
    (hhalted : d.halted.length < 2 ^ 32) {snap : MatchingSnapshot}
    (h : MatchingSnapshot.load d.bytes = some (.ok snap)) : snap.halted = d.halted := by
  rw [load_bytes_eq_parse] at h
  simp only [MatchingSnapshot.parse, payload, append_assoc, readLe_leBytes, bind_eq_bind,
    bind_some, SNAPSHOT_VERSION, Nat.le_refl, if_true,
    MatchingSnapshot.readCounted_counted hhalted
      fun i hi rest => readLe_leBytes_four (hr i hi) rest,
    bind_eq_some_iff, Option.pure_def] at h
  obtain ⟨_, -, _, -, _, -, engines, -, h⟩ := h
  cases engines with
  | error err => cases h
  | ok engines => rw [← Except.ok.inj (some.inj h)]

/-- **What is read back from a written file**: everything, with the engines cut to their
32-bit count, if the other counts fit. -/
theorem load_bytes {d : SnapshotData} (hr : d.InRange) (hlen : d.bytes.length < 2 ^ 63)
    (hhalted : d.halted.length < 2 ^ 32) (hsuspended : d.suspended.length < 2 ^ 32)
    (hpositions : d.positions.length < 2 ^ 32) :
    MatchingSnapshot.load d.bytes = some (.ok { d with
      engines := d.engines.take (d.engines.length % 2 ^ 32)
      formatVersion := SNAPSHOT_VERSION }) := by
  -- the engines beyond the count are read as if they were not there
  have hcut : counted EngineState.bytes d.engines ++ leBytes 8 (fnv1a d.body).toNat =
      leBytes 4 d.engines.length ++
        ((d.engines.take (d.engines.length % 2 ^ 32)).flatMap EngineState.bytes ++
          ((d.engines.drop (d.engines.length % 2 ^ 32)).flatMap EngineState.bytes ++
            leBytes 8 (fnv1a d.body).toNat)) := by
    rw [counted, append_assoc, ← append_assoc (List.flatMap _ _), ← flatMap_append,
      take_append_drop]
  have hsize :
      (d.engines.take (d.engines.length % 2 ^ 32)).length = d.engines.length % 256 ^ 4 := by
    rw [length_take]
    exact Nat.min_eq_left (Nat.mod_le _ _)
  have hfit : (counted EngineState.bytes d.engines ++ leBytes 8 (fnv1a d.body).toNat).length ≤
      d.bytes.length := by
    simp only [bytes, body, payload, length_append]
    omega
  rw [hcut, length_append, length_leBytes] at hfit
  have hengines := MatchingSnapshot.readEngines_flatMap hlen
    (fun e he => hr.engines e (mem_of_mem_take he))
    (by rw [length_append, length_leBytes]; omega) (Nat.le_of_add_left_le hfit)
  rw [hsize] at hengines
  rw [load_bytes_eq_parse]
  simp only [MatchingSnapshot.parse, payload, append_assoc, readLe_leBytes_eight hr.journalSeq,
    readLe_leBytes_eight hr.raftAppliedIndex, readLe_leBytes_eight hr.maxCmdId,
    readLe_leBytes_eight hr.maxAdminId, bind_eq_bind, bind_some, SNAPSHOT_VERSION,
    Nat.le_refl, if_true, MatchingSnapshot.readCounted_counted hhalted fun i hi rest =>
      readLe_leBytes_four (hr.halted i hi) rest,
    MatchingSnapshot.readCounted_counted hsuspended fun u hu rest =>
      readLe_leBytes_eight (hr.suspended u hu) rest,
    MatchingSnapshot.readCounted_counted hpositions fun e he rest =>
      MatchingSnapshot.readPosition_encodePosition (hr.positions e he).1 (hr.positions e he).2.1
        (hr.positions e he).2.2.1 (hr.positions e he).2.2.2 rest, Option.pure_def]
  rw [hcut, readLe_leBytes]
  simp only [bind_some, hengines]
  rfl

end SnapshotData

end TradeCore
