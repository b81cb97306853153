import TradeCore.Processor
import TradeCore.AppliedProofs
import TradeCore.Lib.Chunks
import TradeCore.Lib.OptionRel

/-!
# Wire Frames

The fixed frames of `wire.rs`: commands in 40 bytes, execution reports in 56. The journal
writes a command with `encodeCommand` and reads it back with `Frame.toCommand`, so that replay
goes through the decoder of live traffic.

A frame has more values than a command: unknown type bytes give no command, and the decoder
ignores the slots that a type does not use. What survives is the other direction: a **decoded
command is read back unchanged** from its own frame (`Frame.toCommand_encodeCommand`).

`fingerprintReports` hashes the frames of a report stream, and `verifyAppliedBatch` compares a
replay with the proof of an earlier run.

A Raft entry holds the frames of a batch. It is read back if their types are known
(`raft_entry_applies_iff`), which is not checked when it is written (`raft_entry_unreadable`).
-/

namespace TradeCore

/-! ### Command frames -/

namespace Frame

/-- A frame with its four leading bytes and its five slots. -/
def ofSlots (msgType side orderType tif : UInt8) (instrument orderId price qty user : ℕ) :
    Frame :=
  ⟨[msgType, side, orderType, tif] ++ leBytes 4 instrument ++ leBytes 8 orderId ++
    leBytes 8 price ++ leBytes 8 qty ++ leBytes 8 user, by simp [MSG_LEN]⟩

variable (f : Frame)

/-- The byte at a position. -/
def byteAt (off : ℕ) : UInt8 := f.val.getD off 0

/-- The 32-bit value at a position. -/
def u32At (off : ℕ) : ℕ := leNat ((f.val.drop off).take 4)

/-- The 64-bit value at a position. -/
def u64At (off : ℕ) : ℕ := leNat ((f.val.drop off).take 8)

/-- The message type. -/
def msgType : UInt8 := f.byteAt 0

/-- The instrument slot. -/
def instrument : ℕ := f.u32At 4

/-- The order id slot. -/
def orderId : ℕ := f.u64At 8

/-- The price slot. -/
def price : ℕ := f.u64At 16

/-- The quantity slot. -/
def qty : ℕ := f.u64At 24

/-- The user slot. -/
def user : ℕ := f.u64At 32

/-- The side byte. -/
def side : Side := if f.byteAt 1 = 0 then .buy else .sell

/-- The order type byte. -/
def orderType : OrderType := if f.byteAt 2 = 1 then .market else .limit

/-- The time-in-force byte. -/
def tif : TimeInForce :=
  if f.byteAt 3 = 1 then .ioc
  else if f.byteAt 3 = 2 then .fok
  else if f.byteAt 3 = 3 then .iocBudget
  else if f.byteAt 3 = 4 then .fokBudget
  else .gtc

/-- The order of a `New` frame. A market order takes its sentinel price, whatever the price
slot says. -/
def toOrder : Order :=
  let order :=
    match f.orderType with
    | .market => Order.market f.orderId f.side f.qty
    | .limit => Order.limit f.orderId f.side f.price f.qty
  { order with instrument := f.instrument, user := f.user, tif := f.tif }

/-- The command of a frame, if its type is known. -/
def toCommand : Option Command :=
  if f.msgType = 1 then some (.new f.toOrder)
  else if f.msgType = 2 then some (.cancel f.instrument f.orderId f.price)
  else if f.msgType = 3 then some (.modify f.instrument f.orderId f.price f.qty f.user)
  else if f.msgType = 4 then some (.forceClose f.instrument f.user f.orderId f.side f.qty)
  else if f.msgType = 5 then some (.halt f.instrument f.orderId)
  else if f.msgType = 6 then some (.resume f.instrument f.orderId)
  else if f.msgType = 7 then some (.haltUser f.instrument f.user f.orderId)
  else if f.msgType = 8 then some (.resumeUser f.instrument f.user f.orderId)
  else none

end Frame

/-- The byte of a side. -/
def Side.code : Side → UInt8
  | .buy => 0
  | .sell => 1

/-- The byte of an order type. -/
def OrderType.code : OrderType → UInt8
  | .limit => 0
  | .market => 1

/-- The byte of a time-in-force. -/
def TimeInForce.code : TimeInForce → UInt8
  | .gtc => 0
  | .ioc => 1
  | .fok => 2
  | .iocBudget => 3
  | .fokBudget => 4

/-- The frame of a new order. -/
def encodeNew (order : Order) : Frame :=
  Frame.ofSlots 1 order.side.code order.orderType.code order.tif.code order.instrument order.id
    order.price order.quantity order.user

/-- The frame of a cancel; the command id rides in the price slot. -/
def encodeCancel (instrument orderId cmdId : ℕ) : Frame :=
  Frame.ofSlots 2 0 0 0 instrument orderId cmdId 0 0

/-- The frame of an amendment; the command id rides in the user slot. -/
def encodeModify (instrument orderId newPrice newQty cmdId : ℕ) : Frame :=
  Frame.ofSlots 3 0 0 0 instrument orderId newPrice newQty cmdId

/-- The frame of a forced liquidation. -/
def encodeForceClose (instrument user closeOrderId : ℕ) (closeSide : Side) (closeQty : ℕ) :
    Frame :=
  Frame.ofSlots 4 closeSide.code 0 0 instrument closeOrderId 0 closeQty user

/-- The frame of a halt or a resumption; the command id rides in the order id slot. -/
def encodeAdmin (halt : Bool) (instrument cmdId : ℕ) : Frame :=
  Frame.ofSlots (if halt then 5 else 6) 0 0 0 instrument cmdId 0 0 0

/-- The frame of a suspension or its end. -/
def encodeUserAdmin (halt : Bool) (instrument user cmdId : ℕ) : Frame :=
  Frame.ofSlots (if halt then 7 else 8) 0 0 0 instrument cmdId 0 0 user

/-- The frame of a command. A batch has none and gives zeroes. -/
def encodeCommand : Command → Frame
  | .new order => encodeNew order
  | .cancel instrument orderId cmdId => encodeCancel instrument orderId cmdId
  | .modify instrument orderId newPrice newQty cmdId =>
    encodeModify instrument orderId newPrice newQty cmdId
  | .forceClose instrument user closeOrderId closeSide closeQty =>
    encodeForceClose instrument user closeOrderId closeSide closeQty
  | .halt instrument cmdId => encodeAdmin true instrument cmdId
  | .resume instrument cmdId => encodeAdmin false instrument cmdId
  | .haltUser instrument user cmdId => encodeUserAdmin true instrument user cmdId
  | .resumeUser instrument user cmdId => encodeUserAdmin false instrument user cmdId
  | .batch _ => Frame.ofSlots 0 0 0 0 0 0 0 0 0

/-! ### Reading a frame back -/

namespace Frame

section Slots

variable (t s o f : UInt8) (instrument orderId price qty user : ℕ)

@[simp] theorem msgType_ofSlots :
    (ofSlots t s o f instrument orderId price qty user).msgType = t := rfl

@[simp] theorem instrument_ofSlots :
    (ofSlots t s o f instrument orderId price qty user).instrument = instrument % 2 ^ 32 := by
  simp [Frame.instrument, u32At, ofSlots, leNat_leBytes]

@[simp] theorem orderId_ofSlots :
    (ofSlots t s o f instrument orderId price qty user).orderId = orderId % 2 ^ 64 := by
  simp [Frame.orderId, u64At, ofSlots, leNat_leBytes]

@[simp] theorem price_ofSlots :
    (ofSlots t s o f instrument orderId price qty user).price = price % 2 ^ 64 := by
  simp [Frame.price, u64At, ofSlots, List.drop_append, List.drop_eq_nil_of_le, leNat_leBytes]

@[simp] theorem qty_ofSlots :
    (ofSlots t s o f instrument orderId price qty user).qty = qty % 2 ^ 64 := by
  simp [Frame.qty, u64At, ofSlots, List.drop_append, List.drop_eq_nil_of_le, leNat_leBytes]

@[simp] theorem user_ofSlots :
    (ofSlots t s o f instrument orderId price qty user).user = user % 2 ^ 64 := by
  simp [Frame.user, u64At, ofSlots, List.drop_append, List.drop_eq_nil_of_le,
    List.take_of_length_le, leNat_leBytes]

@[simp] theorem side_ofSlots (side : Side) :
    (ofSlots t side.code o f instrument orderId price qty user).side = side := by
  cases side <;> rfl

@[simp] theorem orderType_ofSlots (orderType : OrderType) :
    (ofSlots t s orderType.code f instrument orderId price qty user).orderType = orderType := by
  cases orderType <;> rfl

@[simp] theorem tif_ofSlots (tif : TimeInForce) :
    (ofSlots t s o tif.code instrument orderId price qty user).tif = tif := by
  cases tif <;> rfl

end Slots

/-- A 32-bit slot. -/
theorem u32At_lt (f : Frame) (off : ℕ) : f.u32At off < 2 ^ 32 := by
  refine lt_of_lt_of_le (leNat_lt _) ?_
  calc 256 ^ ((f.val.drop off).take 4).length ≤ 256 ^ 4 :=
        Nat.pow_le_pow_right (by norm_num) (List.length_take_le _ _)
    _ = 2 ^ 32 := by norm_num

/-- A 64-bit slot. -/
theorem u64At_lt (f : Frame) (off : ℕ) : f.u64At off < 2 ^ 64 := by
  refine lt_of_lt_of_le (leNat_lt _) ?_
  calc 256 ^ ((f.val.drop off).take 8).length ≤ 256 ^ 8 :=
        Nat.pow_le_pow_right (by norm_num) (List.length_take_le _ _)
    _ = 2 ^ 64 := by norm_num

end Frame

mutual

/-- The fields of a command are values of the source's machine integers. -/
def Command.InRange : Command → Prop
  | .new order => order.InRange
  | .cancel instrument orderId cmdId => instrument < 2 ^ 32 ∧ orderId < 2 ^ 64 ∧ cmdId < 2 ^ 64
  | .modify instrument orderId newPrice newQty cmdId =>
    instrument < 2 ^ 32 ∧ orderId < 2 ^ 64 ∧ newPrice < 2 ^ 64 ∧ newQty < 2 ^ 64 ∧
      cmdId < 2 ^ 64
  | .forceClose instrument user closeOrderId _ closeQty =>
    instrument < 2 ^ 32 ∧ user < 2 ^ 64 ∧ closeOrderId < 2 ^ 64 ∧ closeQty < 2 ^ 64
  | .halt instrument cmdId | .resume instrument cmdId => instrument < 2 ^ 32 ∧ cmdId < 2 ^ 64
  | .haltUser instrument user cmdId | .resumeUser instrument user cmdId =>
    instrument < 2 ^ 32 ∧ user < 2 ^ 64 ∧ cmdId < 2 ^ 64
  | .batch commands => Command.AllInRange commands

/-- The fields of the commands of a group are values of the source's machine integers. -/
def Command.AllInRange : List Command → Prop
  | [] => True
  | c :: commands => c.InRange ∧ Command.AllInRange commands

end

/-- The price that a market order is built with. -/
def Side.marketPrice : Side → ℕ
  | .buy => priceMax
  | .sell => 0

/-- The order that is read back from the frame of an order. -/
def Order.rebuilt (o : Order) : Order :=
  { o with
    price := if o.orderType = .market then o.side.marketPrice else o.price
    remaining := o.quantity
    timestamp := 0 }

/-- The command that is read back from the frame of a command. -/
def Command.rebuilt : Command → Command
  | .new order => .new order.rebuilt
  | cmd => cmd

/-- A command that travels on the wire. -/
def Command.OnWire (cmd : Command) : Prop := ∃ f : Frame, f.toCommand = some cmd

namespace Frame

/-- The order of a frame is in range. -/
theorem inRange_toOrder (f : Frame) : f.toOrder.InRange := by
  have h := fun off => f.u64At_lt off
  unfold toOrder
  cases f.orderType with
  | limit => exact ⟨h 8, f.u32At_lt 4, h 32, h 16, h 24, h 24, by norm_num [Order.limit]⟩
  | market =>
    refine ⟨h 8, f.u32At_lt 4, h 32, ?_, h 24, h 24, by norm_num [Order.market]⟩
    cases f.side <;> norm_num [Order.market, priceMax]

/-- A decoded command is in range. -/
theorem inRange_of_toCommand {f : Frame} {cmd : Command} (h : f.toCommand = some cmd) :
    cmd.InRange := by
  have h₆ := fun off => f.u64At_lt off
  have h₃ := fun off => f.u32At_lt off
  unfold toCommand at h
  split_ifs at h <;> cases h
  · exact f.inRange_toOrder
  · exact ⟨h₃ 4, h₆ 8, h₆ 16⟩
  · exact ⟨h₃ 4, h₆ 8, h₆ 16, h₆ 24, h₆ 32⟩
  · exact ⟨h₃ 4, h₆ 32, h₆ 8, h₆ 24⟩
  · exact ⟨h₃ 4, h₆ 8⟩
  · exact ⟨h₃ 4, h₆ 8⟩
  · exact ⟨h₃ 4, h₆ 32, h₆ 8⟩
  · exact ⟨h₃ 4, h₆ 32, h₆ 8⟩

/-- A decoded command is a single one. -/
theorem single_of_toCommand {f : Frame} {cmd : Command} (h : f.toCommand = some cmd) :
    cmd.Single := by
  unfold toCommand at h
  split_ifs at h <;> cases h <;> trivial

theorem toOrder_encode {order : Order} (hr : order.InRange) :
    (encodeNew order).toOrder = order.rebuilt := by
  have hid : (encodeNew order).orderId = order.id := by
    rw [encodeNew, orderId_ofSlots, Nat.mod_eq_of_lt hr.id]
  have hprice : (encodeNew order).price = order.price := by
    rw [encodeNew, price_ofSlots, Nat.mod_eq_of_lt hr.price]
  have hqty : (encodeNew order).qty = order.quantity := by
    rw [encodeNew, qty_ofSlots, Nat.mod_eq_of_lt hr.quantity]
  have hinstrument : (encodeNew order).instrument = order.instrument := by
    rw [encodeNew, instrument_ofSlots, Nat.mod_eq_of_lt hr.instrument]
  have huser : (encodeNew order).user = order.user := by
    rw [encodeNew, user_ofSlots, Nat.mod_eq_of_lt hr.user]
  have hside : (encodeNew order).side = order.side := by rw [encodeNew, side_ofSlots]
  have htype : (encodeNew order).orderType = order.orderType := by
    rw [encodeNew, orderType_ofSlots]
  have htif : (encodeNew order).tif = order.tif := by rw [encodeNew, tif_ofSlots]
  rw [toOrder, htype, hid, hprice, hqty, hinstrument, huser, hside, htif]
  obtain ⟨id, instrument, user, side, orderType, tif, price, quantity, remaining, timestamp⟩ :=
    order
  cases orderType <;> cases side <;> rfl

/-- **What is read back** from the frame of a single command. -/
theorem toCommand_encode {cmd : Command} (hs : cmd.Single) (hr : cmd.InRange) :
    (encodeCommand cmd).toCommand = some cmd.rebuilt := by
  cases cmd with
  | new order =>
    rw [encodeCommand, toCommand, encodeNew, msgType_ofSlots, if_pos rfl]
    exact congrArg (some ∘ Command.new) (toOrder_encode hr)
  | cancel instrument orderId cmdId =>
    simpa [encodeCommand, encodeCancel, toCommand, Command.InRange, Command.rebuilt] using hr
  | modify instrument orderId newPrice newQty cmdId =>
    simpa [encodeCommand, encodeModify, toCommand, Command.InRange, Command.rebuilt] using hr
  | forceClose instrument user closeOrderId closeSide closeQty =>
    simpa [encodeCommand, encodeForceClose, toCommand, Command.InRange, Command.rebuilt] using hr
  | halt instrument cmdId | resume instrument cmdId =>
    simpa [encodeCommand, encodeAdmin, toCommand, Command.InRange, Command.rebuilt] using hr
  | haltUser instrument user cmdId | resumeUser instrument user cmdId =>
    simpa [encodeCommand, encodeUserAdmin, toCommand, Command.InRange, Command.rebuilt] using hr
  | batch cmds => exact hs.elim

/-- **A decoded command is read back unchanged** from the frame the journal writes. -/
theorem toCommand_encodeCommand {cmd : Command} (h : cmd.OnWire) :
    (encodeCommand cmd).toCommand = some cmd := by
  obtain ⟨f, hf⟩ := h
  rw [toCommand_encode (single_of_toCommand hf) (inRange_of_toCommand hf)]
  cases cmd with
  | new order =>
    obtain rfl : order = f.toOrder := by
      unfold toCommand at hf
      split_ifs at hf <;> cases hf
      rfl
    have hsame : f.toOrder.rebuilt = f.toOrder := by
      unfold toOrder
      cases f.orderType with
      | limit => rfl
      | market => cases f.side <;> rfl
    rw [Command.rebuilt, hsame]
  | _ => rfl

end Frame

/-! ### Report frames -/

/-- A report frame with its type, side and slots. -/
def reportFrame (type side : UInt8) (instrument orderId aux price qty makerFee takerFee : ℕ) :
    List UInt8 :=
  [type, side, 0, 0] ++ leBytes 4 instrument ++ leBytes 8 orderId ++ leBytes 8 aux ++
    leBytes 8 price ++ leBytes 8 qty ++ leBytes 8 makerFee ++ leBytes 8 takerFee

/-- The frame of a report. The reason of a rejection stays behind. -/
def encodeReport : ExecReport → List UInt8
  | .accepted instrument orderId => reportFrame 1 0 instrument orderId 0 0 0 0 0
  | .trade instrument taker maker aggressor price qty makerFee takerFee =>
    reportFrame 2 aggressor.code instrument taker maker price qty makerFee takerFee
  | .filled instrument orderId => reportFrame 3 0 instrument orderId 0 0 0 0 0
  | .partiallyFilled instrument orderId filled =>
    reportFrame 4 0 instrument orderId 0 0 filled 0 0
  | .resting instrument orderId => reportFrame 5 0 instrument orderId 0 0 0 0 0
  | .cancelled instrument orderId => reportFrame 6 0 instrument orderId 0 0 0 0 0
  | .rejected instrument orderId _ => reportFrame 7 0 instrument orderId 0 0 0 0 0
  | .modified instrument orderId remaining => reportFrame 8 0 instrument orderId 0 0 remaining 0 0
  | .notFound instrument orderId => reportFrame 9 0 instrument orderId 0 0 0 0 0
  | .depthLevel instrument side level price qty =>
    reportFrame 10 side.code instrument 0 level.toNat price qty 0 0
  | .depthEnd instrument bidLevels askLevels =>
    reportFrame 11 0 instrument 0 (bidLevels.toNat + 256 * askLevels.toNat) 0 0 0 0
  | .halted instrument => reportFrame 12 0 instrument 0 0 0 0 0 0
  | .resumed instrument => reportFrame 13 0 instrument 0 0 0 0 0 0
  | .userHalted instrument user => reportFrame 14 0 instrument 0 user 0 0 0 0
  | .userResumed instrument user => reportFrame 15 0 instrument 0 user 0 0 0 0

/-- FNV-1a over the frames of a report stream. -/
def fingerprintReports (reports : List ExecReport) : UInt64 :=
  fnv1a (reports.flatMap encodeReport)

/-- The proof of a batch that emitted the given reports. -/
def AppliedBatchProof.ofReports (raftIndex : UInt64) (reports : List ExecReport) :
    AppliedBatchProof where
  raftIndex := raftIndex
  reportCount := UInt32.ofNat reports.length
  reportFingerprint := fingerprintReports reports

/-- A fingerprint as the error text prints it: `0x` and sixteen hexadecimal digits. -/
def showFingerprint (x : UInt64) : String :=
  "0x" ++ String.ofList ((Nat.toDigits 16 x.toNat).leftpad 16 '0')

/-- Compare a replay with the proof of the first run. -/
def verifyAppliedBatch (proof : AppliedBatchProof) (reportCount : UInt32)
    (reportFingerprint : UInt64) : Except IoError Unit :=
  if proof.reportCount ≠ reportCount ∨ proof.reportFingerprint ≠ reportFingerprint then
    .error (.invalidData ("Raft replay mismatch at index " ++ toString proof.raftIndex ++
      ": expected count=" ++ toString proof.reportCount ++
      " fingerprint=" ++ showFingerprint proof.reportFingerprint ++
      ", got count=" ++ toString reportCount ++
      " fingerprint=" ++ showFingerprint reportFingerprint))
  else .ok ()

/-- A replay with the same reports passes. -/
theorem verifyAppliedBatch_ofReports (raftIndex : UInt64) (reports : List ExecReport) :
    verifyAppliedBatch (.ofReports raftIndex reports) (UInt32.ofNat reports.length)
      (fingerprintReports reports) = .ok () := by
  simp [verifyAppliedBatch, AppliedBatchProof.ofReports]

section RaftEntries

open List Option

/-! ### Raft entries -/

/-- The commands that a Raft entry may hold. -/
def RAFT_BATCH_MAX_COMMANDS : ℕ := 10000

def RAFT_BATCH_HEADER_LEN : ℕ := 12

/-- `RB01`. -/
def RAFT_BATCH_MAGIC : List UInt8 := [82, 66, 48, 49]

/-- Frames as one Raft entry. They are parsed first, which asks for their length only. -/
def encodeRaftBatch (frames : List Frame) : Option (List UInt8) :=
  if frames = [] ∨ RAFT_BATCH_MAX_COMMANDS < frames.length then none
  else some (RAFT_BATCH_MAGIC ++ leBytes 4 1 ++ leBytes 4 frames.length ++
    (frames.map Subtype.val).flatten)

/-- The command of 40 bytes. -/
def decodeFrame (bytes : List UInt8) : Option Command :=
  if h : bytes.length = MSG_LEN then Frame.toCommand ⟨bytes, h⟩ else none

/-- The commands of a Raft entry: a batch, or a single frame as in older entries. -/
def decodeRaftEntry (payload : List UInt8) : Option (List Command) :=
  if payload.length = MSG_LEN then (decodeFrame payload).map fun cmd => [cmd]
  else if payload.length < RAFT_BATCH_HEADER_LEN ∨ payload.take 4 ≠ RAFT_BATCH_MAGIC then none
  else
    let version := leNat ((payload.drop 4).take 4)
    let count := leNat ((payload.drop 8).take 4)
    if version ≠ 1 ∨ count = 0 ∨ RAFT_BATCH_MAX_COMMANDS < count ∨
        payload.length ≠ RAFT_BATCH_HEADER_LEN + count * MSG_LEN then none
    else (chunks MSG_LEN (payload.drop RAFT_BATCH_HEADER_LEN)).mapM decodeFrame

/-- The types of the frames that stand for commands. -/
theorem Frame.toCommand_eq_none (f : Frame) :
    f.toCommand = none ↔ f.msgType ∉ [1, 2, 3, 4, 5, 6, 7, 8] := by
  unfold Frame.toCommand
  simp only [mem_cons, not_mem_nil, or_false, not_or]
  split_ifs <;> simp [*]

/-- **A batch is read back frame by frame.** -/
theorem decodeRaftEntry_encode {frames : List Frame} {e : List UInt8}
    (h : encodeRaftBatch frames = some e) :
    e.length ≠ MSG_LEN ∧ decodeRaftEntry e = frames.mapM Frame.toCommand := by
  rw [encodeRaftBatch] at h
  split at h
  · cases h
  · rename_i hbounds
    obtain ⟨hne, hle⟩ := not_or.mp hbounds
    have hall : ∀ c ∈ frames.map Subtype.val, c.length = MSG_LEN := by
      intro c hc
      obtain ⟨f, -, rfl⟩ := List.mem_map.mp hc
      exact f.2
    have hflat : (frames.map Subtype.val).flatten.length = frames.length * MSG_LEN := by
      rw [length_flatten, map_congr_left hall, map_const', sum_replicate, length_map, smul_eq_mul]
    have hchunks := @chunks_flatten MSG_LEN _ hall [] (by decide)
    rw [append_nil] at hchunks
    generalize (frames.map Subtype.val).flatten = body at h hflat hchunks
    obtain rfl := some.inj h
    have hheader : (RAFT_BATCH_MAGIC ++ leBytes 4 1 ++ leBytes 4 frames.length).length =
        RAFT_BATCH_HEADER_LEN := by simp [RAFT_BATCH_MAGIC, RAFT_BATCH_HEADER_LEN]
    have hlen := length_append.trans (congrArg₂ (· + ·) hheader hflat)
    have hlegacy : RAFT_BATCH_HEADER_LEN + frames.length * MSG_LEN ≠ MSG_LEN := by
      have := length_pos_iff.mpr hne
      simp only [RAFT_BATCH_HEADER_LEN, MSG_LEN]
      omega
    have hcount : leNat (leBytes 4 frames.length) = frames.length :=
      leNat_leBytes_of_lt (lt_of_le_of_lt (Nat.le_of_not_lt hle) (by decide))
    refine ⟨hlen ▸ hlegacy, ?_⟩
    rw [decodeRaftEntry, hlen, if_neg hlegacy, if_neg, if_neg, drop_left' hheader, hchunks,
      mapM_map]
    · exact congrArg (frames.mapM ·) (funext fun f => dif_pos f.2)
    · simpa [drop_append, RAFT_BATCH_MAGIC, hcount, show leNat (leBytes 4 1) = 1 by decide] using
        ⟨hne, Nat.le_of_not_lt hle⟩
    · simp [RAFT_BATCH_MAGIC]

/-- **A Raft entry can be applied** just if every frame of it has a known type: then it is read back
as the commands of the frames. An entry of a single frame is read back as its command, and it is no
batch. -/
theorem raft_entry_applies_iff (frames : List Frame) (e : List UInt8)
    (h : encodeRaftBatch frames = some e) :
    ((∃ cmds, decodeRaftEntry e = some cmds ∧ frames.map Frame.toCommand = cmds.map some) ∧
      ∀ cmd : Command, cmd.Single → cmd.InRange → (encodeCommand cmd).val ≠ e ∧
        decodeRaftEntry (encodeCommand cmd).val = some [cmd.rebuilt]) ↔
      ∀ f ∈ frames, f.msgType ∈ [1, 2, 3, 4, 5, 6, 7, 8] := by
  obtain ⟨hlen, hdecode⟩ := decodeRaftEntry_encode h
  have hlegacy : ∀ cmd : Command, cmd.Single → cmd.InRange → (encodeCommand cmd).val ≠ e ∧
      decodeRaftEntry (encodeCommand cmd).val = some [cmd.rebuilt] := by
    intro cmd hs hr
    refine ⟨fun heq => hlen (heq ▸ (encodeCommand cmd).2), ?_⟩
    rw [decodeRaftEntry, if_pos (encodeCommand cmd).2, decodeFrame, dif_pos (encodeCommand cmd).2,
      Frame.toCommand_encode hs hr, map_some]
  have hknown : ∀ f : Frame, f.msgType ∈ [1, 2, 3, 4, 5, 6, 7, 8] ↔ f.toCommand ≠ none := fun f =>
    (not_iff_comm.mp f.toCommand_eq_none.symm).symm
  simp only [hknown, hdecode, mapM_eq_some, and_self]
  constructor
  · rintro ⟨⟨cmds, hcmds⟩, -⟩ f hf hnone
    have hmem : none ∈ cmds.map some := hcmds ▸ List.mem_map.mpr ⟨f, hf, hnone⟩
    simp at hmem
  · intro hall
    refine ⟨⟨frames.map fun f => f.toCommand.getD (.halt 0 0), ?_⟩, hlegacy⟩
    rw [List.map_map]
    refine map_congr_left fun f hf => ?_
    obtain ⟨cmd, hcmd⟩ := ne_none_iff_exists'.mp (hall f hf)
    rw [Function.comp_apply, hcmd, getD_some]

/-- Two frames, read back from one entry. -/
theorem raft_entry_applies_iff_two : ∃ e cmds,
    encodeRaftBatch [encodeCommand (.halt 1 7), encodeCommand (.resume 1 8)] = some e ∧
      decodeRaftEntry e = some cmds ∧ cmds.length = 2 := by
  obtain ⟨⟨cmds, hdecode, hcmds⟩, -⟩ := (raft_entry_applies_iff
    [encodeCommand (.halt 1 7), encodeCommand (.resume 1 8)] _ rfl).mpr (by decide)
  exact ⟨_, cmds, rfl, hdecode, by simpa using (congrArg length hcmds).symm⟩

/-- A frame of zeros is encoded, and the entry is not decoded. -/
theorem raft_entry_unreadable : ∃ e,
    encodeRaftBatch [encodeCommand (.batch [])] = some e ∧ decodeRaftEntry e = none :=
  ⟨_, rfl, by decide⟩

end RaftEntries

end TradeCore
