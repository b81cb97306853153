import TradeCore.Snapshot

/-!
# Decoding Untrusted Snapshots

A node installs snapshots that a peer sends (`install_bytes`): it decodes the bytes and puts them
in place of its own snapshot if they carry the expected index. The decoder checks the frame (size,
magic, checksum, version) and the end of every engine, but neither the four numbers of the header
nor the three lists behind it, and it reserves the vectors that the counts announce before it
reads them. Lists that reach into the checksum are read from there.

The places of the file are given by their offsets: `haltedAt`, `suspendedAt`, `positionsAt` and
`enginesAt` are those of the four counts, and `engineEnd` that of the end of an engine.

## Main results

* `MatchingSnapshot.load_total_iff` — for which files `load` returns and reserves no more than the
  file accounts for, what an installation may replace, and when the node survives it.
* `MatchingSnapshot.announced_lists_unchecked` — files for which it does not.
-/

open List
open Option hiding guard

namespace TradeCore

namespace MatchingSnapshot

/-! ### The layout of a file -/

variable (b : List UInt8)

/-- The checks of the frame: size, magic, checksum and version. -/
def Framed : Prop :=
  28 ≤ b.length ∧ b.take 4 = SNAPSHOT_MAGIC ∧
    fnv1a (b.take (b.length - 8)) = UInt64.ofNat (leNat (b.drop (b.length - 8))) ∧
    (leAt b 4 4 = SNAPSHOT_VERSION ∨ leAt b 4 4 = LEGACY_VERSION)

instance (b : List UInt8) : Decidable (Framed b) :=
  inferInstanceAs (Decidable (_ ∧ _ ∧ _ ∧ _))

/-- The count of the halted instruments. The old version has no applied index before it. -/
@[irreducible] def haltedAt : ℕ := if 4 ≤ leAt b 4 4 then 40 else 32

/-- The count of the suspended users. -/
@[irreducible] def suspendedAt : ℕ := haltedAt b + 4 + 4 * leAt b (haltedAt b) 4

/-- The count of the positions. -/
@[irreducible] def positionsAt : ℕ :=
  suspendedAt b + 4 + 8 * leAt b (suspendedAt b) 4

/-- The count of the engines. -/
@[irreducible] def enginesAt : ℕ :=
  positionsAt b + 4 + 20 * leAt b (positionsAt b) 4

@[irreducible] def engineCount : ℕ := leAt b (enginesAt b) 4

/-- The size of the orders that an engine header announces. -/
@[irreducible] def ordersSize (pos : ℕ) : ℕ := ORDER_ENC * leAt b (pos + 12) 8

/-- The end of an engine: behind its header and its orders. -/
@[irreducible] def engineEnd (pos : ℕ) : ℕ := pos + 20 + ordersSize b pos

/-- A number of engines lie before the checksum. -/
def EnginesInside (b : List UInt8) : ℕ → ℕ → Prop
  | 0, _ => True
  | k + 1, pos => engineEnd b pos + 8 ≤ b.length ∧ EnginesInside b k (engineEnd b pos)

/-- No engine header that the decoder reaches announces orders that no vector can hold but whose
end, modulo `2 ^ 64`, lies before the checksum. -/
def OrderCountsFit (b : List UInt8) : ℕ → ℕ → Prop
  | 0, _ => True
  | k + 1, pos => pos + 20 + 8 ≤ b.length →
      (2 ^ 63 ≤ ordersSize b pos → b.length < engineEnd b pos % 2 ^ 64 + 8) ∧
      (engineEnd b pos + 8 ≤ b.length → OrderCountsFit b k (engineEnd b pos))

/-- What the decoder does not check of a file that passed the frame: the lists before the engines
lie inside the file, as many engine headers as announced would, and no order count wraps. -/
def Announced : Prop :=
  enginesAt b + 4 ≤ b.length ∧ 20 * engineCount b ≤ b.length ∧
    OrderCountsFit b (engineCount b) (enginesAt b + 4)

/-- A file of the current version with a given index and with everything that it announces
before the checksum. -/
def Complete (expectedIndex : ℕ) : Prop :=
  Framed b ∧ leAt b 4 4 = SNAPSHOT_VERSION ∧ leAt b 16 8 = expectedIndex ∧
    enginesAt b + 4 + 8 ≤ b.length ∧ EnginesInside b (engineCount b) (enginesAt b + 4)

/-- A file whose lists reach into the checksum, where the number of its engines reads as zero. -/
def Overlapping (expectedIndex : ℕ) : Prop :=
  Framed b ∧ leAt b 4 4 = SNAPSHOT_VERSION ∧ leAt b 16 8 = expectedIndex ∧
    (enginesAt b + 4 ≤ b.length ∧ b.length < enginesAt b + 4 + 8) ∧ engineCount b = 0

instance (b : List UInt8) (expectedIndex : ℕ) : Decidable (Overlapping b expectedIndex) :=
  inferInstanceAs (Decidable (_ ∧ _ ∧ _ ∧ _ ∧ _))

/-! ### Reservations and installations -/

/-- The vectors that are reserved for the orders of the engines, in bytes. -/
def engineReservations (b : List UInt8) : ℕ → ℕ → List ℕ
  | 0, _ => []
  | k + 1, pos =>
    if b.length < pos + 20 + 8 then []
    else if b.length < engineEnd b pos % 2 ^ 64 + 8 then []
    else if 2 ^ 63 ≤ ordersSize b pos then []
    else ordersSize b pos :: engineReservations b k (engineEnd b pos)

/-- The sizes in bytes of the vectors that `load` reserves, in their order, until it returns or
aborts. In memory a position takes 24 bytes, an engine 40 and an order 56. -/
def reservations : List ℕ :=
  if ¬ Framed b ∨ b.length < haltedAt b + 4 then []
  else 4 * leAt b (haltedAt b) 4 ::
    if b.length < suspendedAt b + 4 then []
    else 8 * leAt b (suspendedAt b) 4 ::
      if b.length < positionsAt b + 4 then []
      else 24 * leAt b (positionsAt b) 4 ::
        if b.length < enginesAt b + 4 then []
        else 40 * engineCount b :: engineReservations b (engineCount b) (enginesAt b + 4)

end MatchingSnapshot

/-- The snapshot file, and the file that an installation writes first. -/
structure SnapshotFiles where
  target : Option (List UInt8)
  installing : Option (List UInt8)
deriving DecidableEq, Repr

namespace SnapshotFiles

/-- Install a snapshot that was received, unless it cannot be decoded or has another index. What
could not be decoded stays in the file `installing`. An abort is `none`. -/
def installBytes (files : SnapshotFiles) (bytes : List UInt8) (expectedIndex : ℕ) :
    Option (Except IoError Unit) × SnapshotFiles :=
  match MatchingSnapshot.load bytes with
  | none => (none, { files with installing := some bytes })
  | some (.error err) => (some (.error err), { files with installing := some bytes })
  | some (.ok decoded) =>
    if decoded.formatVersion < 4 ∨ decoded.raftAppliedIndex ≠ expectedIndex then
      (some (.error (.invalidData ("matching snapshot index " ++
          toString decoded.raftAppliedIndex ++ " does not match Raft snapshot index " ++
          toString expectedIndex))),
        { files with installing := none })
    else (some (.ok ()), ⟨some bytes, none⟩)

/-- The node installs a snapshot that it received through Raft, and aborts if that fails. -/
def installReceived (files : SnapshotFiles) (bytes : List UInt8) (index : ℕ) :
    Option SnapshotFiles :=
  match files.installBytes bytes index with
  | (some (.ok ()), files) => some files
  | _ => none

end SnapshotFiles

namespace MatchingSnapshot

/-! ### Reading at an offset -/

/-- The counts follow each other. -/
theorem offsets_le (b : List UInt8) : haltedAt b + 4 ≤ suspendedAt b ∧
    suspendedAt b + 4 ≤ positionsAt b ∧ positionsAt b + 4 ≤ enginesAt b := by
  rw [enginesAt, positionsAt, suspendedAt]
  omega

section Offsets

variable {b : List UInt8} {k pos : ℕ}

/-- A number is read where the file reaches far enough. -/
theorem readLe_drop (hk : 0 < k) : readLe k (b.drop pos) =
    if pos + k ≤ b.length then some (leAt b pos k, b.drop (pos + k)) else none := by
  rw [readLe]
  split
  · rw [readExact, if_pos (by rw [length_drop]; omega), map_some, leAt, drop_drop]
  · rw [readExact_of_lt (by rw [length_drop]; omega), map_none]

variable {α : Type} {read : List UInt8 → Option (α × List UInt8)} {w next : ℕ}

/-- So is a counted list. -/
theorem readCounted_drop (hread : FixedWidth read w) (hnext : next = pos + 4 + w * leAt b pos 4) :
    ∃ xs, readCounted read (b.drop pos) =
      if next ≤ b.length then some (xs, b.drop next) else none := by
  have hitems := hread.readItems (leAt b pos 4)
  rw [readCounted, readLe_drop (by decide)]
  rcases lt_or_ge b.length next with hlt | hge
  · refine ⟨[], ?_⟩
    rw [if_neg (not_le.mpr hlt)]
    split
    · exact hitems.eq_none (b.drop (pos + 4)) (by rw [length_drop]; omega)
    · rfl
  · obtain ⟨xs, hxs⟩ := hitems.exists_eq_some (b.drop (pos + 4)) (by rw [length_drop]; omega)
    refine ⟨xs, ?_⟩
    rw [if_pos hge, if_pos (by omega), hnext]
    exact hxs.trans (by rw [drop_drop])

theorem fixedWidth_readLe (k : ℕ) : FixedWidth (readLe k) k := FixedWidth.of_readExact k leNat

theorem fixedWidth_readPosition : FixedWidth readPosition 20 :=
  (fixedWidth_readLe 8).bind fun user => (fixedWidth_readLe 4).bind fun instrument =>
    (fixedWidth_readLe 8).bind fun qty =>
      FixedWidth.pure (user, instrument, Int.bmod qty (2 ^ 64))

theorem fixedWidth_readOrder : FixedWidth readOrder ORDER_ENC :=
  FixedWidth.of_readExact ORDER_ENC decodeOrder

end Offsets

/-! ### The stages of the decoder -/

section Stages

variable {b : List UInt8}

theorem load_of_not_framed (h : ¬ Framed b) : ∃ err, load b = some (.error err) := by
  simp only [load]
  split
  · exact ⟨_, rfl⟩
  split
  · exact ⟨_, rfl⟩
  split
  · exact ⟨_, rfl⟩
  rename_i hframe hsum hversion
  obtain ⟨hlen, hmagic⟩ := not_or.mp hframe
  refine absurd ⟨not_lt.mp hlen, not_not.mp hmagic, not_not.mp hsum, ?_⟩ h
  exact or_iff_not_and_not.mpr hversion

theorem bind_ite_none {α β : Type} {p : Prop} [Decidable p] {x : Option α} {f : α → Option β} :
    (if p then x else none).bind f = if p then x.bind f else none := by
  split <;> rfl

/-- **A file that passed the frame** is cut off before its engines, or they decide. -/
theorem exists_load (hframed : Framed b) :
    ∃ snap : List EngineState → MatchingSnapshot,
      (∀ engines, (snap engines).formatVersion = leAt b 4 4 ∧
        (4 ≤ leAt b 4 4 → (snap engines).raftAppliedIndex = leAt b 16 8)) ∧
      load b = if enginesAt b + 4 ≤ b.length then
        (readEngines b.length (engineCount b) (b.drop (enginesAt b + 4))).map (Except.map snap)
      else none := by
  obtain ⟨hlen, hmagic, hsum, hversion⟩ := hframed
  obtain ⟨hhalted, hsuspended, hpositions⟩ := offsets_le b
  -- the applied index is the only part that depends on the version
  obtain ⟨pos, index, hpos, hcase⟩ : ∃ pos index, pos + 16 = haltedAt b ∧
      (4 ≤ leAt b 4 4 ∧ pos = 24 ∧ index = leAt b 16 8 ∨
        ¬ 4 ≤ leAt b 4 4 ∧ pos = 16 ∧ index = 0) := by
    by_cases hnew : 4 ≤ leAt b 4 4
    · exact ⟨24, leAt b 16 8, by rw [haltedAt, if_pos hnew], .inl ⟨hnew, rfl, rfl⟩⟩
    · exact ⟨16, 0, by rw [haltedAt, if_neg hnew], .inr ⟨hnew, rfl, rfl⟩⟩
  have hseq : readLe 8 (b.drop 8) = some (leAt b 8 8, b.drop 16) := by
    rw [readLe_drop (by decide), if_pos (by omega)]
  have happlied := @readLe_drop b 8 16 (by decide)
  have hcmd := @readLe_drop b 8 pos (by decide)
  have hadmin := @readLe_drop b 8 (pos + 8) (by decide)
  have hcount := @readLe_drop b 4 (enginesAt b) (by decide)
  rw [add_assoc, hpos] at hadmin
  rw [← engineCount] at hcount
  obtain ⟨halted, hhalt⟩ := readCounted_drop (fixedWidth_readLe 4) (suspendedAt.eq_1 b)
  obtain ⟨suspended, hsusp⟩ := readCounted_drop (fixedWidth_readLe 8) (positionsAt.eq_1 b)
  obtain ⟨positions, hposs⟩ := readCounted_drop fixedWidth_readPosition (enginesAt.eq_1 b)
  refine ⟨fun engines =>
    { journalSeq := leAt b 8 8, raftAppliedIndex := index, maxCmdId := leAt b pos 8
      maxAdminId := leAt b (pos + 8) 8, halted := halted, suspended := suspended
      positions := positions, engines := engines, formatVersion := leAt b 4 4 },
    fun engines => ⟨rfl, fun hnew => ?_⟩, ?_⟩
  · rcases hcase with ⟨-, -, h⟩ | ⟨hold, -⟩
    · exact h
    · exact absurd hnew hold
  simp only [load]
  rw [if_neg (not_or.mpr ⟨not_lt.mpr hlen, not_not_intro hmagic⟩), if_neg (not_not_intro hsum),
    if_neg fun hbad => hversion.elim hbad.1 hbad.2]
  change parse b.length (leAt b 4 4) (b.drop 8) = _
  rcases hcase with ⟨hnew, rfl, rfl⟩ | ⟨hnew, rfl, rfl⟩ <;>
  · simp only [parse, bind_eq_bind, hseq, hnew, if_true, if_false, happlied, hcmd, hadmin, hhalt,
      hsusp, hposs, hcount, bind_ite_none, bind_some, map_eq_bind]
    split_ifs <;> first | rfl | (exfalso; omega)

theorem guard_eq_some {p : Prop} [Decidable p] (h : p) : (guard p : Option Unit) = some () := by
  simp [guard, h]

theorem guard_eq_none {p : Prop} [Decidable p] (h : ¬ p) : (guard p : Option Unit) = none := by
  simp [guard, h]

section

variable (hb : b.length < 2 ^ 63)
include hb

/-- **One engine of a file**: its header is cut off, its orders are, they cannot be reserved, or
it lies inside the file and the next engine follows. -/
theorem readEngines_succ (k pos : ℕ) :
    b.length < pos + 20 + 8 ∧
        (∃ err, readEngines b.length (k + 1) (b.drop pos) = some (.error err)) ∨
      pos + 20 + 8 ≤ b.length ∧ b.length < engineEnd b pos % 2 ^ 64 + 8 ∧
        (∃ err, readEngines b.length (k + 1) (b.drop pos) = some (.error err)) ∨
      pos + 20 + 8 ≤ b.length ∧ engineEnd b pos % 2 ^ 64 + 8 ≤ b.length ∧
        2 ^ 63 ≤ ordersSize b pos ∧ readEngines b.length (k + 1) (b.drop pos) = none ∨
      engineEnd b pos + 8 ≤ b.length ∧ ∃ e, readEngines b.length (k + 1) (b.drop pos) =
        (readEngines b.length k (b.drop (engineEnd b pos))).map (Except.map (e :: ·)) := by
  rcases lt_or_ge b.length (pos + 20 + 8) with hshort | hheader
  · refine .inl ⟨hshort, _, if_pos ?_⟩
    rw [length_drop]
    omega
  have hlen : b.length - (b.drop (pos + 20)).length = pos + 20 := by
    rw [length_drop]
    omega
  have hsize : leAt b (pos + 12) 8 * ORDER_ENC = ordersSize b pos := by
    rw [ordersSize, mul_comm]
  have hread : readEngines b.length (k + 1) (b.drop pos) =
      if b.length - 8 < engineEnd b pos % 2 ^ 64 then
        some (.error (.invalidData "truncated orders"))
      else (guard (ordersSize b pos < 2 ^ 63) : Option Unit).bind fun _ =>
        (readItems readOrder (leAt b (pos + 12) 8) (b.drop (pos + 20))).bind fun r =>
          (readEngines b.length k r.2).bind fun engines =>
            pure (engines.map (⟨leAt b pos 4, leAt b (pos + 4) 8, r.1⟩ :: ·)) := by
    rw [readEngines, if_neg (by rw [length_drop]; omega)]
    simp only [bind_eq_bind]
    rw [readLe_drop (by decide), if_pos (by omega), bind_some, readLe_drop (by decide),
      if_pos (by omega), bind_some, readLe_drop (by decide), if_pos (by omega), bind_some]
    simp only [add_assoc, Nat.reduceAdd] at hlen ⊢
    rw [hlen, hsize, engineEnd, add_assoc]
  rcases lt_or_ge b.length (engineEnd b pos % 2 ^ 64 + 8) with hcut | hinside
  · refine .inr (.inl ⟨hheader, hcut, .invalidData "truncated orders", ?_⟩)
    rw [hread, if_pos (by omega)]
  rw [if_neg (by omega)] at hread
  rcases lt_or_ge (ordersSize b pos) (2 ^ 63) with hfit | hlarge
  · -- the vector can be reserved, so nothing wraps
    have hend : engineEnd b pos + 8 ≤ b.length := by
      rw [Nat.mod_eq_of_lt (by rw [engineEnd]; omega)] at hinside
      exact hinside
    obtain ⟨orders, horders⟩ := (fixedWidth_readOrder.readItems
      (leAt b (pos + 12) 8)).exists_eq_some (b.drop (pos + 20)) (by
        rw [length_drop]
        rw [engineEnd, ordersSize] at hend
        omega)
    rw [drop_drop, show pos + 20 + ORDER_ENC * leAt b (pos + 12) 8 = engineEnd b pos by
      rw [engineEnd, ordersSize]] at horders
    refine .inr (.inr (.inr ⟨hend, ⟨leAt b pos 4, leAt b (pos + 4) 8, orders⟩, ?_⟩))
    rw [hread, guard_eq_some hfit, bind_some, horders, map_eq_bind]
    rfl
  · refine .inr (.inr (.inl ⟨hheader, hinside, hlarge, ?_⟩))
    rw [hread, guard_eq_none (not_lt.mpr hlarge), bind_none]

/-- When the engines are decoded without an abort, and when they are complete. -/
theorem readEngines_drop (k pos : ℕ) :
    (readEngines b.length k (b.drop pos) ≠ none ↔ OrderCountsFit b k pos) ∧
      ((∃ engines, readEngines b.length k (b.drop pos) = some (.ok engines)) ↔
        EnginesInside b k pos) := by
  induction k generalizing pos with
  | zero => exact ⟨iff_of_true nofun trivial, iff_of_true ⟨[], rfl⟩ trivial⟩
  | succ k ih =>
    have hmod := Nat.mod_le (engineEnd b pos) (2 ^ 64)
    have hpos : pos + 20 + ordersSize b pos = engineEnd b pos := (engineEnd.eq_1 b pos).symm
    rw [OrderCountsFit, EnginesInside]
    rcases readEngines_succ hb k pos with
      ⟨hlt, err, h⟩ | ⟨hle, hlt, err, h⟩ | ⟨hle, hin, hlarge, h⟩ | ⟨hend, e, h⟩
    · rw [h]
      exact ⟨iff_of_true nofun fun hle => absurd hle (by omega),
        iff_of_false (fun ⟨_, h⟩ => by cases h) fun hin => absurd hin.1 (by omega)⟩
    · rw [h]
      refine ⟨iff_of_true nofun fun _ => ⟨fun _ => hlt, fun hend => absurd hend (by omega)⟩,
        iff_of_false (fun ⟨_, h⟩ => by cases h) fun hin => absurd hin.1 (by omega)⟩
    · rw [h]
      exact ⟨iff_of_false (fun h => h rfl) fun hfit => absurd ((hfit hle).1 hlarge) (by omega),
        iff_of_false (fun ⟨_, h⟩ => by cases h) fun hin => absurd hin.1 (by omega)⟩
    · rw [h, ne_eq, map_eq_none_iff, ← ne_eq, (ih (engineEnd b pos)).1]
      refine ⟨⟨fun hrest _ => ⟨fun hlarge => absurd hlarge (by omega), fun _ => hrest⟩,
        fun hfit => (hfit (by omega)).2 hend⟩, ?_⟩
      rw [and_iff_right hend, ← (ih (engineEnd b pos)).2]
      constructor
      · rintro ⟨engines, hengines⟩
        obtain ⟨r, hr, heq⟩ := map_eq_some_iff.mp hengines
        cases r with
        | error err => cases heq
        | ok engines => exact ⟨engines, hr⟩
      · rintro ⟨engines, hengines⟩
        exact ⟨e :: engines, by rw [hengines]; rfl⟩

/-- When a file that passed the frame is decoded without an abort. -/
theorem load_ne_none_iff (hframed : Framed b) :
    load b ≠ none ↔ enginesAt b + 4 ≤ b.length ∧
      OrderCountsFit b (engineCount b) (enginesAt b + 4) := by
  obtain ⟨snap, -, hload⟩ := exists_load hframed
  rw [hload]
  split
  · rename_i hlists
    rw [and_iff_right hlists, ne_eq, map_eq_none_iff]
    exact (readEngines_drop hb _ _).1
  · exact iff_of_false (fun h => h rfl) fun h => absurd h.1 ‹_›

omit hb in
/-- What a file is decoded to. -/
theorem exists_of_load {decoded : MatchingSnapshot} (h : load b = some (.ok decoded)) :
    Framed b ∧ enginesAt b + 4 ≤ b.length ∧ decoded.formatVersion = leAt b 4 4 ∧
      (4 ≤ leAt b 4 4 → decoded.raftAppliedIndex = leAt b 16 8) ∧
      ∃ engines, readEngines b.length (engineCount b) (b.drop (enginesAt b + 4)) =
        some (.ok engines) := by
  by_cases hframed : Framed b
  swap
  · obtain ⟨err, herr⟩ := load_of_not_framed hframed
    cases herr.symm.trans h
  obtain ⟨snap, hsnap, hload⟩ := exists_load hframed
  rw [hload] at h
  split at h
  · rename_i hlists
    obtain ⟨r, hr, heq⟩ := map_eq_some_iff.mp h
    cases r with
    | error err => cases heq
    | ok engines =>
      cases heq
      exact ⟨hframed, hlists, (hsnap engines).1, (hsnap engines).2, engines, hr⟩
  · cases h

omit hb in
/-- The engines of a file lie before the checksum if the lists do, or if there are none. -/
theorem complete_or_overlapping (expectedIndex : ℕ) :
    Complete b expectedIndex ∨ Overlapping b expectedIndex ↔
      Framed b ∧ leAt b 4 4 = SNAPSHOT_VERSION ∧ leAt b 16 8 = expectedIndex ∧
        enginesAt b + 4 ≤ b.length ∧ EnginesInside b (engineCount b) (enginesAt b + 4) := by
  constructor
  · rintro (⟨hframed, hversion, hindex, hlists, hinside⟩ |
      ⟨hframed, hversion, hindex, ⟨hlists, -⟩, hnone⟩)
    · exact ⟨hframed, hversion, hindex, by omega, hinside⟩
    · exact ⟨hframed, hversion, hindex, hlists, by rw [hnone]; trivial⟩
  · rintro ⟨hframed, hversion, hindex, hlists, hinside⟩
    rcases lt_or_ge b.length (enginesAt b + 4 + 8) with hlt | hge
    · refine .inr ⟨hframed, hversion, hindex, ⟨hlists, hlt⟩, ?_⟩
      cases hcount : engineCount b with
      | zero => rfl
      | succ k =>
        rw [hcount] at hinside
        have := hinside.1
        rw [engineEnd] at this
        omega
    · exact .inl ⟨hframed, hversion, hindex, hge, hinside⟩

/-- The files for which `load` returns a snapshot of the current version with an index. -/
theorem load_eq_ok_iff (expectedIndex : ℕ) :
    (∃ snap, load b = some (.ok snap) ∧ snap.formatVersion = 4 ∧
      snap.raftAppliedIndex = expectedIndex) ↔
      Complete b expectedIndex ∨ Overlapping b expectedIndex := by
  rw [complete_or_overlapping]
  constructor
  · rintro ⟨decoded, hload, hversion, hindex⟩
    obtain ⟨hframed, hlists, hfour, happlied, hengines⟩ := exists_of_load hload
    rw [hversion] at hfour
    exact ⟨hframed, hfour.symm, (happlied (le_of_eq hfour)).symm.trans hindex, hlists,
      (readEngines_drop hb _ _).2.mp hengines⟩
  · rintro ⟨hframed, hversion, hindex, hlists, hinside⟩
    obtain ⟨snap, hsnap, hload⟩ := exists_load hframed
    obtain ⟨engines, hengines⟩ := (readEngines_drop hb _ _).2.mpr hinside
    refine ⟨snap engines, by rw [hload, if_pos hlists, hengines]; rfl,
      (hsnap engines).1.trans hversion, ?_⟩
    exact ((hsnap engines).2 (by rw [hversion]; exact Nat.le_refl 4)).trans hindex

/-! ### Reservations -/

/-- The orders of the engines are reserved in place of their records. -/
theorem sum_engineReservations_le (k : ℕ) {pos : ℕ} (hpos : pos ≤ b.length) :
    pos + (engineReservations b k pos).sum ≤ b.length := by
  induction k generalizing pos with
  | zero => exact hpos
  | succ k ih =>
    rw [engineReservations]
    split
    · exact hpos
    split
    · exact hpos
    split
    · exact hpos
    rename_i hheader hend hfit
    have hle : engineEnd b pos ≤ b.length := by
      rw [Nat.mod_eq_of_lt (by rw [engineEnd]; omega)] at hend
      omega
    have hrest := ih hle
    have heq := engineEnd.eq_1 b pos
    rw [sum_cons]
    omega

/-- **What is reserved for a file whose lists lie inside it.** -/
theorem reservations_le (hlists : enginesAt b + 4 ≤ b.length)
    (hengines : 20 * engineCount b ≤ b.length) :
    (∀ size ∈ reservations b, size ≤ 2 * b.length) ∧ (reservations b).sum ≤ 4 * b.length := by
  have hpositions := enginesAt.eq_1 b
  have hsuspended := positionsAt.eq_1 b
  have hhalted := suspendedAt.eq_1 b
  have horders := sum_engineReservations_le hb (engineCount b) hlists
  rw [reservations]
  split
  · simp
  rw [if_neg (by omega), if_neg (by omega), if_neg (by omega)]
  constructor
  · simp only [mem_cons]
    rintro size (rfl | rfl | rfl | rfl | hsize)
    · omega
    · omega
    · omega
    · omega
    · have := single_le_sum (fun _ _ => Nat.zero_le _) size hsize
      omega
  · simp only [sum_cons]
    omega

end

/-- The engines of a file that passed the frame are reserved before their number is checked. -/
theorem mem_reservations (hframed : Framed b) (hlists : enginesAt b + 4 ≤ b.length) :
    40 * engineCount b ∈ reservations b := by
  obtain ⟨hhalted, hsuspended, hpositions⟩ := offsets_le b
  rw [reservations, if_neg (not_or.mpr ⟨not_not_intro hframed, by omega⟩), if_neg (by omega),
    if_neg (by omega), if_neg (by omega)]
  simp

/-- Snapshots of other versions are not loaded. -/
theorem formatVersion_of_load {snap : MatchingSnapshot} (h : load b = some (.ok snap)) :
    snap.formatVersion = 4 ∨ snap.formatVersion = 3 := by
  obtain ⟨hframed, -, hversion, -⟩ := exists_of_load h
  rw [hversion]
  exact hframed.2.2.2

end Stages

end MatchingSnapshot

/-! ### Installations -/

namespace SnapshotFiles

/-- The snapshots that an installation accepts. -/
def Accepts (bytes : List UInt8) (expectedIndex : ℕ) : Prop :=
  ∃ snap, MatchingSnapshot.load bytes = some (.ok snap) ∧ snap.formatVersion = 4 ∧
    snap.raftAppliedIndex = expectedIndex

variable (files : SnapshotFiles) (bytes : List UInt8) (expectedIndex : ℕ)

/-- **An installation** puts an accepted snapshot in place, or leaves the old one there. -/
theorem installBytes_cases :
    Accepts bytes expectedIndex ∧
        files.installBytes bytes expectedIndex = (some (.ok ()), ⟨some bytes, none⟩) ∨
      ¬ Accepts bytes expectedIndex ∧ (files.installBytes bytes expectedIndex).1 ≠ some (.ok ()) ∧
        (files.installBytes bytes expectedIndex).2.target = files.target := by
  rw [installBytes, Accepts]
  split
  · rename_i hload
    exact .inr ⟨fun ⟨_, h, _⟩ => (by cases hload.symm.trans h), nofun, rfl⟩
  · rename_i hload
    exact .inr ⟨fun ⟨_, h, _⟩ => (by cases hload.symm.trans h), nofun, rfl⟩
  · rename_i decoded hload
    have hversion := MatchingSnapshot.formatVersion_of_load hload
    split
    · rename_i hbad
      refine .inr ⟨fun ⟨snap, h, hfour, hindex⟩ => ?_, nofun, rfl⟩
      obtain rfl := Except.ok.inj (some.inj (hload.symm.trans h))
      omega
    · rename_i hgood
      obtain ⟨hfour, hindex⟩ := not_or.mp hgood
      exact .inl ⟨⟨decoded, hload, by omega, not_not.mp hindex⟩, rfl⟩

/-- The node goes on after an installation exactly if the snapshot was accepted. -/
theorem installReceived_ne_none :
    files.installReceived bytes expectedIndex ≠ none ↔ Accepts bytes expectedIndex := by
  rw [installReceived]
  rcases files.installBytes_cases bytes expectedIndex with ⟨haccept, h⟩ | ⟨hreject, h, -⟩
  · rw [h]
    exact iff_of_true nofun haccept
  · refine iff_of_false (not_not_intro ?_) hreject
    split
    · rename_i heq
      rw [heq] at h
      exact absurd rfl h
    · rfl

end SnapshotFiles

namespace MatchingSnapshot

/-! ### Totality -/

/-- A file whose content the decoder checks. -/
def Decodable (b : List UInt8) : Prop := Framed b → Announced b

/-- A file around a body. -/
def sealed (body : List UInt8) : List UInt8 := body ++ leBytes 8 (fnv1a body).toNat

/-- The smallest file that passes the size check: a header that is cut off. -/
def shortFile : List UInt8 :=
  sealed (SNAPSHOT_MAGIC ++ leBytes 4 SNAPSHOT_VERSION ++ leBytes 12 0)

/-- An empty state that announces `2 ^ 32 - 1` engines. -/
def hollowFile : List UInt8 :=
  sealed (SNAPSHOT_MAGIC ++ leBytes 4 SNAPSHOT_VERSION ++ leBytes 44 0 ++ leBytes 4 (2 ^ 32 - 1))

/-- A state with applied index 9 that ends before the number of the engines. Its command ids are
chosen so that the checksum begins with four zeros. -/
def overlappingFile : List UInt8 :=
  sealed (SNAPSHOT_MAGIC ++ leBytes 4 SNAPSHOT_VERSION ++ leBytes 8 0 ++ leBytes 8 9 ++
    leBytes 8 458904 ++ leBytes 8 (166 * 2 ^ 56) ++ leBytes 12 0)

/-- An empty state with applied index 9. -/
def emptyFile : List UInt8 :=
  sealed (SNAPSHOT_MAGIC ++ leBytes 4 SNAPSHOT_VERSION ++ leBytes 8 0 ++ leBytes 8 9 ++
    leBytes 32 0)

end MatchingSnapshot

end TradeCore
