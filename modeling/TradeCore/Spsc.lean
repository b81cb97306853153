import TradeCore.Lib.WrapCounter

/-!
# The Queue between the Shards

The ring buffer of `lockfree.rs`: one producer, one consumer, two counters that run freely and
wrap with the machine word, and a power-of-two mask. Each end keeps a copy of the counter of the
other end and reads the real one only when the queue looks full, or empty, against the copy.

A push and a pop are sequences of steps, one for each access to what the ends share: the loads of
the counters, the access to the slot, and the store of the own counter. Any interleaving of the
steps of the two ends is a run. A slot holds an item from its write to its read.

## Main results

* `Spsc.Holds` — the invariant: the counters show how many items were pushed and popped, the copies
  are old values of them, and the slots of the window between them hold the items.
* `Spsc.fifo_iff` — the queue is a bounded first-in first-out queue of the capacity rounded up to a
  power of two exactly for the capacities up to half the range of the machine word.
* `Spsc.two_slots` — beyond that the capacity wraps to two slots.
-/

open List Option

namespace TradeCore

/-- Where a push is. -/
inductive PushPc (α : Type) where
  | idle
  /-- The queue looks full: read the counter of the consumer. -/
  | reload (item : α) (tail : ℕ)
  | write (item : α) (tail : ℕ)
  | publish (item : α) (tail : ℕ)
deriving DecidableEq, Repr

/-- Where a pop is. -/
inductive PopPc (α : Type) where
  | idle
  /-- The queue looks empty: read the counter of the producer. -/
  | reload (head : ℕ)
  | read (head : ℕ)
  | free (item : α) (head : ℕ)
deriving DecidableEq, Repr

/-- What a push or a pop returns. -/
inductive QueueReturn (α : Type) where
  | pushed (item : α)
  | full (item : α)
  | popped (item : α)
  | empty
deriving DecidableEq, Repr

/-- The next step: a new push, the next step of the push, or the next step of a pop. -/
inductive QueueStep (α : Type) where
  | push (item : α)
  | produce
  | consume
deriving DecidableEq, Repr

/-- The ring and its two ends. -/
structure Spsc (α : Type) where
  /-- A slot is empty before it is written and after it was read. -/
  slots : List (Option α)
  mask : ℕ
  head : ℕ
  tail : ℕ
  cachedHead : ℕ
  cachedTail : ℕ
  pushing : PushPc α
  popping : PopPc α
deriving DecidableEq, Repr

/-- The least power of two that is not below a number; it wraps with the machine word. -/
def nextPowerOfTwo (w n : ℕ) : ℕ := if n ≤ 1 then 1 else 2 ^ (Nat.log2 (n - 1) + 1) % 2 ^ w

namespace Spsc

variable {α : Type}

/-- A new queue. -/
def channel (w capacity : ℕ) : Spsc α where
  slots := List.replicate (max (nextPowerOfTwo w capacity) 2) none
  mask := max (nextPowerOfTwo w capacity) 2 - 1
  head := 0
  tail := 0
  cachedHead := 0
  cachedTail := 0
  pushing := .idle
  popping := .idle

/-- The steps of a push. -/
def produce (w : ℕ) (q : Spsc α) : Option (Spsc α × Option (QueueReturn α)) :=
  match q.pushing with
  | .idle => none
  | .reload item tail =>
    if wrapSub w tail q.head = q.slots.length then
      some ({ q with cachedHead := q.head, pushing := .idle }, some (.full item))
    else some ({ q with cachedHead := q.head, pushing := .write item tail }, none)
  | .write item tail =>
    some ({ q with
      slots := q.slots.set (tail &&& q.mask) (some item), pushing := .publish item tail }, none)
  | .publish item tail =>
    some ({ q with tail := (tail + 1) % 2 ^ w, pushing := .idle }, some (.pushed item))

/-- The steps of a pop. Reading an empty slot has no meaning. -/
def consume (w : ℕ) (q : Spsc α) : Option (Spsc α × Option (QueueReturn α)) :=
  match q.popping with
  | .idle =>
    if q.head = q.cachedTail then some ({ q with popping := .reload q.head }, none)
    else some ({ q with popping := .read q.head }, none)
  | .reload head =>
    if head = q.tail then
      some ({ q with cachedTail := q.tail, popping := .idle }, some .empty)
    else some ({ q with cachedTail := q.tail, popping := .read head }, none)
  | .read head =>
    (q.slots[head &&& q.mask]?).join.map fun item =>
      ({ q with slots := q.slots.set (head &&& q.mask) none, popping := .free item head }, none)
  | .free item head =>
    some ({ q with head := (head + 1) % 2 ^ w, popping := .idle }, some (.popped item))

/-- One step of one end. A push starts with the load of the own counter. -/
def step (w : ℕ) (q : Spsc α) : QueueStep α → Option (Spsc α × Option (QueueReturn α))
  | .push item =>
    match q.pushing with
    | .idle =>
      if wrapSub w q.tail q.cachedHead = q.slots.length then
        some ({ q with pushing := .reload item q.tail }, none)
      else some ({ q with pushing := .write item q.tail }, none)
    | _ => none
  | .produce => q.produce w
  | .consume => q.consume w

/-- An interleaving of steps, with what was returned. -/
def run (w : ℕ) (q : Spsc α) : List (QueueStep α) → Option (Spsc α × List (QueueReturn α))
  | [] => some (q, [])
  | a :: rest => do
      let (q', returned) ← q.step w a
      let (q'', more) ← q'.run w rest
      pure (q'', returned.toList ++ more)

end Spsc

namespace QueueReturn

variable {α : Type}

/-- The item of a successful push. -/
def pushed? : QueueReturn α → Option α
  | .pushed item => some item
  | _ => none

/-- The item of a successful pop. -/
def popped? : QueueReturn α → Option α
  | .popped item => some item
  | _ => none

end QueueReturn

/-- The items that were pushed, in order. -/
def pushedItems {α : Type} (returned : List (QueueReturn α)) : List α :=
  returned.filterMap QueueReturn.pushed?

/-- The items that were popped, in order. -/
def poppedItems {α : Type} (returned : List (QueueReturn α)) : List α :=
  returned.filterMap QueueReturn.popped?

/-- The capacity rounded up to a power of two, at least two. -/
def roundedCapacity (capacity : ℕ) : ℕ := max (2 ^ Nat.clog 2 capacity) 2

namespace Spsc

variable {α : Type}

/-- A state of a bounded first-in first-out queue of `cap` items, after what was returned: the
popped items are the first pushed ones and at most `cap` are missing; a slot is empty when it is
written and full when it is read; the next step answers `full` only if `cap` items are missing,
and `empty` only if none is. -/
structure Fifo (w cap : ℕ) (q : Spsc α) (returned : List (QueueReturn α)) : Prop where
  order : poppedItems returned <+: pushedItems returned
  held : (pushedItems returned).length ≤ (poppedItems returned).length + cap
  write_empty : ∀ item tail, q.pushing = .write item tail → q.slots[tail &&& q.mask]? = some none
  read_full : ∀ head, q.popping = .read head →
    ∃ item, q.slots[head &&& q.mask]? = some (some item)
  full : ∀ a q' item, q.step w a = some (q', some (.full item)) →
    (pushedItems returned).length = (poppedItems returned).length + cap
  empty : ∀ a q', q.step w a = some (q', some .empty) →
    (pushedItems returned).length = (poppedItems returned).length

end Spsc

/-! ### The invariant -/

section Places

variable {α : Type}

/-- The item in a slot that is not published yet. -/
def PushPc.written : PushPc α → List α
  | .publish item _ => [item]
  | _ => []

/-- A push works with the true counter, and it writes only where there was room when the counter
of the consumer was `oldHead`. -/
def PushPc.Knows (w cap tail oldHead : ℕ) : PushPc α → Prop
  | .idle => True
  | .reload _ t => t = tail % 2 ^ w
  | .write _ t | .publish _ t => t = tail % 2 ^ w ∧ tail < oldHead + cap

/-- The slot at the head was read already. -/
def PopPc.taken : PopPc α → Bool
  | .free _ _ => true
  | _ => false

/-- A pop works with the true counter, and it reads only what was there when the counter of the
producer was `oldTail`. -/
def PopPc.Knows (w : ℕ) (pushed : List α) (head oldTail : ℕ) : PopPc α → Prop
  | .idle => True
  | .reload h => h = head % 2 ^ w
  | .read h => h = head % 2 ^ w ∧ head < oldTail
  | .free item h => h = head % 2 ^ w ∧ head < oldTail ∧ pushed[head]? = some item

/-- A push does not disturb a pop. -/
theorem PopPc.Knows.append {w : ℕ} {pushed : List α} {head oldTail : ℕ} {pc : PopPc α}
    (h : pc.Knows w pushed head oldTail) (items : List α) :
    pc.Knows w (pushed ++ items) head oldTail := by
  cases pc with
  | free item head' =>
    obtain ⟨heq, hlt, hitem⟩ := h
    refine ⟨heq, hlt, ?_⟩
    rw [getElem?_append_left (List.getElem?_eq_some_iff.mp hitem).1, hitem]
  | _ => exact h

/-- The items before and behind the end of a list. -/
theorem getElem?_append_of_ne {pushed : List α} {i : ℕ} (h : i ≠ pushed.length) (item : α) :
    (pushed ++ [item])[i]? = (pushed ++ [])[i]? := by
  rcases Nat.lt_or_gt_of_ne h with hlt | hgt
  · rw [getElem?_append_left hlt, append_nil]
  · rw [getElem?_eq_none (by rw [length_append, length_singleton]; omega),
      append_nil, getElem?_eq_none (le_of_lt hgt)]

end Places

namespace Spsc

variable {capacity w : ℕ}

variable {α : Type}

/-- **The invariant** of a ring of `2 ^ k` slots. The counters show how many items were pushed and
popped, the copies are those of the true counters `oldHead` and `oldTail`, and the window of the
ring from the head on holds the items that are not popped yet, and nothing else. -/
structure Holds (w k : ℕ) (q : Spsc α) (pushed popped : List α) (oldHead oldTail : ℕ) : Prop where
  order : popped <+: pushed
  slots : q.slots.length = 2 ^ k
  mask : q.mask = 2 ^ k - 1
  head : q.head = popped.length % 2 ^ w
  tail : q.tail = pushed.length % 2 ^ w
  cachedHead : q.cachedHead = oldHead % 2 ^ w
  oldHead_le : oldHead ≤ popped.length
  room : pushed.length ≤ oldHead + 2 ^ k
  pushing : q.pushing.Knows w (2 ^ k) pushed.length oldHead
  cachedTail : q.cachedTail = oldTail % 2 ^ w
  le_oldTail : popped.length ≤ oldTail
  oldTail_le : oldTail ≤ pushed.length
  popping : q.popping.Knows w pushed popped.length oldTail
  cells : ∀ i, popped.length ≤ i → i < popped.length + 2 ^ k → q.slots[i % 2 ^ k]? =
    some (if i = popped.length ∧ q.popping.taken then none else (pushed ++ q.pushing.written)[i]?)

namespace Holds

variable {returned : Option (QueueReturn α)}

variable {w k : ℕ} {q q' : Spsc α} {pushed popped : List α} {oldHead oldTail : ℕ}

section

variable (h : Holds w k q pushed popped oldHead oldTail)
include h

/-- A slot that was read lies before the tail. -/
theorem lt_of_taken (htaken : q.popping.taken) : popped.length < pushed.length := by
  have hpopping := h.popping
  have hle := h.oldTail_le
  cases hpc : q.popping with
  | free item head =>
    rw [hpc] at hpopping
    exact lt_of_lt_of_le hpopping.2.1 hle
  | _ =>
    rw [hpc] at htaken
    cases htaken

/-- Everything in the ring is part of its window. -/
theorem written_le : (pushed ++ q.pushing.written).length ≤ popped.length + 2 ^ k := by
  have hpushing := h.pushing
  have hroom := h.room
  have hle := h.oldHead_le
  rw [length_append]
  cases hpc : q.pushing with
  | publish item tail =>
    rw [hpc] at hpushing
    have hlt := hpushing.2
    simp only [PushPc.written, length_singleton]
    omega
  | _ =>
    simp only [PushPc.written, length_nil]
    omega

variable (hk : k < w)
include hk

/-- The place of a counter in the ring. -/
theorem place (i : ℕ) : i % 2 ^ w &&& q.mask = i % 2 ^ k := by
  rw [h.mask, mod_land_mask (le_of_lt hk)]

/-- The queue looks full against a counter of the consumer exactly if it was. -/
theorem looks_full {c : ℕ} (hc : c ≤ popped.length) (hroom : pushed.length ≤ c + 2 ^ k) :
    wrapSub w (pushed.length % 2 ^ w) (c % 2 ^ w) = q.slots.length ↔
      pushed.length = c + 2 ^ k := by
  have hle := h.order.length_le
  have hpow := Nat.pow_lt_pow_right (a := 2) (by decide) hk
  rw [wrapSub_mod (by omega) (by omega), h.slots]
  omega

/-- The queue looks empty against a counter of the producer exactly if it was. -/
theorem looks_empty {c : ℕ} (hc : popped.length ≤ c) (hc' : c ≤ pushed.length) :
    popped.length % 2 ^ w = c % 2 ^ w ↔ popped.length = c := by
  have hpow := Nat.pow_lt_pow_right (a := 2) (by decide) hk
  have hroom := h.room
  have hold := h.oldHead_le
  exact mod_eq_mod_iff hc (by omega)

/-- A push starts. -/
theorem push {item : α} (hstep : q.step w (.push item) = some (q', returned)) :
    Holds w k q' pushed popped oldHead oldTail ∧ returned = none := by
  have hfull := h.looks_full hk h.oldHead_le h.room
  have hcells := h.cells
  rw [← h.tail, ← h.cachedHead] at hfull
  rw [step] at hstep
  split at hstep
  · rename_i hpc
    rw [hpc] at hcells
    split at hstep
    · cases hstep
      exact ⟨{ h with pushing := h.tail, cells := hcells }, rfl⟩
    · rename_i hlt
      cases hstep
      rw [hfull] at hlt
      have hroom := h.room
      exact ⟨{ h with pushing := ⟨h.tail, by omega⟩, cells := hcells }, rfl⟩
  · cases hstep

/-- A push goes on. What it returns says how full the queue is. -/
theorem produce (hstep : q.produce w = some (q', returned)) :
    (returned = none ∧ ∃ oldHead', Holds w k q' pushed popped oldHead' oldTail) ∨
      (∃ item, returned = some (.full item) ∧ pushed.length = popped.length + 2 ^ k ∧
        Holds w k q' pushed popped popped.length oldTail) ∨
      ∃ item, returned = some (.pushed item) ∧
        Holds w k q' (pushed ++ [item]) popped oldHead oldTail := by
  have hcells := h.cells
  have hpushing := h.pushing
  have hlen := h.order.length_le
  have hle := h.oldHead_le
  have hroom := h.room
  rw [Spsc.produce] at hstep
  split at hstep
  · cases hstep
  · -- the counter of the consumer is read
    rename_i item tail hpc
    rw [hpc] at hcells hpushing
    have hfull := h.looks_full hk le_rfl (by omega)
    rw [← h.head, ← show tail = pushed.length % 2 ^ w from hpushing] at hfull
    split at hstep
    · rename_i heq
      cases hstep
      exact .inr (.inl ⟨item, rfl, hfull.mp heq, { h with
        cachedHead := h.head, oldHead_le := le_rfl, room := by omega
        pushing := trivial, cells := hcells }⟩)
    · rename_i hne
      cases hstep
      rw [hfull] at hne
      exact .inl ⟨rfl, popped.length, { h with
        cachedHead := h.head, oldHead_le := le_rfl, room := by omega
        pushing := ⟨hpushing, by omega⟩, cells := hcells }⟩
  · -- the slot at the tail is written
    rename_i item tail hpc
    rw [hpc] at hcells hpushing
    obtain ⟨rfl, hlt⟩ := hpushing
    cases hstep
    refine .inl ⟨rfl, oldHead, { h with
      slots := by rw [length_set, h.slots], pushing := ⟨rfl, hlt⟩, cells := ?_ }⟩
    intro i hi hi'
    rw [h.place hk]
    by_cases heq : i = pushed.length
    · -- a slot that is read lies before the tail
      subst heq
      have htaken : ¬ (pushed.length = popped.length ∧ q.popping.taken) := fun ⟨hlast, htaken⟩ => by
        have := h.lt_of_taken htaken
        omega
      rw [getElem?_set_self (by rw [h.slots]; exact Nat.mod_lt _ (Nat.two_pow_pos k)),
        if_neg htaken]
      exact congrArg some (getElem?_concat_length).symm
    · have hplace := mod_ne_mod (n := 2 ^ k) hlen (by omega) hi hi' (Ne.symm heq)
      rw [getElem?_set_ne hplace, hcells i hi hi']
      simp only [PushPc.written, getElem?_append_of_ne heq]
  · -- the new counter is published
    rename_i item tail hpc
    rw [hpc] at hcells hpushing
    obtain ⟨rfl, hlt⟩ := hpushing
    cases hstep
    refine .inr (.inr ⟨item, rfl, { h with
      order := h.order.trans (prefix_append _ _)
      tail := ?_, room := ?_, pushing := trivial, oldTail_le := ?_, popping := ?_, cells := ?_ }⟩)
    · rw [length_append, length_singleton, Nat.mod_add_mod]
    · rw [length_append, length_singleton]
      omega
    · rw [length_append]
      exact Nat.le_add_right_of_le h.oldTail_le
    · exact h.popping.append [item]
    · intro i hi hi'
      rw [hcells i hi hi']
      simp only [PushPc.written, append_nil]

/-- A pop goes on. What it returns is the next item, or says that there is none. -/
theorem consume (hstep : q.consume w = some (q', returned)) :
    (returned = none ∧ ∃ oldTail', Holds w k q' pushed popped oldHead oldTail') ∨
      (returned = some .empty ∧ pushed.length = popped.length ∧
        Holds w k q' pushed popped oldHead pushed.length) ∨
      ∃ item, returned = some (.popped item) ∧
        Holds w k q' pushed (popped ++ [item]) oldHead oldTail := by
  have hcells := h.cells
  have hpopping := h.popping
  have hlen := h.order.length_le
  rw [Spsc.consume] at hstep
  split at hstep
  · rename_i hpc
    rw [hpc] at hcells hpopping
    have hempty := h.looks_empty hk h.le_oldTail h.oldTail_le
    rw [← h.head, ← h.cachedTail] at hempty
    split at hstep
    · cases hstep
      exact .inl ⟨rfl, oldTail, { h with popping := h.head, cells := hcells }⟩
    · rename_i hne
      cases hstep
      rw [hempty] at hne
      exact .inl ⟨rfl, oldTail, { h with
        popping := ⟨h.head, lt_of_le_of_ne h.le_oldTail hne⟩, cells := hcells }⟩
  · -- the counter of the producer is read
    rename_i head hpc
    rw [hpc] at hcells hpopping
    have hempty := h.looks_empty hk hlen le_rfl
    rw [← h.tail, ← show head = popped.length % 2 ^ w from hpopping] at hempty
    split at hstep
    · rename_i heq
      cases hstep
      exact .inr (.inl ⟨rfl, (hempty.mp heq).symm, { h with
        cachedTail := h.tail, le_oldTail := hlen, oldTail_le := le_rfl
        popping := trivial, cells := hcells }⟩)
    · rename_i hne
      cases hstep
      rw [hempty] at hne
      exact .inl ⟨rfl, pushed.length, { h with
        cachedTail := h.tail, le_oldTail := hlen, oldTail_le := le_rfl
        popping := ⟨hpopping, lt_of_le_of_ne hlen hne⟩, cells := hcells }⟩
  · -- the slot at the head is read
    rename_i head hpc
    rw [hpc] at hcells hpopping
    obtain ⟨rfl, hlt⟩ := hpopping
    have hlt' : popped.length < pushed.length := lt_of_lt_of_le hlt h.oldTail_le
    have hslot := hcells popped.length le_rfl (Nat.lt_add_of_pos_right (Nat.two_pow_pos k))
    rw [if_neg (by simp [PopPc.taken]), getElem?_append_left hlt'] at hslot
    rw [h.place hk, hslot] at hstep
    obtain ⟨item, hitem, hstep⟩ := map_eq_some_iff.mp hstep
    cases hstep
    refine .inl ⟨rfl, oldTail, { h with
      slots := by rw [length_set, h.slots]
      popping := ⟨rfl, hlt, hitem⟩, cells := ?_ }⟩
    intro i hi hi'
    by_cases heq : i = popped.length
    · subst heq
      rw [getElem?_set_self (by rw [h.slots]; exact Nat.mod_lt _ (Nat.two_pow_pos k)),
        if_pos ⟨rfl, rfl⟩]
    · have hplace := mod_ne_mod (n := 2 ^ k) le_rfl
        (Nat.lt_add_of_pos_right (Nat.two_pow_pos k)) hi hi' (Ne.symm heq)
      rw [getElem?_set_ne hplace, hcells i hi hi', if_neg (fun hand => heq hand.1),
        if_neg fun hand => heq hand.1]
  · -- the new counter is stored, and the window moves on
    rename_i item head hpc
    rw [hpc] at hcells hpopping
    obtain ⟨rfl, hlt, hitem⟩ := hpopping
    cases hstep
    have hnext : (popped ++ [item]).length = popped.length + 1 := by simp
    refine .inr (.inr ⟨item, rfl, { h with
      order := ?_, head := ?_, oldHead_le := ?_, le_oldTail := ?_, popping := trivial
      cells := ?_ }⟩)
    · obtain ⟨rest, rfl⟩ := h.order
      rw [getElem?_append_right le_rfl, Nat.sub_self] at hitem
      cases rest with
      | nil => cases hitem
      | cons a rest =>
        cases hitem
        exact ⟨rest, by simp⟩
    · rw [hnext, Nat.mod_add_mod]
    · rw [hnext]
      exact Nat.le_succ_of_le h.oldHead_le
    · rw [hnext]
      exact hlt
    · intro i hi hi'
      rw [hnext] at hi hi'
      rw [if_neg (by simp [PopPc.taken])]
      by_cases hlast : i = popped.length + 2 ^ k
      · -- the slot that was read is the last of the new window
        have hslot := hcells popped.length le_rfl
          (Nat.lt_add_of_pos_right (Nat.two_pow_pos k))
        rw [if_pos ⟨rfl, rfl⟩] at hslot
        rw [hlast, Nat.add_mod_right, hslot, getElem?_eq_none]
        exact h.written_le
      · rw [hcells i (by omega) (by omega), if_neg fun hand => absurd hand.1 (by omega)]

/-- **One step keeps the invariant**, with what it returned. -/
theorem step {a : QueueStep α} (hstep : q.step w a = some (q', returned)) :
    ∃ oldHead' oldTail', Holds w k q' (pushed ++ pushedItems returned.toList)
      (popped ++ poppedItems returned.toList) oldHead' oldTail' := by
  cases a with
  | push item =>
    obtain ⟨h', rfl⟩ := h.push hk hstep
    exact ⟨oldHead, oldTail, by simpa [pushedItems, poppedItems] using h'⟩
  | produce =>
    rcases h.produce hk hstep with ⟨rfl, oldHead', h'⟩ | ⟨item, rfl, -, h'⟩ | ⟨item, rfl, h'⟩ <;>
      exact ⟨_, oldTail, by simpa [pushedItems, poppedItems, filterMap_cons,
        QueueReturn.pushed?, QueueReturn.popped?] using h'⟩
  | consume =>
    rcases h.consume hk hstep with ⟨rfl, oldTail', h'⟩ | ⟨rfl, -, h'⟩ | ⟨item, rfl, h'⟩ <;>
      exact ⟨oldHead, _, by simpa [pushedItems, poppedItems, filterMap_cons,
        QueueReturn.pushed?, QueueReturn.popped?] using h'⟩

/-- **A run keeps the invariant.** -/
theorem run {steps : List (QueueStep α)} {returned : List (QueueReturn α)}
    (hrun : q.run w steps = some (q', returned)) :
    ∃ oldHead' oldTail', Holds w k q' (pushed ++ pushedItems returned)
      (popped ++ poppedItems returned) oldHead' oldTail' := by
  induction steps generalizing q pushed popped oldHead oldTail returned with
  | nil =>
    cases hrun
    exact ⟨oldHead, oldTail, by simpa [pushedItems, poppedItems] using h⟩
  | cons a steps ih =>
    obtain ⟨⟨q₁, first⟩, hstep, hrun⟩ := bind_eq_some_iff.mp hrun
    obtain ⟨⟨q₂, more⟩, hrest, heq⟩ := bind_eq_some_iff.mp hrun
    cases heq
    obtain ⟨_, _, h₁⟩ := h.step hk hstep
    obtain ⟨oldHead', oldTail', h₂⟩ := ih h₁ hrest
    refine ⟨oldHead', oldTail', ?_⟩
    rw [pushedItems, poppedItems, filterMap_append, filterMap_append,
      ← append_assoc, ← append_assoc]
    exact h₂

end

/-- A state with the invariant is one of a bounded queue. -/
theorem fifo {returned : List (QueueReturn α)}
    (h : Holds w k q (pushedItems returned) (poppedItems returned) oldHead oldTail) (hk : k < w) :
    Fifo w (2 ^ k) q returned where
  order := h.order
  held := h.room.trans (Nat.add_le_add_right h.oldHead_le _)
  write_empty := by
    intro item tail hpc
    have hpushing := h.pushing
    rw [hpc] at hpushing
    obtain ⟨rfl, hlt⟩ := hpushing
    have hle := h.oldHead_le
    rw [h.place hk, h.cells _ h.order.length_le (by omega), hpc]
    simp [PushPc.written]
  read_full := by
    intro head hpc
    have hpopping := h.popping
    rw [hpc] at hpopping
    obtain ⟨rfl, hlt⟩ := hpopping
    have hlt' := lt_of_lt_of_le hlt h.oldTail_le
    refine ⟨(pushedItems returned)[(poppedItems returned).length], ?_⟩
    rw [h.place hk, h.cells _ le_rfl (Nat.lt_add_of_pos_right (Nat.two_pow_pos k)), hpc,
      if_neg (by simp [PopPc.taken]), getElem?_append_left hlt', getElem?_eq_getElem hlt']
  full := by
    intro a q' item hstep
    cases a with
    | push item' => cases (h.push hk hstep).2
    | produce =>
      rcases h.produce hk hstep with ⟨heq, -⟩ | ⟨item', -, hfull, -⟩ | ⟨item', heq, -⟩
      · cases heq
      · exact hfull
      · cases heq
    | consume => rcases h.consume hk hstep with ⟨heq, -⟩ | ⟨heq, -⟩ | ⟨item', heq, -⟩ <;> cases heq
  empty := by
    intro a q' hstep
    cases a with
    | push item' => cases (h.push hk hstep).2
    | produce =>
      rcases h.produce hk hstep with ⟨heq, -⟩ | ⟨item', heq, -⟩ | ⟨item', heq, -⟩ <;> cases heq
    | consume =>
      rcases h.consume hk hstep with ⟨heq, -⟩ | ⟨-, hempty, -⟩ | ⟨item', heq, -⟩
      · cases heq
      · exact hempty
      · cases heq

end Holds

/-! ### The capacity -/

theorem clog_two_eq {n : ℕ} (h : 1 < n) : Nat.clog 2 n = Nat.log2 (n - 1) + 1 := by
  rw [Nat.log2_eq_log_two]
  refine le_antisymm ((Nat.clog_le_iff_le_pow (by decide)).mpr ?_)
    ((Nat.lt_clog_iff_pow_lt (by decide)).mpr ?_)
  · have := Nat.lt_pow_succ_log_self (b := 2) (by decide) (n - 1)
    omega
  · have := Nat.pow_log_le_self 2 (x := n - 1) (by omega)
    omega

/-- The next power of two, modulo the machine word. -/
theorem nextPowerOfTwo_eq (hw : 0 < w) (n : ℕ) :
    nextPowerOfTwo w n = 2 ^ Nat.clog 2 n % 2 ^ w := by
  rw [nextPowerOfTwo]
  split
  · rename_i hn
    rw [Nat.clog_of_right_le_one hn, pow_zero, Nat.mod_eq_of_lt (Nat.one_lt_two_pow (by omega))]
  · rw [clog_two_eq (by omega)]

/-- Up to half the range of the machine word, the ring has the capacity rounded up. -/
theorem holds_channel (hw : 2 ≤ w) (hcap : capacity ≤ 2 ^ (w - 1)) :
    ∃ k < w, roundedCapacity capacity = 2 ^ k ∧
      Holds w k (channel w capacity : Spsc α) [] [] 0 0 := by
  have hclog : Nat.clog 2 capacity ≤ w - 1 := Nat.clog_le_of_le_pow hcap
  have hk : max (Nat.clog 2 capacity) 1 < w := by omega
  have hmax : max (2 ^ Nat.clog 2 capacity) 2 = 2 ^ max (Nat.clog 2 capacity) 1 :=
    ((pow_right_mono₀ (a := 2) (by decide)).map_max (a := Nat.clog 2 capacity) (b := 1)).symm
  have hnext : max (nextPowerOfTwo w capacity) 2 = 2 ^ max (Nat.clog 2 capacity) 1 := by
    rw [nextPowerOfTwo_eq (by omega),
      Nat.mod_eq_of_lt (Nat.pow_lt_pow_right (by decide) (by omega)), hmax]
  refine ⟨max (Nat.clog 2 capacity) 1, hk, hmax, ?_⟩
  constructor <;> simp [channel, hnext, PushPc.Knows, PopPc.Knows, PushPc.written, PopPc.taken]
  exact fun i _ => getElem?_replicate_of_lt (Nat.mod_lt _ (Nat.two_pow_pos _))

/-- Beyond half the range of the machine word, the capacity wraps. -/
theorem roundedCapacity_of_lt (hw : 2 ≤ w) (hlarge : 2 ^ (w - 1) < capacity)
    (hcap : capacity < 2 ^ w) :
    roundedCapacity capacity = 2 ^ w ∧ nextPowerOfTwo w capacity = 0 := by
  have hclog : Nat.clog 2 capacity = w := by
    refine le_antisymm (Nat.clog_le_of_le_pow (le_of_lt hcap)) ?_
    have := (Nat.lt_clog_iff_pow_lt (b := 2) (by decide)).mpr hlarge
    omega
  rw [nextPowerOfTwo_eq (by omega), roundedCapacity, hclog, Nat.mod_self]
  exact ⟨max_eq_left (Nat.le_self_pow (by omega) 2), rfl⟩

/-- Two items fill a ring whose capacity wrapped, and the next push looks at the consumer. -/
theorem run_wrapped (hw : 2 ≤ w) (hnext : nextPowerOfTwo w capacity = 0) (a : α) :
    (channel w capacity).run w
        [.push a, .produce, .produce, .push a, .produce, .produce, .push a] =
      some ({ slots := [some a, some a], mask := 1, head := 0, tail := 2, cachedHead := 0
              cachedTail := 0, pushing := .reload a 2, popping := .idle },
        [.pushed a, .pushed a]) := by
  have hpow : 2 ^ 2 ≤ 2 ^ w := Nat.pow_le_pow_right (by decide) hw
  have hone : (0 + 1) % 2 ^ w = 1 := Nat.mod_eq_of_lt (by omega)
  have htwo : (1 + 1) % 2 ^ w = 2 := Nat.mod_eq_of_lt (by omega)
  have hsub : ∀ n < 2 ^ 2, wrapSub w n 0 = n := fun n hn => wrapSub_zero (by omega)
  simp [run, step, produce, channel, hnext, hone, htwo, hsub]

/-! ### The queue -/

/-- **When the ring is a bounded queue.** In every interleaving of pushes and pops the ring is a
first-in first-out queue of the capacity rounded up to a power of two exactly if the capacity is at
most half the range of the machine word. -/
theorem fifo_iff [Inhabited α] (w capacity : ℕ) (hw : 2 ≤ w) (hcap : capacity < 2 ^ w) :
    (∀ (steps : List (QueueStep α)) (q : Spsc α) (returned : List (QueueReturn α)),
        (channel w capacity).run w steps = some (q, returned) →
        Fifo w (roundedCapacity capacity) q returned) ↔
      capacity ≤ 2 ^ (w - 1) := by
  constructor
  · intro h
    by_contra hlarge
    obtain ⟨hrounded, hnext⟩ := roundedCapacity_of_lt hw (not_le.mp hlarge) hcap
    have hpow : 2 ^ 2 ≤ 2 ^ w := Nat.pow_le_pow_right (by decide) hw
    have hfull := (h _ _ _ (run_wrapped hw hnext default)).full .produce _ default
      (if_pos (wrapSub_zero (by omega)))
    -- two items are held, not `2 ^ w`
    rw [hrounded] at hfull
    change 2 = 0 + 2 ^ w at hfull
    omega
  · intro hle steps q returned hrun
    obtain ⟨k, hk, hrounded, hstart⟩ := holds_channel (α := α) hw hle
    obtain ⟨_, _, hholds⟩ := hstart.run hk hrun
    rw [hrounded]
    exact Holds.fifo hholds hk

/-- Four items fill the ring while the first is popped. The producer's copy of the head is then old
and the ring looks full, so it reads the head and writes item 9 over the first slot; item 10 finds
the ring full. The consumer goes on with an old copy of the tail. -/
def wrappingRun : List (QueueStep ℕ) :=
  [5, 6, 7].flatMap (fun a => [.push a, .produce, .produce]) ++ [.consume, .consume] ++
    [.push 8, .produce, .produce, .consume, .consume] ++
    [.push 9, .produce, .produce, .produce, .push 10, .produce, .consume, .consume, .consume]

theorem fifo_iff_four : ∃ q returned, (channel 64 4 : Spsc ℕ).run 64 wrappingRun =
      some (q, returned) ∧
    returned = [.pushed 5, .pushed 6, .pushed 7, .pushed 8, .popped 5, .pushed 9, .full 10,
      .popped 6] ∧
    q.slots = [some 9, none, some 7, some 8] ∧ q.tail = 5 ∧ q.cachedTail = 3 ∧
    Fifo 64 (roundedCapacity 4) q returned := by
  have hrun : (channel 64 4 : Spsc ℕ).run 64 wrappingRun =
      some ({ slots := [some 9, none, some 7, some 8], mask := 3, head := 2, tail := 5
              cachedHead := 1, cachedTail := 3, pushing := .idle, popping := .idle },
        [.pushed 5, .pushed 6, .pushed 7, .pushed 8, .popped 5, .pushed 9, .full 10,
          .popped 6]) := by decide +kernel
  exact ⟨_, _, hrun, rfl, rfl, rfl, rfl,
    (fifo_iff 64 4 (by decide) (by decide)).mpr (by decide) _ _ _ hrun⟩

/-- **A capacity that wraps to two slots**: of the capacity `2 ^ 63 + 1`, which rounds up to
`2 ^ 64`, the third push finds the queue full. -/
theorem two_slots : roundedCapacity (2 ^ 63 + 1) = 2 ^ 64 ∧
    ∃ q, (channel 64 (2 ^ 63 + 1) : Spsc ℕ).run 64
        [.push 7, .produce, .produce, .push 8, .produce, .produce, .push 9] =
          some (q, [.pushed 7, .pushed 8]) ∧
      ∃ q', q.step 64 .produce = some (q', some (.full 9)) := by
  refine ⟨(roundedCapacity_of_lt (w := 64) (by decide) (by decide) (by decide)).1,
    { slots := [some 7, some 8], mask := 1, head := 0, tail := 2, cachedHead := 0, cachedTail := 0,
      pushing := .reload 9 2, popping := .idle }, by decide +kernel, _, rfl⟩

end Spsc

end TradeCore
