import TradeCore.StrategySpec
import TradeCore.Lib.Ranking

/-!
# Size Priority and Pro Rata as Rankings

Both strategies rank the orders of a level: by a number, greatest first, then by time, then by
their place in the level. Size priority ranks by the size and serves the orders in that order.
Pro rata gives every order the whole lots of its proportional share, ranks by the fraction that
rounding cut off, and gives one lot more to the first ones, as many as there are lots left.

The code does not sort. It pops a heap as often as needed, and it splits the fractions at the
number of lots that are left.

## Main results

* `sizePriority_greedy` — size priority is the greedy distribution along its ranking, whatever the
  buffer for the heap held before.
* `proRata_largest_remainder` — pro rata is the largest-remainder division.

Both are about levels of up to `2 ^ 32` orders, the range of a position (`crowd_wrong_position`,
`crowd_twice_lucky`).
-/

open List
open Option hiding map_map mem_map mem_map_of_mem

namespace TradeCore

open Ranking

/-- The rank of an order at a position: greater numbers first, then earlier times, then earlier
positions. -/
def rankBy (key : RestingOrder → ℕ) (a : RestingOrder × ℕ) : ℕᵒᵈ ×ₗ ℕ ×ₗ ℕ :=
  toLex (OrderDual.toDual (key a.1), toLex (a.1.timestamp, a.2))

/-- The orders of a level with their positions have different ranks. -/
theorem nodup_rankBy (key : RestingOrder → ℕ) (view : List RestingOrder) :
    (view.zipIdx.map (rankBy key)).Nodup := by
  refine List.Nodup.of_map (fun x => (ofLex (ofLex x).2).2) ?_
  rw [map_map]
  have hsnd : (view.zipIdx.map ((fun x : ℕᵒᵈ ×ₗ ℕ ×ₗ ℕ => (ofLex (ofLex x).2).2) ∘ rankBy key)) =
      view.zipIdx.map Prod.snd := rfl
  rw [hsnd, zipIdx_map_snd]
  exact nodup_range'

/-! ### The heap -/

/-- The rank of an entry of the heap. -/
def BySize.rank (e : BySize) : ℕᵒᵈ ×ₗ ℕ ×ₗ ℕ :=
  toLex (OrderDual.toDual e.remaining, toLex (e.timestamp, e.idx))

/-- The order of the heap is the reverse of the ranking. -/
theorem BySize.lt_iff (a b : BySize) : a.lt b = true ↔ b.rank < a.rank := by
  simp only [BySize.lt, BySize.rank, Prod.Lex.toLex_lt_toLex, OrderDual.toDual_lt_toDual,
    OrderDual.toDual_inj, Bool.or_eq_true, Bool.and_eq_true, decide_eq_true_eq, beq_iff_eq]
  omega

/-- **A pop returns the entry that ranks first.** -/
theorem popMax_rank_le {heap rest : List BySize} {m : BySize} (h : popMax heap = some (m, rest)) :
    ∀ e ∈ rest, m.rank ≤ e.rank := by
  induction heap generalizing m rest with
  | nil => cases h
  | cons x xs ih =>
    rw [popMax] at h
    split at h
    · cases h
      exact fun e he => absurd he not_mem_nil
    · rename_i m' rest' hpop
      split at h
      · rename_i hlt
        cases h
        rw [BySize.lt_iff] at hlt
        intro e he
        rcases mem_cons.mp ((popMax_perm hpop).mem_iff.mp he) with rfl | he
        · exact le_of_lt hlt
        · exact le_of_lt (lt_of_lt_of_le hlt (ih hpop e he))
      · rename_i hge
        cases h
        rw [BySize.lt_iff, not_lt] at hge
        intro e he
        rcases mem_cons.mp he with rfl | he
        · exact hge
        · exact ih hpop e he

/-- The allocation for a heap entry. -/
def allocationOf (view : List RestingOrder) (x : BySize × ℕ) : Allocation :=
  { id := ((view[x.1.idx]?).map RestingOrder.id).getD 0, qty := x.2, idx := x.1.idx }

/-- **The pop loop serves the entries in the order of their ranks.** -/
theorem sizePriorityPops_eq {view : List RestingOrder} {n : ℕ} {heap : List BySize}
    (hn : heap.length ≤ n) (hpos : ∀ e ∈ heap, 0 < e.remaining)
    (hnodup : (heap.map BySize.rank).Nodup) (lots : ℕ) :
    sizePriorityPops view n lots heap =
      (greedy BySize.remaining lots (ranked BySize.rank heap)).map (allocationOf view) := by
  induction n generalizing lots heap with
  | zero =>
    obtain rfl : heap = [] := length_eq_zero_iff.mp (Nat.le_zero.mp hn)
    rfl
  | succ n ih =>
    rw [sizePriorityPops]
    split
    · rename_i hz
      rw [hz, greedy_zero, map_nil]
    · rename_i hlots
      cases hpop : popMax heap with
      | none =>
        rw [popMax_eq_none hpop]
        rfl
      | some r =>
        obtain ⟨m, rest⟩ := r
        have hperm := popMax_perm hpop
        have hnodup' := (hperm.map BySize.rank).nodup_iff.mp hnodup
        rw [map_cons, nodup_cons] at hnodup'
        have hleast : ∀ e ∈ rest, m.rank < e.rank := fun e he =>
          lt_of_le_of_ne (popMax_rank_le hpop e he) fun heq =>
            hnodup'.1 (heq ▸ mem_map_of_mem he)
        have hm := hpos m (hperm.mem_iff.mpr mem_cons_self)
        have hlen := hperm.length_eq
        rw [length_cons] at hlen
        have hrest := @ih rest (by omega)
          (fun e he => hpos e (hperm.mem_iff.mpr (mem_cons_of_mem _ he))) hnodup'.2
          (lots - min lots m.remaining)
        rw [ranked_eq_cons hnodup hperm hleast, greedy, if_neg hlots]
        simp only
        rw [if_pos (by omega), hrest, map_cons]
        rfl

/-! ### Size priority -/

/-- The pop loop of `SizePriority::allocate_into` with what it leaves in the heap. -/
def sizePriorityLoop (resting : List RestingOrder) :
    ℕ → ℕ → List BySize → List Allocation × List BySize
  | 0, _, heap => ([], heap)
  | n + 1, remaining, heap =>
    if remaining = 0 then ([], heap)
    else
      match popMax heap with
      | none => ([], heap)
      | some (top, heap') =>
        let fill := min remaining top.remaining
        if 0 < fill then
          let (out, left) := sizePriorityLoop resting n (remaining - fill) heap'
          ({ id := ((resting[top.idx]?).map RestingOrder.id).getD 0, qty := fill,
             idx := top.idx } :: out, left)
        else sizePriorityLoop resting n remaining heap'

/-- `SizePriority::allocate_into` with the buffer that it takes for the heap and hands back. -/
def sizePriorityAllocateInto (scratch : List BySize) (resting : List RestingOrder)
    (incoming : ℕ) : List Allocation × List BySize :=
  if incoming = 0 then ([], scratch)
  else
    match resting with
    | [r] =>
      let fill := min incoming r.remaining
      (if 0 < fill then [{ id := r.id, qty := fill, idx := 0 }] else [], scratch)
    | _ =>
      -- the buffer is cleared and filled again
      let storage := scratch.take 0 ++ resting.zipIdx.map fun (r, i) =>
        { remaining := r.remaining, timestamp := r.timestamp, idx := i % 2 ^ 32 : BySize }
      sizePriorityLoop resting storage.length incoming storage

@[simp] theorem sizePriorityPops_zero (view : List RestingOrder) (n : ℕ) (heap : List BySize) :
    sizePriorityPops view n 0 heap = [] := by
  cases n <;> rfl

theorem fst_sizePriorityLoop (resting : List RestingOrder) (n remaining : ℕ) (heap : List BySize) :
    (sizePriorityLoop resting n remaining heap).1 = sizePriorityPops resting n remaining heap := by
  induction n generalizing remaining heap with
  | zero => rfl
  | succ n ih =>
    rw [sizePriorityLoop, sizePriorityPops]
    by_cases hzero : remaining = 0
    · rw [if_pos hzero, if_pos hzero]
    · rw [if_neg hzero, if_neg hzero]
      cases hpop : popMax heap with
      | none => rfl
      | some popped =>
        obtain ⟨top, rest⟩ := popped
        by_cases hfill : 0 < min remaining top.remaining
        · simp only [if_pos hfill, ih]
        · simp only [if_neg hfill, ih]

/-- The buffer does not matter. -/
theorem fst_sizePriorityAllocateInto (scratch : List BySize) (view : List RestingOrder)
    (lots : ℕ) :
    (sizePriorityAllocateInto scratch view lots).1 = Strategy.sizePriority.allocate view lots := by
  rw [Strategy.allocate]
  unfold sizePriorityAllocateInto sizePriorityAllocate
  by_cases hzero : lots = 0
  · rw [if_pos hzero, if_pos hzero]
  · rw [if_neg hzero, if_neg hzero]
    rcases view with _ | ⟨r, _ | ⟨r', view⟩⟩
    · rfl
    · rfl
    · simp only [take_zero, nil_append, fst_sizePriorityLoop]

/-- The ranking of size priority. -/
def rankedBySize (view : List RestingOrder) : List (RestingOrder × ℕ) :=
  ranked (rankBy RestingOrder.remaining) view.zipIdx

/-- An order that is filled, at its position. -/
def allocationAt (x : (RestingOrder × ℕ) × ℕ) : Allocation :=
  { id := x.1.1.id, qty := x.2, idx := x.1.2 }

section Views

variable {view : List RestingOrder}

/-- The positions of a short level do not wrap. -/
theorem bySizeEntries_eq (hlen : view.length ≤ 2 ^ 32) :
    bySizeEntries view = view.zipIdx.map fun a => ⟨a.1.remaining, a.1.timestamp, a.2⟩ := by
  refine map_congr_left fun a ha => ?_
  simp only [position_eq hlen (mem_zipIdx_iff_getElem?.mp ha)]

/-- The allocation of an entry is that of the order at its position. -/
theorem map_allocationOf {l : List ((RestingOrder × ℕ) × ℕ)} (h : ∀ x ∈ l, x.1 ∈ view.zipIdx) :
    (l.map fun x => (⟨x.1.1.remaining, x.1.1.timestamp, x.1.2⟩, x.2)).map (allocationOf view) =
      l.map allocationAt := by
  rw [map_map]
  refine map_congr_left fun x hx => ?_
  have hget := mem_zipIdx_iff_getElem?.mp (h x hx)
  simp only [Function.comp_apply, allocationOf, allocationAt, hget, map_some, getD_some]

/-- The orders that are served, by their positions. -/
theorem mem_of_mem_greedy {lots : ℕ} {x : (RestingOrder × ℕ) × ℕ}
    (hx : x ∈ greedy (fun a => a.1.remaining) lots (rankedBySize view)) : x.1 ∈ view.zipIdx :=
  (perm_ranked _ _).mem_iff.mp ((map_fst_greedy _ _).subset (mem_map_of_mem hx))

/-- **Size priority serves the orders in the order of their ranks.** -/
theorem sizePriority_allocate_eq (hpos : ∀ r ∈ view, 0 < r.remaining) (hlen : view.length ≤ 2 ^ 32)
    (lots : ℕ) : Strategy.sizePriority.allocate view lots =
      (greedy (fun a => a.1.remaining) lots (rankedBySize view)).map allocationAt := by
  have h := @allots_allocate .sizePriority view nofun lots
  generalize Strategy.sizePriority.allocate view lots = allocs at h
  cases h with
  | nothing hmin =>
    cases view with
    | nil => rfl
    | cons r rest =>
      have hr := hpos r mem_cons_self
      rw [viewTotal_cons] at hmin
      rw [show lots = 0 by omega, greedy_zero, map_nil]
  | @single _ r hview hfill =>
    have hranked : rankedBySize [r] = [(r, 0)] := rfl
    rw [hview, hranked, greedy, if_neg (by omega)]
    rfl
  | pops =>
    have hentries : ∀ e ∈ bySizeEntries view, 0 < e.remaining := by
      intro e he
      obtain ⟨i, r, hr, heq, -⟩ := mem_bySizeEntries he
      rw [heq]
      exact hpos r (mem_of_getElem? hr)
    have hnodup : ((bySizeEntries view).map BySize.rank).Nodup := by
      rw [bySizeEntries_eq hlen, map_map]
      exact nodup_rankBy RestingOrder.remaining view
    rw [sizePriorityPops_eq le_rfl hentries hnodup, bySizeEntries_eq hlen, ranked_map, greedy_map]
    exact map_allocationOf fun x hx => mem_of_mem_greedy hx

end Views

/-- **Size priority is the greedy distribution along its ranking**, for a level of up to `2 ^ 32`
orders and whatever the buffer held: all orders but the last one that is served are filled
completely, every fill is positive and names another order by its position, and as much is filled
as there is. -/
theorem sizePriority_greedy (view : List RestingOrder) (lots : ℕ) (scratch : List BySize)
    (hpos : ∀ r ∈ view, 0 < r.remaining) (hlen : view.length ≤ 2 ^ 32) :
    (rankedBySize view).Perm view.zipIdx ∧
    (rankedBySize view).Pairwise (fun a b =>
      rankBy RestingOrder.remaining a < rankBy RestingOrder.remaining b) ∧
    ∃ out, (sizePriorityAllocateInto scratch view lots).1 = out ∧
      Strategy.sizePriority.allocate view lots = out ∧
      out = (greedy (fun a => a.1.remaining) lots (rankedBySize view)).map allocationAt ∧
      (∀ before a after, out = before ++ a :: after → after ≠ [] →
        ∃ r, view[a.idx]? = some r ∧ a.qty = r.remaining) ∧
      (∀ a ∈ out, 0 < a.qty ∧ ∃ r, view[a.idx]? = some r ∧ a.id = r.id ∧ a.qty ≤ r.remaining) ∧
      (out.map Allocation.idx).Nodup ∧ allocated out = min lots (viewTotal view) := by
  have hsum : Strategy.sizePriority = .proRata → viewTotal view < 2 ^ 64 := nofun
  refine ⟨perm_ranked _ _, pairwise_lt_ranked (nodup_rankBy _ view), _,
    fst_sizePriorityAllocateInto scratch view lots, rfl, sizePriority_allocate_eq hpos hlen lots,
    ?_,
    fun a ha => ⟨allocate_pos _ hsum hpos ha, allocate_names _ hsum hpos hlen ha⟩,
    allocate_nodup _ hsum hlen, allocate_total _ hsum hpos⟩
  intro before a after h hafter
  rw [sizePriority_allocate_eq hpos hlen lots] at h
  obtain ⟨before', rest, hsplit, -, hrest⟩ := map_eq_append_iff.mp h
  obtain ⟨x, after', rfl, rfl, rfl⟩ := map_eq_cons_iff.mp hrest
  have hx : x ∈ greedy (fun a => a.1.remaining) lots (rankedBySize view) := by
    rw [hsplit]
    exact mem_append_cons_self
  refine ⟨x.1.1, mem_zipIdx_iff_getElem?.mp (mem_of_mem_greedy hx), ?_⟩
  exact greedy_full hsplit fun hnil => hafter (by rw [hnil, map_nil])

/-- Three orders and a buffer that still holds an entry. -/
theorem sizePriority_greedy_three :
    Strategy.sizePriority.allocate [⟨7, 2, 5, 0⟩, ⟨8, 4, 6, 0⟩, ⟨9, 4, 5, 0⟩] 5 =
      [⟨9, 4, 2⟩, ⟨8, 1, 1⟩] ∧
    allocated (sizePriorityAllocateInto [⟨3, 0, 1⟩]
      [⟨7, 2, 5, 0⟩, ⟨8, 4, 6, 0⟩, ⟨9, 4, 5, 0⟩] 5).1 = 5 := by
  refine ⟨by decide +kernel, ?_⟩
  obtain ⟨-, -, out, rfl, -, -, -, -, -, h⟩ := sizePriority_greedy
    [⟨7, 2, 5, 0⟩, ⟨8, 4, 6, 0⟩, ⟨9, 4, 5, 0⟩] 5 [⟨3, 0, 1⟩] (by decide) (by decide)
  exact h

/-- A level whose largest order stands behind `2 ^ 32` orders of one lot. -/
def crowdBeforeLargest : List RestingOrder :=
  List.replicate (2 ^ 32) ⟨1, 1, 0, 0⟩ ++ [⟨2, 2, 0, 0⟩]

theorem mem_bySizeEntries_crowd {e : BySize} (he : e ∈ bySizeEntries crowdBeforeLargest) :
    e.remaining = 1 ∨ e = ⟨2, 0, 0⟩ := by
  rw [bySizeEntries, crowdBeforeLargest, zipIdx_append, map_append, mem_append] at he
  rcases he with he | he
  · obtain ⟨⟨r, i⟩, ha, rfl⟩ := mem_map.mp he
    have hmem := fst_mem_of_mem_zipIdx ha
    exact .inl (congrArg RestingOrder.remaining (eq_of_mem_replicate hmem))
  · rw [length_replicate] at he
    exact .inr (mem_singleton.mp he)

/-- The largest order is the first that is popped, as an entry for position 0. -/
theorem popMax_crowd :
    ∃ rest, popMax (bySizeEntries crowdBeforeLargest) = some (⟨2, 0, 0⟩, rest) := by
  have hmem : ⟨2, 0, 0⟩ ∈ bySizeEntries crowdBeforeLargest := by
    rw [bySizeEntries, crowdBeforeLargest, zipIdx_append, map_append, mem_append, length_replicate]
    exact .inr mem_cons_self
  cases hpop : popMax (bySizeEntries crowdBeforeLargest) with
  | none =>
    rw [popMax_eq_none hpop] at hmem
    cases hmem
  | some popped =>
    obtain ⟨top, rest⟩ := popped
    have hperm := popMax_perm hpop
    rcases mem_bySizeEntries_crowd (hperm.mem_iff.mpr mem_cons_self) with htop | rfl
    · -- an order of one lot does not rank before it
      rcases mem_cons.mp (hperm.mem_iff.mp hmem) with rfl | hrest
      · exact absurd htop (by decide)
      · have hle := popMax_rank_le hpop _ hrest
        rw [← not_lt, ← BySize.lt_iff, BySize.lt, htop] at hle
        exact absurd rfl hle
    · exact ⟨rest, rfl⟩

/-- The largest order ranks first. -/
theorem rankedBySize_crowd :
    ∃ rest, rankedBySize crowdBeforeLargest = (⟨2, 2, 0, 0⟩, 2 ^ 32) :: rest := by
  have hzip : crowdBeforeLargest.zipIdx =
      (List.replicate (2 ^ 32) ⟨1, 1, 0, 0⟩).zipIdx ++ [(⟨2, 2, 0, 0⟩, 2 ^ 32)] := by
    rw [crowdBeforeLargest, zipIdx_append, length_replicate, zero_add]
    rfl
  have hperm : crowdBeforeLargest.zipIdx.Perm
      ((⟨2, 2, 0, 0⟩, 2 ^ 32) :: (List.replicate (2 ^ 32) ⟨1, 1, 0, 0⟩).zipIdx) := by
    rw [hzip]
    exact perm_append_singleton _ _
  refine ⟨_, ranked_eq_cons (nodup_rankBy _ _) hperm ?_⟩
  rintro ⟨r, i⟩ ha
  obtain rfl : r = ⟨1, 1, 0, 0⟩ := eq_of_mem_replicate (fst_mem_of_mem_zipIdx ha)
  rw [rankBy, rankBy, Prod.Lex.toLex_lt_toLex]
  exact .inl (OrderDual.toDual_lt_toDual.mpr Nat.one_lt_two)

/-- The position of the largest order is wrapped to that of the first one: the lot is taken from
order 1, although order 2 ranks first. -/
theorem crowd_wrong_position :
    (∀ r ∈ crowdBeforeLargest, 0 < r.remaining) ∧
    Strategy.sizePriority.allocate crowdBeforeLargest 1 = [⟨1, 1, 0⟩] ∧
    (greedy (fun a => a.1.remaining) 1 (rankedBySize crowdBeforeLargest)).map allocationAt =
      [⟨2, 1, 2 ^ 32⟩] := by
  have hlen : crowdBeforeLargest.length = 2 ^ 32 + 1 := by
    rw [crowdBeforeLargest, length_append, length_replicate, length_singleton]
  refine ⟨?_, ?_, ?_⟩
  · intro r hr
    rcases mem_append.mp hr with hr | hr
    · rw [eq_of_mem_replicate hr]
      exact one_pos
    · rw [mem_singleton.mp hr]
      exact Nat.two_pos
  · have h := @allots_allocate .sizePriority crowdBeforeLargest nofun 1
    generalize Strategy.sizePriority.allocate crowdBeforeLargest 1 = allocs at h
    cases h with
    | nothing hmin =>
      have htwo : 2 ≤ viewTotal crowdBeforeLargest := by
        rw [viewTotal, crowdBeforeLargest, map_append, sum_append, map_singleton, sum_singleton]
        generalize (map RestingOrder.remaining (replicate _ _)).sum = crowd
        exact Nat.le_add_left 2 crowd
      omega
    | single hview =>
      rw [hview, length_singleton] at hlen
      exact absurd hlen (by decide)
    | pops =>
      obtain ⟨rest, hpop⟩ := popMax_crowd
      have hhead : crowdBeforeLargest[0]? = some ⟨1, 1, 0, 0⟩ := by
        rw [crowdBeforeLargest, getElem?_append_left (by rw [length_replicate]; decide),
          getElem?_replicate, if_pos (by decide)]
      rw [bySizeEntries, length_map, length_zipIdx, hlen, ← bySizeEntries,
        sizePriorityPops, if_neg one_ne_zero, hpop]
      simp only [hhead]
      rw [if_pos (by decide), show 1 - min 1 2 = 0 from rfl, sizePriorityPops_zero]
      rfl
  · obtain ⟨rest, h⟩ := rankedBySize_crowd
    rw [h, greedy, if_neg one_ne_zero, show 1 - min 1 _ = 0 from rfl, greedy_zero]
    rfl

/-! ### Pro rata -/

section Division

variable (view : List RestingOrder) (f : ℕ)

/-- The whole lots of an order's proportional share of `f` lots. -/
def floorShare (r : RestingOrder) : ℕ :=
  f * r.remaining / viewTotal view

/-- The ranking of pro rata: by the fraction that rounding cuts off. -/
def rankedByRemainder : List (RestingOrder × ℕ) :=
  ranked (rankBy fun r => f * r.remaining % viewTotal view) view.zipIdx

/-- The lots that are left after rounding. -/
def extraLots : ℕ :=
  f - (view.map (floorShare view f)).sum

/-- The first ones of the ranking, as many as there are lots left. -/
def luckyOrders : List (RestingOrder × ℕ) :=
  (rankedByRemainder view f).take (extraLots view f)

/-- **The largest-remainder division** of `f` lots over a level. -/
def largestRemainder : List ((RestingOrder × ℕ) × ℕ) :=
  view.zipIdx.map fun a => (a, floorShare view f a.1 + if a ∈ luckyOrders view f then 1 else 0)

theorem map_floorShare : view.map (floorShare view f) =
    Apportion.shares f (viewTotal view) (view.map RestingOrder.remaining) := by
  rw [Apportion.shares, map_map]
  rfl

@[simp] theorem floorShare_zero (r : RestingOrder) : floorShare view 0 r = 0 := by
  rw [floorShare, zero_mul, Nat.zero_div]

@[simp] theorem extraLots_zero : extraLots view 0 = 0 := Nat.zero_sub _

end Division

section ProRataRanks

variable {view : List RestingOrder} {f : ℕ}

/-- The entries of a short level have the positions and times of its orders. -/
theorem remainders_eq (hlen : view.length ≤ 2 ^ 32) (T : ℕ) :
    remainders view f T = view.zipIdx.map fun a => (a.2, f * a.1.remaining % T, a.1.timestamp) := by
  rw [remainders]
  refine map_congr_left fun a ha => ?_
  have hget := mem_zipIdx_iff_getElem?.mp ha
  simp only [position_eq hlen hget, hget, map_some, getD_some]

/-- The comparison of the entries is that of the ranks. -/
theorem byRemainder_iff (key : RestingOrder → ℕ) (a b : RestingOrder × ℕ) :
    rankBy key a ≤ rankBy key b ↔
      byRemainder (a.2, key a.1, a.1.timestamp) (b.2, key b.1, b.1.timestamp) = true := by
  simp only [byRemainder, rankBy, Prod.Lex.toLex_le_toLex, OrderDual.toDual_lt_toDual,
    OrderDual.toDual_inj, Bool.or_eq_true, Bool.and_eq_true, decide_eq_true_eq, beq_iff_eq]

/-- A share of everything is the whole order, and nothing is left. -/
theorem floorShare_total {r : RestingOrder} (hT : 0 < viewTotal view) :
    floorShare view (viewTotal view) r = r.remaining :=
  Nat.mul_div_cancel_left _ hT

theorem extraLots_total (hT : 0 < viewTotal view) : extraLots view (viewTotal view) = 0 := by
  have hmap : view.map (floorShare view (viewTotal view)) = view.map RestingOrder.remaining :=
    map_congr_left fun r _ => floorShare_total hT
  rw [extraLots, hmap]
  exact Nat.sub_self _

/-- Rounding loses less than one lot for each order. -/
theorem extraLots_le (hf : f ≤ viewTotal view) : extraLots view f ≤ view.length := by
  rcases Nat.eq_zero_or_pos (viewTotal view) with hT | hT
  · obtain rfl : f = 0 := by omega
    rw [extraLots_zero]
    exact Nat.zero_le _
  · have hlt := @Apportion.leftover_lt f (viewTotal view) _ hT rfl
    rw [length_map, ← map_floorShare] at hlt
    exact le_of_lt hlt

theorem length_luckyOrders (hf : f ≤ viewTotal view) :
    (luckyOrders view f).length = extraLots view f := by
  have hle := extraLots_le hf
  have hlen : (rankedByRemainder view f).length = view.length := by
    rw [rankedByRemainder, (perm_ranked _ _).length_eq, length_zipIdx]
  rw [luckyOrders, length_take, hlen]
  exact Nat.min_eq_left hle

theorem luckyPositions_of_leftover {T left : ℕ}
    (hleft : wrappingSub 64 f ((flooredShares view f T).sum % 2 ^ 64) = left) (hpos : 0 < left)
    (hlt : left < view.length) : luckyPositions view f T =
      (((remainders view f T).insertionSort (byRemainder · ·)).take left).map Prod.fst := by
  have hlen : (remainders view f T).length = view.length := by
    rw [remainders, length_map, length_zipIdx]
  rw [luckyPositions]
  simp only [hleft, hlen]
  exact if_pos ⟨hpos, hlt⟩

instance byRemainder_total : Std.Total fun a b => byRemainder a b = true := by
  refine ⟨fun a b => ?_⟩
  simp only [byRemainder, Bool.or_eq_true, Bool.and_eq_true, decide_eq_true_eq, beq_iff_eq]
  omega

instance byRemainder_trans : IsTrans (ℕ × ℕ × ℕ) fun a b => byRemainder a b = true := by
  refine ⟨fun a b c => ?_⟩
  simp only [byRemainder, Bool.or_eq_true, Bool.and_eq_true, decide_eq_true_eq, beq_iff_eq]
  omega

theorem byRemainder_antisymm (a b : ℕ × ℕ × ℕ) (hab : byRemainder a b = true)
    (hba : byRemainder b a = true) : a = b := by
  obtain ⟨a1, a2, a3⟩ := a
  obtain ⟨b1, b2, b3⟩ := b
  simp only [byRemainder, Bool.or_eq_true, Bool.and_eq_true, decide_eq_true_eq,
    beq_iff_eq] at hab hba
  simp only [Prod.mk.injEq]
  omega

/-- **Any selection hands out the same lots.** `select_nth_unstable_by` promises only that no entry
of the rest ranks before one of the front. -/
theorem finalShares_of_select {T : ℕ} {front rest : List (ℕ × ℕ × ℕ)}
    (hleft : wrappingSub 64 f ((flooredShares view f T).sum % 2 ^ 64) = front.length)
    (hpos : 0 < front.length) (hlt : front.length < view.length)
    (hperm : (front ++ rest).Perm (remainders view f T))
    (hle : ∀ a ∈ front, ∀ b ∈ rest, byRemainder a b = true) :
    (flooredShares view f T).zipIdx.map (fun (b, i) => b + (front.map Prod.fst).count i) =
      finalShares view f T := by
  have hlucky : (front.map Prod.fst).Perm (luckyPositions view f T) := by
    rw [luckyPositions_of_leftover hleft hpos hlt]
    exact (perm_take_insertionSort byRemainder_antisymm hperm hle).map Prod.fst
  exact map_congr_left fun x _ => congrArg (x.1 + ·) (hlucky.count_eq x.2)

/-- A position is lucky as often as its order is. -/
theorem count_luckyOrders {a : RestingOrder × ℕ} (ha : a ∈ view.zipIdx) :
    ((luckyOrders view f).map Prod.snd).count a.2 = if a ∈ luckyOrders view f then 1 else 0 := by
  have hsub : ∀ b ∈ luckyOrders view f, b ∈ view.zipIdx := fun b hb =>
    (perm_ranked _ _).mem_iff.mp (mem_of_mem_take hb)
  have hnodup : ((luckyOrders view f).map Prod.snd).Nodup := by
    refine List.Nodup.sublist ((take_sublist _ _).map _) ?_
    rw [rankedByRemainder, ((perm_ranked _ _).map Prod.snd).nodup_iff, zipIdx_map_snd]
    exact nodup_range'
  -- the orders are told apart by their positions
  have hmem : a.2 ∈ (luckyOrders view f).map Prod.snd ↔ a ∈ luckyOrders view f := by
    refine ⟨fun h => ?_, mem_map_of_mem⟩
    obtain ⟨b, hb, heq⟩ := mem_map.mp h
    have hget := mem_zipIdx_iff_getElem?.mp (hsub b hb)
    rw [heq, mem_zipIdx_iff_getElem?.mp ha] at hget
    obtain rfl : a = b := Prod.ext (some.inj hget) heq.symm
    exact hb
  rw [hnodup.count]
  simp only [hmem]

/-- Emitting the shares drops the empty ones and keeps the order of the level. -/
theorem emitShares_eq (hlen : view.length ≤ 2 ^ 32) (share : RestingOrder × ℕ → ℕ) :
    emitShares view (view.zipIdx.map share) =
      ((view.zipIdx.map fun a => (a, share a)).filter fun x => 0 < x.2).map allocationAt := by
  have hzip : (view.zip (view.zipIdx.map share)).zipIdx =
      view.zipIdx.map fun a => ((a.1, share a), a.2) := by
    refine ext_getElem? fun i => ?_
    simp [getElem?_zipIdx, List.zip, getElem?_zipWith]
    cases view[i]? <;> rfl
  rw [emitShares, hzip, filterMap_map, List.filter_map, map_map, ← filterMap_eq_map,
    filterMap_filter]
  refine filterMap_congr fun a ha => ?_
  simp only [Function.comp_apply, position_eq hlen (mem_zipIdx_iff_getElem?.mp ha), allocationAt,
    decide_eq_true_eq]

/-- A share that is not empty is emitted. -/
theorem mem_emitShares_of_getElem? {shares : List ℕ} {i b : ℕ} {r : RestingOrder}
    (hr : view[i]? = some r) (hb : shares[i]? = some b) (hpos : 0 < b) :
    { id := r.id, qty := b, idx := i % 2 ^ 32 } ∈ emitShares view shares := by
  refine mem_filterMap.mpr ⟨((r, b), i), mem_zipIdx_iff_getElem?.mpr ?_, if_pos hpos⟩
  exact getElem?_zip_eq_some.mpr ⟨hr, hb⟩

/-- Everything divided is everybody's own. -/
theorem largestRemainder_total (view : List RestingOrder) :
    largestRemainder view (viewTotal view) = view.zipIdx.map fun a => (a, a.1.remaining) := by
  refine map_congr_left fun a ha => ?_
  have hle : a.1.remaining ≤ viewTotal view :=
    single_le_sum (by simp) _ (mem_map_of_mem (fst_mem_of_mem_zipIdx ha))
  rcases Nat.eq_zero_or_pos (viewTotal view) with hT | hT
  · rw [luckyOrders, hT, floorShare_zero, extraLots_zero, take_zero, if_neg not_mem_nil]
    exact congrArg (Prod.mk a) (by omega)
  · rw [luckyOrders, floorShare_total hT, extraLots_total hT, take_zero,
      if_neg not_mem_nil, add_zero]

/-- **No share exceeds its order.** -/
theorem largestRemainder_le (hpos : ∀ r ∈ view, 0 < r.remaining) (hf : f ≤ viewTotal view)
    {x : (RestingOrder × ℕ) × ℕ} (hx : x ∈ largestRemainder view f) : x.2 ≤ x.1.1.remaining := by
  rcases Nat.lt_or_eq_of_le hf with hlt | rfl
  · obtain ⟨a, ha, rfl⟩ := mem_map.mp hx
    have hshare : floorShare view f a.1 < a.1.remaining :=
      Apportion.share_lt hlt (hpos a.1 (fst_mem_of_mem_zipIdx ha))
    simp only
    split <;> omega
  · rw [largestRemainder_total] at hx
    obtain ⟨a, ha, rfl⟩ := mem_map.mp hx
    exact le_rfl

variable (hpos : ∀ r ∈ view, 0 < r.remaining) (hsum : viewTotal view < 2 ^ 64)
  (hlen : view.length ≤ 2 ^ 32)
include hpos hsum hlen

/-- The split of the fractions finds the first ones of the ranking. -/
theorem luckyPositions_eq (hf : f < viewTotal view) :
    luckyPositions view f (viewTotal view) = (luckyOrders view f).map Prod.snd := by
  have hT : 0 < viewTotal view := by omega
  have hle : (view.map (floorShare view f)).sum ≤ f := by
    rw [map_floorShare]
    exact Apportion.sum_shares_le hT rfl
  have hlt : extraLots view f < view.length := by
    have := @Apportion.leftover_lt f (viewTotal view) _ hT rfl
    rw [length_map, ← map_floorShare] at this
    exact this
  have hleft : wrappingSub 64 f ((flooredShares view f (viewTotal view)).sum % 2 ^ 64) =
      extraLots view f := by
    rw [flooredShares_eq hpos hsum hf, ← map_floorShare, Nat.mod_eq_of_lt (by omega),
      wrappingSub_of_le hle (by omega), extraLots]
  have hsorted : (remainders view f (viewTotal view)).insertionSort (byRemainder · ·) =
      (rankedByRemainder view f).map fun a =>
        (a.2, f * a.1.remaining % viewTotal view, a.1.timestamp) := by
    rw [remainders_eq hlen]
    exact (map_insertionSort _ _ _ _ fun a _ b _ => byRemainder_iff _ a b).symm
  by_cases hz : extraLots view f = 0
  · rw [luckyOrders, hz, take_zero, map_nil, luckyPositions]
    simp only [hleft, hz]
    exact if_neg (by omega)
  · rw [luckyPositions_of_leftover hleft (by omega) hlt, hsorted, luckyOrders, ← map_take, map_map]
    rfl

/-- The shares of the code are those of the division. -/
theorem finalShares_eq (hf : f < viewTotal view) :
    finalShares view f (viewTotal view) = (largestRemainder view f).map Prod.snd := by
  rw [finalShares, flooredShares_eq hpos hsum hf, ← map_floorShare, zipIdx_map, map_map,
    largestRemainder, map_map]
  refine map_congr_left fun a ha => ?_
  simp only [Function.comp_apply, Prod.map, id_eq, luckyPositions_eq hpos hsum hlen hf,
    count_luckyOrders ha]

/-- **The shares add up to what is divided.** -/
theorem sum_largestRemainder (hf : f ≤ viewTotal view) :
    ((largestRemainder view f).map Prod.snd).sum = f := by
  rcases Nat.lt_or_eq_of_le hf with hlt | rfl
  · rw [← finalShares_eq hpos hsum hlen hlt, sum_finalShares hpos hsum hlt]
  · have hfst : (view.zipIdx.map fun a => (a, a.1.remaining)).map Prod.snd =
        (view.zipIdx.map Prod.fst).map RestingOrder.remaining := by
      rw [map_map, map_map]
      rfl
    rw [largestRemainder_total, hfst, zipIdx_map_fst, viewTotal]

/-- **Pro rata hands out the shares of the division**, without the empty ones. -/
theorem proRata_allocate_eq (lots : ℕ) :
    Strategy.proRata.allocate view lots =
      ((largestRemainder view (min lots (viewTotal view))).filter fun x => 0 < x.2).map
        allocationAt := by
  have h := allots_allocate .proRata (fun _ => hsum) lots
  generalize Strategy.proRata.allocate view lots = allocs at h
  cases h with
  | nothing hmin =>
    have hnone : ∀ x ∈ largestRemainder view 0, ¬ 0 < x.2 := by
      intro x hx
      obtain ⟨a, -, rfl⟩ := mem_map.mp hx
      simp [luckyOrders]
    rw [hmin, filter_eq_nil_iff.mpr fun x hx => by simpa using hnone x hx, map_nil]
  | all hle =>
    have hall : ∀ x ∈ view.zipIdx.map fun a => (a, a.1.remaining), 0 < x.2 := by
      intro x hx
      obtain ⟨a, ha, rfl⟩ := mem_map.mp hx
      exact hpos a.1 (fst_mem_of_mem_zipIdx ha)
    rw [Nat.min_eq_right hle, largestRemainder_total,
      filter_eq_self.mpr fun x hx => decide_eq_true (hall x hx), map_map, emitAll]
    refine map_congr_left fun a ha => ?_
    rw [position_eq hlen (mem_zipIdx_iff_getElem?.mp ha)]
    rfl
  | @single _ r hview hfill =>
    -- the floor of a single order is everything
    subst hview
    have htotal : viewTotal [r] = r.remaining := sum_singleton
    have hfloor : floorShare [r] (min lots r.remaining) r = min lots r.remaining := by
      rw [floorShare, htotal, Nat.mul_div_cancel _ (hpos r mem_cons_self)]
    have hextra : extraLots [r] (min lots r.remaining) = 0 := by
      rw [extraLots, map_singleton, sum_singleton, hfloor, Nat.sub_self]
    have hshares : largestRemainder [r] (min lots r.remaining) =
        [((r, 0), min lots r.remaining)] := by
      rw [largestRemainder, luckyOrders, hextra, take_zero]
      simp [hfloor]
    rw [htotal, hshares,
      filter_eq_self.mpr fun x hx => by rw [mem_singleton.mp hx]; exact decide_eq_true hfill]
    rfl
  | shares hlt =>
    rw [Nat.min_eq_left hlt.le, finalShares_eq hpos hsum hlen hlt, largestRemainder, map_map]
    exact emitShares_eq hlen _

end ProRataRanks

/-- **Pro rata is the largest-remainder division**, for a level of up to `2 ^ 32` orders. The
ranking is a strict order of the level, as many orders get a lot more as rounding leaves lots, the
shares add up to what the level can give of the quantity, and no share exceeds its order. -/
theorem proRata_largest_remainder (view : List RestingOrder) (lots : ℕ)
    (hpos : ∀ r ∈ view, 0 < r.remaining) (hsum : viewTotal view < 2 ^ 64)
    (hlen : view.length ≤ 2 ^ 32) : ∃ f, f = min lots (viewTotal view) ∧
    (rankedByRemainder view f).Perm view.zipIdx ∧
    (rankedByRemainder view f).Pairwise (fun a b =>
      rankBy (fun r => f * r.remaining % viewTotal view) a <
        rankBy (fun r => f * r.remaining % viewTotal view) b) ∧
    (luckyOrders view f).length = f - (view.map (floorShare view f)).sum ∧
    ((largestRemainder view f).map Prod.snd).sum = f ∧
    (∀ x ∈ largestRemainder view f, x.2 ≤ x.1.1.remaining) ∧
    Strategy.proRata.allocate view lots =
      ((largestRemainder view f).filter fun x => 0 < x.2).map allocationAt ∧
    allocated (Strategy.proRata.allocate view lots) = f := by
  have hf : min lots (viewTotal view) ≤ viewTotal view := Nat.min_le_right _ _
  exact ⟨_, rfl, perm_ranked _ _, pairwise_lt_ranked (nodup_rankBy _ view), length_luckyOrders hf,
    sum_largestRemainder hpos hsum hlen hf, fun x hx => largestRemainder_le hpos hf hx,
    proRata_allocate_eq hpos hsum hlen lots, allocate_total _ (fun _ => hsum) hpos⟩

/-- Five lots over three orders: the lot that rounding leaves goes to the earlier of two equal
fractions. -/
theorem proRata_largest_remainder_three :
    Strategy.proRata.allocate [⟨7, 2, 6, 0⟩, ⟨8, 2, 5, 0⟩, ⟨9, 3, 7, 0⟩] 5 =
      [⟨7, 1, 0⟩, ⟨8, 2, 1⟩, ⟨9, 2, 2⟩] ∧
    ((largestRemainder [⟨7, 2, 6, 0⟩, ⟨8, 2, 5, 0⟩, ⟨9, 3, 7, 0⟩] 5).map Prod.snd).sum = 5 := by
  refine ⟨by decide +kernel, ?_⟩
  obtain ⟨f, hf, -, -, -, h, -⟩ := proRata_largest_remainder
    [⟨7, 2, 6, 0⟩, ⟨8, 2, 5, 0⟩, ⟨9, 3, 7, 0⟩] 5 (by decide) (by decide) (by decide)
  rw [hf] at h
  exact h

/-- A level of one order more than there are positions, all of one lot. -/
def crowdOfEqual : List RestingOrder := List.replicate (2 ^ 32 + 1) ⟨1, 1, 0, 0⟩

/-- The last order has position 0 once more. -/
theorem remainders_crowd (f : ℕ) (hf : f < 2 ^ 32 + 1) :
    remainders crowdOfEqual f (2 ^ 32 + 1) =
      (List.range' 0 (2 ^ 32)).map (fun i => (i, f, 0)) ++ [(0, f, 0)] := by
  have hentry : remainders crowdOfEqual f (2 ^ 32 + 1) =
      (crowdOfEqual.zipIdx.map Prod.snd).map fun i => (i % 2 ^ 32, f, 0) := by
    rw [remainders, map_map]
    refine map_congr_left fun a ha => ?_
    have hr : a.1 = ⟨1, 1, 0, 0⟩ := eq_of_mem_replicate (fst_mem_of_mem_zipIdx ha)
    have hget : crowdOfEqual[a.2 % 2 ^ 32]? = some ⟨1, 1, 0, 0⟩ := by
      rw [crowdOfEqual, getElem?_replicate, if_pos (by omega)]
    simp only [hr, hget, mul_one, Nat.mod_eq_of_lt hf, Function.comp_apply]
    rfl
  rw [hentry, zipIdx_map_snd, crowdOfEqual, length_replicate, range'_1_concat, map_append]
  refine congrArg₂ (· ++ ·) (map_congr_left fun i hi => ?_) rfl
  rw [Nat.mod_eq_of_lt]
  have := mem_range'_1.mp hi
  omega

/-- Both entries of position 0 are sorted to the front. -/
theorem sorted_crowd (f : ℕ) (hf : f < 2 ^ 32 + 1) :
    (remainders crowdOfEqual f (2 ^ 32 + 1)).insertionSort (byRemainder · ·) =
      (0, f, 0) :: (List.range' 0 (2 ^ 32)).map fun i => (i, f, 0) := by
  have hperm : ((remainders crowdOfEqual f (2 ^ 32 + 1)).insertionSort (byRemainder · ·)).Perm
      ((0, f, 0) :: (List.range' 0 (2 ^ 32)).map fun i => (i, f, 0)) := by
    refine (perm_insertionSort _ _).trans ?_
    rw [remainders_crowd f hf]
    exact perm_append_singleton _ _
  refine hperm.eq_of_pairwise (fun a b _ _ => byRemainder_antisymm a b)
    (pairwise_insertionSort _ _) ?_
  refine pairwise_cons.mpr ⟨?_, ?_⟩
  · intro e he
    obtain ⟨i, -, rfl⟩ := mem_map.mp he
    simp [byRemainder]
  · have hlt : (List.range' 0 (2 ^ 32)).Pairwise (· < ·) := pairwise_lt_range' ..
    refine pairwise_map.mpr (hlt.imp fun hij => ?_)
    simpa [byRemainder] using le_of_lt hij

theorem viewTotal_crowd : viewTotal crowdOfEqual = 2 ^ 32 + 1 := by
  rw [viewTotal, crowdOfEqual, map_replicate, sum_replicate, smul_eq_mul, mul_one]

theorem flooredShares_crowd :
    flooredShares crowdOfEqual (2 ^ 32) (2 ^ 32 + 1) = List.replicate (2 ^ 32 + 1) 0 := by
  have hfloor : 2 ^ 32 * 1 / (2 ^ 32 + 1) % 2 ^ 64 = 0 := by decide
  rw [flooredShares, crowdOfEqual, map_replicate, hfloor]

/-- All but the last of the sorted positions. -/
theorem take_crowd (n f : ℕ) :
    (((0, f, 0) :: (List.range' 0 (n + 2)).map fun i => (i, f, 0)).take (n + 2)).map Prod.fst =
      0 :: 0 :: (List.range' 1 (n + 1)).take n := by
  rw [range'_succ, map_cons, take_succ_cons, take_succ_cons, map_cons,
    map_cons, ← map_take, map_map]
  exact congrArg (fun l => 0 :: 0 :: l) (List.map_id _)

theorem leftover_crowd : wrappingSub 64 (2 ^ 32)
      ((flooredShares crowdOfEqual (2 ^ 32) (2 ^ 32 + 1)).sum % 2 ^ 64) = 2 ^ 32 := by
  have hsum : (flooredShares crowdOfEqual (2 ^ 32) (2 ^ 32 + 1)).sum = 0 := by
    rw [flooredShares_crowd, sum_replicate, smul_eq_mul, mul_zero]
  rw [hsum, Nat.zero_mod, wrappingSub_of_le (Nat.zero_le _) (by norm_num), Nat.sub_zero]

/-- Position 0 is lucky twice. -/
theorem luckyPositions_crowd : ∃ rest, 0 ∉ rest ∧
    luckyPositions crowdOfEqual (2 ^ 32) (2 ^ 32 + 1) = 0 :: 0 :: rest := by
  have hlen : 2 ^ 32 < crowdOfEqual.length := by
    rw [crowdOfEqual, length_replicate]
    exact lt_add_one _
  obtain ⟨n, hn⟩ : ∃ n, 2 ^ 32 = n + 2 := ⟨4294967294, by norm_num⟩
  refine ⟨(List.range' 1 (n + 1)).take n, ?_, ?_⟩
  · intro hmem
    have := mem_range'_1.mp (mem_of_mem_take hmem)
    omega
  · rw [luckyPositions_of_leftover leftover_crowd (Nat.two_pow_pos 32) hlen,
      sorted_crowd (2 ^ 32) (lt_add_one _), ← take_crowd n (2 ^ 32), ← hn]

/-- The first order of the level is filled with two lots, and it has one. -/
theorem crowd_twice_lucky :
    (∀ r ∈ crowdOfEqual, r.remaining = 1) ∧ viewTotal crowdOfEqual < 2 ^ 64 ∧
    ⟨1, 2, 0⟩ ∈ Strategy.proRata.allocate crowdOfEqual (2 ^ 32) := by
  have hsum : viewTotal crowdOfEqual < 2 ^ 64 := by
    rw [viewTotal_crowd]
    norm_num
  refine ⟨fun r hr => congrArg RestingOrder.remaining (eq_of_mem_replicate hr), hsum, ?_⟩
  have hhead : crowdOfEqual[0]? = some ⟨1, 1, 0, 0⟩ := by
    rw [crowdOfEqual, getElem?_replicate, if_pos (Nat.succ_pos _)]
  have hshare : (finalShares crowdOfEqual (2 ^ 32) (2 ^ 32 + 1))[0]? = some 2 := by
    obtain ⟨rest, hrest, hlucky⟩ := luckyPositions_crowd
    rw [finalShares, hlucky, flooredShares_crowd, getElem?_map, getElem?_zipIdx,
      getElem?_replicate, if_pos (Nat.succ_pos _)]
    simp [count_eq_zero.mpr hrest]
  have h := allots_allocate .proRata (fun _ => hsum) (2 ^ 32)
  generalize Strategy.proRata.allocate crowdOfEqual (2 ^ 32) = allocs at h
  cases h with
  | nothing hmin =>
    rw [viewTotal_crowd, Nat.min_eq_left (Nat.le_succ _)] at hmin
    exact absurd hmin (Nat.two_pow_pos 32).ne'
  | all hle =>
    rw [viewTotal_crowd] at hle
    exact absurd hle (Nat.not_succ_le_self _)
  | single hview =>
    have hlen := congrArg List.length hview
    rw [crowdOfEqual, length_replicate, length_singleton] at hlen
    exact absurd (Nat.succ.inj hlen) (Nat.two_pow_pos 32).ne'
  | shares =>
    rw [viewTotal_crowd]
    exact mem_emitShares_of_getElem? hhead hshare Nat.two_pos

end TradeCore
