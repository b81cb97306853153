import TradeCore.Strategy
import TradeCore.Lib.Apportion

/-!
# The Allocation Contract of the Strategies

What the crossing loop relies on, for each of the three strategies: every allocation fills
at least one lot, never more than its maker has, no maker is named twice, and together they
place the aggressor's quantity as far as the level reaches.

`allocate_pos` and `allocate_total` hold for a level of any length. The other two are
about slice positions, which are 32-bit values, so they need a level of at most `2 ^ 32`
orders.
-/

open List
open Option hiding map_map mem_map

namespace TradeCore

variable {view : List RestingOrder} {a : Allocation} {heap : List BySize} {shares : List ℕ}
  {i n lots : ℕ}

/-- Total remaining quantity of a view. -/
def viewTotal (view : List RestingOrder) : ℕ :=
  (view.map RestingOrder.remaining).sum

/-- Total quantity of a list of allocations. -/
def allocated (allocs : List Allocation) : ℕ :=
  (allocs.map Allocation.qty).sum

@[simp] theorem allocated_nil : allocated [] = 0 := rfl

@[simp] theorem allocated_cons (a : Allocation) (allocs : List Allocation) :
    allocated (a :: allocs) = a.qty + allocated allocs := by
  simp [allocated]

@[simp] theorem viewTotal_nil : viewTotal [] = 0 := rfl

@[simp] theorem viewTotal_cons (r : RestingOrder) (view : List RestingOrder) :
    viewTotal (r :: view) = r.remaining + viewTotal view := by
  simp [viewTotal]

/-- An allocation names a maker of the view by its position. -/
def Names (view : List RestingOrder) (a : Allocation) : Prop :=
  ∃ r, view[a.idx]? = some r ∧ a.id = r.id ∧ a.qty ≤ r.remaining

/-! ### Price-time priority -/

/-- What an allocation of the sweep is. -/
theorem mem_priceTimeFrom (ha : a ∈ priceTimeFrom i lots view) :
    0 < a.qty ∧ ∃ k r, view[k]? = some r ∧ a.idx = (i + k) % 2 ^ 32 ∧ a.id = r.id ∧
      a.qty ≤ r.remaining := by
  induction view generalizing i lots with
  | nil => cases ha
  | cons r rest ih =>
    rw [priceTimeFrom] at ha
    split at ha
    · cases ha
    · simp only at ha
      split at ha
      · rename_i hfill
        rcases mem_cons.mp ha with rfl | ha
        · exact ⟨hfill, 0, r, rfl, rfl, rfl, Nat.min_le_right _ _⟩
        · obtain ⟨hqty, k, hk⟩ := ih ha
          rw [Nat.add_right_comm] at hk
          exact ⟨hqty, k + 1, hk⟩
      · obtain ⟨hqty, k, hk⟩ := ih ha
        rw [Nat.add_right_comm] at hk
        exact ⟨hqty, k + 1, hk⟩

/-- The sweep places all it can. -/
theorem priceTimeFrom_total (i lots : ℕ) (view : List RestingOrder) :
    allocated (priceTimeFrom i lots view) = min lots (viewTotal view) := by
  induction view generalizing i lots with
  | nil => simp [priceTimeFrom]
  | cons r rest ih =>
    rw [priceTimeFrom, viewTotal_cons]
    split
    · rename_i hz
      simp [hz]
    · simp only
      split
      · rw [allocated_cons, ih]
        simp only
        omega
      · rw [ih]
        omega

/-- The positions of the sweep increase. -/
theorem pairwise_priceTimeFrom (hlen : i + view.length ≤ 2 ^ 32) :
    (priceTimeFrom i lots view).Pairwise fun a b => a.idx < b.idx := by
  induction view generalizing i lots with
  | nil => exact Pairwise.nil
  | cons r rest ih =>
    rw [length_cons] at hlen
    rw [priceTimeFrom]
    split
    · exact Pairwise.nil
    · simp only
      split
      · refine Pairwise.cons ?_ (ih (by omega))
        intro a ha
        obtain ⟨-, k, r', hk, hidx, -⟩ := mem_priceTimeFrom ha
        have hlt := (List.getElem?_eq_some_iff.mp hk).1
        simp only [hidx]
        omega
      · exact ih (by omega)

/-- **The sweep goes through the front of the view**: when it fills `a`, every maker before
that of `a` has been filled completely. -/
theorem priceTimeFrom_split {done later : List Allocation} (hpos : ∀ r ∈ view, 0 < r.remaining)
    (h : priceTimeFrom i lots view = done ++ a :: later) :
    ∃ front r back, view = front ++ r :: back ∧ r.id = a.id ∧
      done.map (fun a => (a.id, a.qty)) = front.map fun r => (r.id, r.remaining) := by
  induction view generalizing i lots done with
  | nil => cases done <;> cases h
  | cons r rest ih =>
    rw [priceTimeFrom] at h
    split at h
    · cases done <;> cases h
    · rename_i hlots
      have hr := hpos r mem_cons_self
      simp only [if_pos (show 0 < min lots r.remaining by omega)] at h
      cases done with
      | nil =>
        rw [nil_append, cons.injEq] at h
        exact ⟨[], r, rest, rfl, by rw [← h.1], rfl⟩
      | cons b done =>
        rw [cons_append, cons.injEq] at h
        obtain ⟨rfl, h⟩ := h
        obtain ⟨front, r', back, rfl, hid, hdone⟩ :=
          ih (fun r hr => hpos r (mem_cons_of_mem _ hr)) h
        -- something is left for the next maker, so this one is filled completely
        have hleft : lots - min lots r.remaining ≠ 0 := by
          intro hz
          rw [hz] at h
          cases front <;> cases done <;> simp [priceTimeFrom] at h
        refine ⟨r :: front, r', back, rfl, hid, ?_⟩
        rw [map_cons, map_cons, hdone, show min lots r.remaining = r.remaining by
          omega]

/-! ### Size priority -/

/-- Only an empty heap has nothing to pop. -/
theorem popMax_eq_none (h : popMax heap = none) : heap = [] := by
  cases heap with
  | nil => rfl
  | cons x xs =>
    rw [popMax] at h
    split at h
    · cases h
    · split at h <;> cases h

/-- Popping removes one entry. -/
theorem popMax_perm {rest : List BySize} {m : BySize} (h : popMax heap = some (m, rest)) :
    heap.Perm (m :: rest) := by
  induction heap generalizing m rest with
  | nil => cases h
  | cons x xs ih =>
    rw [popMax] at h
    cases hp : popMax xs with
    | none =>
      simp only [hp, some.injEq, Prod.mk.injEq] at h
      obtain ⟨rfl, rfl⟩ := h
      rw [popMax_eq_none hp]
    | some r =>
      obtain ⟨m', rest'⟩ := r
      have hperm := ih hp
      simp only [hp] at h
      split at h
      · cases h
        exact List.Perm.refl _
      · cases h
        exact (hperm.cons x).trans (List.Perm.swap _ _ _)

/-- Every fill of the pop loop comes from an entry of the heap. -/
theorem mem_sizePriorityPops (ha : a ∈ sizePriorityPops view n lots heap) :
    0 < a.qty ∧ ∃ e ∈ heap, a.idx = e.idx ∧
      a.id = ((view[e.idx]?).map RestingOrder.id).getD 0 ∧ a.qty ≤ e.remaining := by
  induction n generalizing lots heap with
  | zero => cases ha
  | succ n ih =>
    rw [sizePriorityPops] at ha
    split at ha
    · cases ha
    · split at ha
      · cases ha
      · rename_i top rest hpop
        have hperm := (popMax_perm hpop).symm
        simp only at ha
        split at ha
        · rename_i hfill
          rcases mem_cons.mp ha with rfl | ha
          · exact ⟨hfill, top, hperm.subset mem_cons_self, rfl, rfl, Nat.min_le_right _ _⟩
          · obtain ⟨hqty, e, he, hrest⟩ := ih ha
            exact ⟨hqty, e, hperm.subset (mem_cons_of_mem _ he), hrest⟩
        · obtain ⟨hqty, e, he, hrest⟩ := ih ha
          exact ⟨hqty, e, hperm.subset (mem_cons_of_mem _ he), hrest⟩

/-- The pop loop places all it can, given a turn for every entry. -/
theorem sizePriorityPops_total (hn : heap.length ≤ n) (lots : ℕ) :
    allocated (sizePriorityPops view n lots heap) =
      min lots (heap.map BySize.remaining).sum := by
  induction n generalizing lots heap with
  | zero =>
    obtain rfl : heap = [] := length_eq_zero_iff.mp (by omega)
    simp [sizePriorityPops]
  | succ n ih =>
    rw [sizePriorityPops]
    split
    · rename_i hz
      simp [hz]
    · cases hp : popMax heap with
      | none =>
        rw [popMax_eq_none hp]
        simp
      | some r =>
        obtain ⟨m, rest⟩ := r
        have hperm := popMax_perm hp
        have hlen := hperm.length_eq
        rw [length_cons] at hlen
        have hsum := (hperm.map BySize.remaining).sum_eq
        rw [map_cons, sum_cons] at hsum
        have hrest := @ih rest (by omega)
        simp only
        split
        · rw [allocated_cons, hrest]
          simp only
          omega
        · rw [hrest]
          omega

/-- No entry of the heap is used twice. -/
theorem nodup_sizePriorityPops (hnd : (heap.map BySize.idx).Nodup) :
    ((sizePriorityPops view n lots heap).map Allocation.idx).Nodup := by
  induction n generalizing lots heap with
  | zero => exact nodup_nil
  | succ n ih =>
    rw [sizePriorityPops]
    split
    · exact nodup_nil
    · cases hp : popMax heap with
      | none => exact nodup_nil
      | some r =>
        obtain ⟨m, rest⟩ := r
        have hnd' := ((popMax_perm hp).map BySize.idx).nodup_iff.mp hnd
        rw [map_cons, nodup_cons] at hnd'
        simp only
        split
        · rw [map_cons, nodup_cons]
          refine ⟨?_, ih hnd'.2⟩
          intro hc
          obtain ⟨a, ha, hai⟩ := mem_map.mp hc
          obtain ⟨-, e, he, hei, -⟩ := mem_sizePriorityPops ha
          exact hnd'.1 (mem_map.mpr ⟨e, he, hei.symm.trans hai⟩)
        · exact ih hnd'.2

/-- The heap entries of a view. -/
def bySizeEntries (view : List RestingOrder) : List BySize :=
  view.zipIdx.map fun (r, i) =>
    { remaining := r.remaining, timestamp := r.timestamp, idx := i % 2 ^ 32 }

/-- The heap holds the quantities of the view. -/
theorem sum_bySizeEntries (view : List RestingOrder) :
    ((bySizeEntries view).map BySize.remaining).sum = viewTotal view := by
  have hmap : (bySizeEntries view).map BySize.remaining =
      (view.zipIdx.map Prod.fst).map RestingOrder.remaining := by
    simp only [bySizeEntries, map_map]
    rfl
  rw [hmap, zipIdx_map_fst, viewTotal]

/-- An entry stands for an order, at its position up to wrap-around. -/
theorem mem_bySizeEntries {e : BySize} (he : e ∈ bySizeEntries view) :
    ∃ i r, view[i]? = some r ∧ e.remaining = r.remaining ∧ e.idx = i % 2 ^ 32 := by
  obtain ⟨⟨r, i⟩, hri, rfl⟩ := mem_map.mp he
  exact ⟨i, r, mem_zipIdx_iff_getElem?.mp hri, rfl, rfl⟩

/-- A position of a short view does not wrap. -/
theorem position_eq (hlen : view.length ≤ 2 ^ 32) {r : RestingOrder} (hi : view[i]? = some r) :
    i % 2 ^ 32 = i := by
  have hlt := (List.getElem?_eq_some_iff.mp hi).1
  exact Nat.mod_eq_of_lt (by omega)

/-- The positions of a short list are distinct. -/
theorem nodup_positions {α : Type} {l : List α} (hlen : l.length ≤ 2 ^ 32) :
    (l.zipIdx.map fun x => x.2 % 2 ^ 32).Nodup := by
  have hmap : (l.zipIdx.map fun x => x.2 % 2 ^ 32) = l.zipIdx.map Prod.snd := by
    refine map_congr_left fun x hx => Nat.mod_eq_of_lt ?_
    have hlt := (List.getElem?_eq_some_iff.mp (mem_zipIdx_iff_getElem?.mp hx)).1
    omega
  rw [hmap, zipIdx_map_snd]
  exact nodup_range'

/-- The entries have distinct positions. -/
theorem nodup_bySizeEntries (hlen : view.length ≤ 2 ^ 32) :
    ((bySizeEntries view).map BySize.idx).Nodup := by
  rw [bySizeEntries, map_map]
  exact nodup_positions hlen

/-! ### Pro rata -/

section ProRata

variable {f : ℕ}

/-- A lucky position is a position of the view. -/
theorem lt_of_mem_luckyPositions {T : ℕ} (hi : i ∈ luckyPositions view f T) :
    i < view.length := by
  simp only [luckyPositions] at hi
  split at hi
  · obtain ⟨e, he, rfl⟩ := mem_map.mp hi
    have he' := (mem_insertionSort _).mp (mem_of_mem_take he)
    simp only [remainders, mem_map, Prod.exists] at he'
    obtain ⟨r, k, hrk, rfl⟩ := he'
    have hk := (List.getElem?_eq_some_iff.mp (mem_zipIdx_iff_getElem?.mp hrk)).1
    exact (Nat.mod_le k _).trans_lt hk
  · cases hi

/-- Without a wrapped position, no position is lucky twice. -/
theorem nodup_luckyPositions {T : ℕ} (hlen : view.length ≤ 2 ^ 32) :
    (luckyPositions view f T).Nodup := by
  have hnd : ((remainders view f T).map Prod.fst).Nodup := by
    rw [remainders, map_map]
    exact nodup_positions hlen
  simp only [luckyPositions]
  split
  · have hperm := perm_insertionSort (fun a b => byRemainder a b = true)
      (remainders view f T)
    exact ((hperm.map Prod.fst).nodup_iff.mpr hnd).sublist ((take_sublist _ _).map _)
  · exact nodup_nil

/-- The shares place their sum. -/
theorem allocated_emitShares (hlen : shares.length = view.length) :
    allocated (emitShares view shares) = shares.sum := by
  have hdrop : ∀ l : List ((RestingOrder × ℕ) × ℕ), allocated (l.filterMap fun x =>
      if 0 < x.1.2 then some { id := x.1.1.id, qty := x.1.2, idx := x.2 % 2 ^ 32 } else none) =
      (l.map fun x => x.1.2).sum := by
    intro l
    induction l with
    | nil => rfl
    | cons x l ih =>
      by_cases hb : 0 < x.1.2
      · simp only [hb, if_true, filterMap_cons, allocated_cons, map_cons, sum_cons, ih]
      · simp only [hb, if_false, filterMap_cons, map_cons, sum_cons, ih]
        omega
  have hmap : ((view.zip shares).zipIdx.map fun x => x.1.2) = shares := by
    have hfst : (view.zip shares).zipIdx.map Prod.fst = view.zip shares :=
      zipIdx_map_fst _ _
    have hsnd : (view.zip shares).map Prod.snd = shares := map_snd_zip hlen.le
    conv_rhs => rw [← hsnd, ← hfst, map_map]
    rfl
  rw [emitShares, hdrop, hmap]

/-- What an allocation of the shares is. -/
theorem mem_emitShares (ha : a ∈ emitShares view shares) :
    ∃ i r b, view[i]? = some r ∧ shares[i]? = some b ∧ 0 < b ∧
      a = { id := r.id, qty := b, idx := i % 2 ^ 32 } := by
  rw [emitShares, mem_filterMap] at ha
  obtain ⟨⟨⟨r, b⟩, i⟩, hmem, ha⟩ := ha
  have hzip := mem_zipIdx_iff_getElem?.mp hmem
  rw [getElem?_zip_eq_some] at hzip
  split at ha
  · rename_i hb
    exact ⟨i, r, b, hzip.1, hzip.2, hb, (some.inj ha).symm⟩
  · cases ha

/-- The positions of the shares do not repeat. -/
theorem nodup_emitShares (hlen : view.length ≤ 2 ^ 32) :
    ((emitShares view shares).map Allocation.idx).Nodup := by
  have hnd := @nodup_positions _ (view.zip shares) (by rw [length_zip]; omega)
  refine hnd.sublist ?_
  rw [emitShares]
  generalize (view.zip shares).zipIdx = l
  induction l with
  | nil => exact List.Sublist.refl _
  | cons x l ih =>
    by_cases hb : 0 < x.1.2
    · simp only [hb, if_true, filterMap_cons, map_cons]
      exact ih.cons_cons _
    · simp only [hb, if_false, filterMap_cons, map_cons]
      exact ih.cons _

/-- What an allocation of the whole level is. -/
theorem mem_emitAll (ha : a ∈ emitAll view) : ∃ i r, view[i]? = some r ∧
    a = { id := r.id, qty := r.remaining, idx := i % 2 ^ 32 } := by
  obtain ⟨⟨r, i⟩, hri, rfl⟩ := mem_map.mp ha
  exact ⟨i, r, mem_zipIdx_iff_getElem?.mp hri, rfl⟩

variable (hpos : ∀ r ∈ view, 0 < r.remaining) (hsum : viewTotal view < 2 ^ 64)
  (hf : f < viewTotal view)
include hpos hsum hf

/-- **The floored shares**, free of wrap-around. -/
theorem flooredShares_eq :
    flooredShares view f (viewTotal view) =
      Apportion.shares f (viewTotal view) (view.map RestingOrder.remaining) := by
  rw [Apportion.shares, flooredShares, map_map]
  refine map_congr_left ?_
  intro r hr
  have hlt := Apportion.share_lt hf (hpos r hr)
  have hle : r.remaining ≤ viewTotal view :=
    single_le_sum (by simp) _ (List.mem_map_of_mem hr)
  exact Nat.mod_eq_of_lt (by omega)

/-- The leftover lots are what rounding lost, and all of them are handed out. -/
theorem length_luckyPositions :
    (flooredShares view f (viewTotal view)).sum +
      (luckyPositions view f (viewTotal view)).length = f := by
  have hT : 0 < viewTotal view := by omega
  have hle := @Apportion.sum_shares_le f (viewTotal view) _ hT rfl
  have hlt := @Apportion.leftover_lt f (viewTotal view) _ hT rfl
  rw [← flooredShares_eq hpos hsum hf] at hle hlt
  have hmod : (flooredShares view f (viewTotal view)).sum % 2 ^ 64 =
      (flooredShares view f (viewTotal view)).sum := Nat.mod_eq_of_lt (by omega)
  have hsub := @wrappingSub_of_le 64 f _ hle (by omega)
  have hlen : (remainders view f (viewTotal view)).length = view.length := by
    simp [remainders]
  rw [length_map] at hlt
  simp only [luckyPositions, hmod, hsub, hlen]
  split
  · rw [length_map, length_take, length_insertionSort, hlen]
    omega
  · rw [length_nil]
    omega

/-- **The final shares add up to the quantity to place.** -/
theorem sum_finalShares : (finalShares view f (viewTotal view)).sum = f := by
  have hlucky := length_luckyPositions hpos hsum hf
  have hlen : (flooredShares view f (viewTotal view)).length = view.length := by
    simp [flooredShares]
  have hcount :=
    (Apportion.sum_count_range view.length (luckyPositions view f (viewTotal view))).trans
    (countP_eq_length.mpr fun i hi => decide_eq_true (lt_of_mem_luckyPositions hi))
  have hfst : ((flooredShares view f (viewTotal view)).zipIdx.map fun x => x.1) =
      flooredShares view f (viewTotal view) := zipIdx_map_fst _ _
  have hsnd : ((flooredShares view f (viewTotal view)).zipIdx.map fun x =>
      (luckyPositions view f (viewTotal view)).count x.2) =
      (List.range view.length).map fun i =>
        (luckyPositions view f (viewTotal view)).count i := by
    rw [range_eq_range', ← hlen, ← zipIdx_map_snd, map_map]
    rfl
  have hsplit : (finalShares view f (viewTotal view)).sum =
      ((flooredShares view f (viewTotal view)).zipIdx.map fun x => x.1).sum +
      ((flooredShares view f (viewTotal view)).zipIdx.map fun x =>
        (luckyPositions view f (viewTotal view)).count x.2).sum := by
    rw [← sum_map_add]
    rfl
  rw [hsplit, hfst, hsnd, hcount]
  exact hlucky

/-- **No final share exceeds its order.** -/
theorem finalShares_le (hlen : view.length ≤ 2 ^ 32) {b : ℕ} {r : RestingOrder}
    (hr : view[i]? = some r) (hb : (finalShares view f (viewTotal view))[i]? = some b) :
    b ≤ r.remaining := by
  have hcount : (luckyPositions view f (viewTotal view)).count i ≤ 1 :=
    nodup_iff_count_le_one.mp (nodup_luckyPositions hlen) i
  have hshare := Apportion.share_lt hf (hpos r (mem_of_getElem? hr))
  simp only [finalShares, getElem?_map, getElem?_zipIdx, flooredShares_eq hpos hsum hf,
    Apportion.shares, hr, map_some, some.injEq, zero_add] at hb
  omega

end ProRata

/-! ### The contract -/

section Contract

/-- **The shapes of an allocation**: nothing to place, a single order, the sweep, the pops of
the heap, the whole level, or the largest-remainder division. -/
inductive Strategy.Allots (view : List RestingOrder) (lots : ℕ) :
    Strategy → List Allocation → Prop
  | nothing {strategy : Strategy} (hmin : min lots (viewTotal view) = 0) :
    Allots view lots strategy []
  | single {strategy : Strategy} {r : RestingOrder} (hview : view = [r])
    (hfill : 0 < min lots r.remaining) :
    Allots view lots strategy [{ id := r.id, qty := min lots r.remaining, idx := 0 }]
  | sweep : Allots view lots .priceTimePriority (priceTimeFrom 0 lots view)
  | pops : Allots view lots .sizePriority
      (sizePriorityPops view (bySizeEntries view).length lots (bySizeEntries view))
  | all (hle : viewTotal view ≤ lots) : Allots view lots .proRata (emitAll view)
  | shares (hlt : lots < viewTotal view) :
    Allots view lots .proRata (emitShares view (finalShares view lots (viewTotal view)))

variable (strategy : Strategy) {view : List RestingOrder} {lots : ℕ}

-- only pro rata adds the orders up
variable (hsum : strategy = .proRata → viewTotal view < 2 ^ 64)
include hsum

/-- **Every allocation has one of the shapes.** -/
theorem allots_allocate (lots : ℕ) : strategy.Allots view lots (strategy.allocate view lots) := by
  cases strategy with
  | priceTimePriority => exact .sweep
  | sizePriority =>
    rw [Strategy.allocate]
    unfold sizePriorityAllocate
    split
    · rename_i hz
      exact .nothing (by rw [hz, Nat.zero_min])
    · split
      · simp only
        split
        · rename_i hfill
          exact .single rfl hfill
        · exact .nothing (by rw [viewTotal_cons, viewTotal_nil]; omega)
      · exact .pops
  | proRata =>
    have hmod : (view.map RestingOrder.remaining).sum % 2 ^ 64 = viewTotal view :=
      Nat.mod_eq_of_lt (hsum rfl)
    simp only [Strategy.allocate, proRataAllocate, hmod]
    split
    · rename_i hz
      exact .nothing hz
    · split
      · exact .all (by omega)
      · split
        · rw [viewTotal_cons, viewTotal_nil, add_zero] at *
          exact .single rfl (by omega)
        · rw [Nat.min_eq_left (by omega)]
          exact .shares (by omega)

section

variable (hpos : ∀ r ∈ view, 0 < r.remaining)
include hpos

/-- **Every allocation fills at least one lot.** -/
theorem allocate_pos (ha : a ∈ strategy.allocate view lots) : 0 < a.qty := by
  have h := allots_allocate strategy hsum lots
  generalize strategy.allocate view lots = allocs at h ha
  cases h with
  | nothing => cases ha
  | single hview hfill =>
    rw [mem_singleton.mp ha]
    exact hfill
  | sweep => exact (mem_priceTimeFrom ha).1
  | pops => exact (mem_sizePriorityPops ha).1
  | all =>
    obtain ⟨i, r, hr, rfl⟩ := mem_emitAll ha
    exact hpos r (mem_of_getElem? hr)
  | shares =>
    obtain ⟨i, r, b, -, -, hb, rfl⟩ := mem_emitShares ha
    exact hb

/-- **The allocations place the aggressor's quantity as far as the level reaches.** -/
theorem allocate_total : allocated (strategy.allocate view lots) = min lots (viewTotal view) := by
  have h := allots_allocate strategy hsum lots
  generalize strategy.allocate view lots = allocs at h
  cases h with
  | nothing hmin => rw [hmin, allocated_nil]
  | single hview =>
    rw [hview]
    simp
  | sweep => exact priceTimeFrom_total 0 lots view
  | pops => rw [sizePriorityPops_total le_rfl, sum_bySizeEntries]
  | all hle =>
    have hmap : (emitAll view).map Allocation.qty =
        (view.zipIdx.map Prod.fst).map RestingOrder.remaining := by
      simp only [emitAll, map_map]
      rfl
    rw [allocated, hmap, zipIdx_map_fst]
    exact (Nat.min_eq_right hle).symm
  | shares hlt =>
    have hlen : (finalShares view lots (viewTotal view)).length = view.length := by
      simp [finalShares, flooredShares]
    rw [allocated_emitShares hlen, sum_finalShares hpos (hsum rfl) hlt, Nat.min_eq_left hlt.le]

/-- An aggressor with lots to place gets an allocation from a level that has some. -/
theorem allocate_ne_nil (hview : view ≠ []) (hlots : 0 < lots) :
    strategy.allocate view lots ≠ [] := by
  intro hnil
  have htotal := @allocate_total strategy view lots hsum hpos
  obtain ⟨r, rest, rfl⟩ := exists_cons_of_ne_nil hview
  have hr := hpos r mem_cons_self
  rw [hnil, allocated_nil, viewTotal_cons] at htotal
  omega

/-- **Every allocation names a maker of the view** and takes no more than it has. -/
theorem allocate_names (hlen : view.length ≤ 2 ^ 32) (ha : a ∈ strategy.allocate view lots) :
    Names view a := by
  have h := allots_allocate strategy hsum lots
  generalize strategy.allocate view lots = allocs at h ha
  cases h with
  | nothing => cases ha
  | single hview =>
    rw [mem_singleton.mp ha, hview]
    exact ⟨_, rfl, rfl, Nat.min_le_right _ _⟩
  | sweep =>
    obtain ⟨-, k, r, hk, hidx, hid, hle⟩ := mem_priceTimeFrom ha
    rw [zero_add, position_eq hlen hk] at hidx
    exact ⟨r, by rw [hidx, hk], hid, hle⟩
  | pops =>
    obtain ⟨-, e, he, hae, hid, hle⟩ := mem_sizePriorityPops ha
    obtain ⟨i, r, hr, hrem, hidx⟩ := mem_bySizeEntries he
    rw [position_eq hlen hr] at hidx
    rw [hidx, hr] at hid
    exact ⟨r, by rw [hae, hidx, hr], hid, by omega⟩
  | all =>
    obtain ⟨i, r, hr, rfl⟩ := mem_emitAll ha
    exact ⟨r, by simp only [position_eq hlen hr, hr], rfl, le_rfl⟩
  | shares hlt =>
    obtain ⟨i, r, b, hr, hb, -, rfl⟩ := mem_emitShares ha
    exact ⟨r, by simp only [position_eq hlen hr, hr], rfl,
      finalShares_le hpos (hsum rfl) hlt hlen hr hb⟩

end

/-- **Every allocation names a maker of the view**, however long the view is. -/
theorem exists_of_mem_allocate (ha : a ∈ strategy.allocate view lots) :
    ∃ r ∈ view, a.id = r.id := by
  have h := allots_allocate strategy hsum lots
  generalize strategy.allocate view lots = allocs at h ha
  cases h with
  | nothing => cases ha
  | single hview =>
    rw [mem_singleton.mp ha, hview]
    exact ⟨_, mem_cons_self, rfl⟩
  | sweep =>
    obtain ⟨-, k, r, hk, -, hid, -⟩ := mem_priceTimeFrom ha
    exact ⟨r, mem_of_getElem? hk, hid⟩
  | pops =>
    obtain ⟨-, e, he, -, hid, -⟩ := mem_sizePriorityPops ha
    obtain ⟨i, r, hr, -, hidx⟩ := mem_bySizeEntries he
    -- a wrapped position is a position too
    have hlt : e.idx < view.length :=
      hidx ▸ (Nat.mod_le _ _).trans_lt (List.getElem?_eq_some_iff.mp hr).1
    rw [getElem?_eq_getElem hlt] at hid
    exact ⟨view[e.idx], getElem_mem hlt, hid⟩
  | all =>
    obtain ⟨i, r, hr, rfl⟩ := mem_emitAll ha
    exact ⟨r, mem_of_getElem? hr, rfl⟩
  | shares =>
    obtain ⟨i, r, b, hr, -, -, rfl⟩ := mem_emitShares ha
    exact ⟨r, mem_of_getElem? hr, rfl⟩

/-- **No maker is named twice.** -/
theorem allocate_nodup (hlen : view.length ≤ 2 ^ 32) :
    ((strategy.allocate view lots).map Allocation.idx).Nodup := by
  have h := allots_allocate strategy hsum lots
  generalize strategy.allocate view lots = allocs at h
  cases h with
  | nothing => exact nodup_nil
  | single => exact nodup_singleton _
  | sweep =>
    rw [List.Nodup, pairwise_map]
    exact (pairwise_priceTimeFrom (by omega)).imp fun h => ne_of_lt h
  | pops => exact nodup_sizePriorityPops (nodup_bySizeEntries hlen)
  | all =>
    rw [emitAll, map_map]
    exact nodup_positions hlen
  | shares => exact nodup_emitShares hlen

end Contract

end TradeCore
