import Mathlib

/-!
# Ladders of Queues

A **ladder** holds a first-in first-out queue for each of finitely many keys, as a plain
list of rungs with the best key first. A rung is never empty and no key occurs twice, so
that a ladder is determined by the queue it has under each key (`Ladder.ext_queue`): the
operations are specified by their effect on `Ladder.queue` alone.

## Main results

* `Ladder.queue_push`, `Ladder.queue_mapQueues` — what appending an element and rewriting
  the elements do to the queues.
* `Ladder.head?_eq_some`, `Ladder.head?_eq_none` — the first rung is the best one.
* `Ladder.ext_queue` — ladders with the same queues are equal.
-/

/-- Keys with non-empty queues, best key first. -/
structure Ladder {κ : Type} (r : κ → κ → Prop) (α : Type) where
  rungs : List (κ × List α)
  sorted : rungs.Pairwise fun a b => r a.1 b.1
  occupied : ∀ e ∈ rungs, e.2 ≠ []

open List Option

namespace Ladder

variable {κ α : Type} {r : κ → κ → Prop}

/-- The empty ladder. -/
def empty : Ladder r α where
  rungs := []
  sorted := List.Pairwise.nil
  occupied := fun _ he => absurd he not_mem_nil

/-- All elements, best key first and in queue order. -/
def elems (l : Ladder r α) : List α := l.rungs.flatMap Prod.snd

/-- The number of elements. -/
def size (l : Ladder r α) : ℕ := l.elems.length

/-! ### The queue of a key -/

section Queue

variable {l : Ladder r α} {rungs : List (κ × List α)} {q : List α} {k : κ}

variable [DecidableEq κ]

/-- The queue of a key in a list of rungs. -/
def queueIn (k : κ) : List (κ × List α) → List α
  | [] => []
  | (k', q) :: rest => if k = k' then q else queueIn k rest

/-- The queue of a key; empty where the ladder has no such rung. -/
def queue (l : Ladder r α) (k : κ) : List α := queueIn k l.rungs

/-- A key without a rung has an empty queue. -/
theorem queueIn_of_notMem (h : ∀ e ∈ rungs, k ≠ e.1) : queueIn k rungs = [] := by
  induction rungs with
  | nil => rfl
  | cons e rungs ih =>
    rw [queueIn, if_neg (h e mem_cons_self)]
    exact ih fun e he => h e (mem_cons_of_mem _ he)

/-- A queue with elements is a rung. -/
theorem mem_of_queueIn (h : queueIn k rungs ≠ []) :
    (k, queueIn k rungs) ∈ rungs := by
  induction rungs with
  | nil => exact absurd rfl h
  | cons e rungs ih =>
    obtain ⟨k', q⟩ := e
    rw [queueIn] at h ⊢
    split
    · rename_i hk
      rw [hk]
      exact mem_cons_self
    · rename_i hk
      rw [if_neg hk] at h
      exact mem_cons_of_mem _ (ih h)

/-- In a sorted list of rungs, a rung is the queue of its key. -/
theorem queueIn_of_mem [Std.Irrefl r] (hs : rungs.Pairwise fun a b => r a.1 b.1)
    (h : (k, q) ∈ rungs) : queueIn k rungs = q := by
  induction rungs with
  | nil => cases h
  | cons e rungs ih =>
    obtain ⟨k', q'⟩ := e
    obtain ⟨hhead, htail⟩ := pairwise_cons.mp hs
    rw [queueIn]
    rcases mem_cons.mp h with heq | hmem
    · rw [if_pos (congrArg Prod.fst heq)]
      exact (congrArg Prod.snd heq).symm
    · have hne : k ≠ k' := by
        rintro rfl
        exact Std.Irrefl.irrefl k (hhead _ hmem)
      rw [if_neg hne]
      exact ih htail hmem

/-- **The rungs are the non-empty queues.** -/
theorem mem_rungs [Std.Irrefl r] :
    (k, q) ∈ l.rungs ↔ l.queue k = q ∧ q ≠ [] := by
  constructor
  · intro h
    exact ⟨queueIn_of_mem l.sorted h, l.occupied _ h⟩
  · rintro ⟨rfl, hne⟩
    exact mem_of_queueIn hne

/-- The elements are those of the queues. -/
theorem mem_elems [Std.Irrefl r] {a : α} :
    a ∈ l.elems ↔ ∃ k, a ∈ l.queue k := by
  simp only [elems, mem_flatMap, Prod.exists]
  constructor
  · rintro ⟨k, q, hmem, ha⟩
    rw [← (mem_rungs.mp hmem).1] at ha
    exact ⟨k, ha⟩
  · rintro ⟨k, ha⟩
    exact ⟨k, l.queue k, mem_rungs.mpr ⟨rfl, ne_nil_of_mem ha⟩, ha⟩

/-- **Extensionality**: a ladder is determined by its queues. -/
theorem ext_queue [IsStrictOrder κ r] {l' : Ladder r α} (h : ∀ k, l.queue k = l'.queue k) :
    l = l' := by
  have hirr : Std.Irrefl fun a b : κ × List α => r a.1 b.1 := ⟨fun a => irrefl_of r a.1⟩
  have hanti : Std.Antisymm fun a b : κ × List α => r a.1 b.1 :=
    ⟨fun a b hab hba => absurd (trans_of r hab hba) (irrefl_of r a.1)⟩
  have hrungs : l.rungs = l'.rungs := by
    refine List.Pairwise.eq_of_mem_iff l.sorted l'.sorted ?_
    rintro ⟨k, q⟩
    rw [mem_rungs, mem_rungs, h]
  cases l
  cases l'
  simpa using hrungs

/-- The ladder is empty when no key has a queue. -/
theorem head?_eq_none (h : l.rungs.head? = none) (k : κ) : l.queue k = [] := by
  rw [queue, head?_eq_none_iff.mp h]
  rfl

/-- **The first rung is the best one.** -/
theorem head?_eq_some [Std.Irrefl r] (h : l.rungs.head? = some (k, q)) :
    l.queue k = q ∧ q ≠ [] ∧ ∀ k', l.queue k' ≠ [] → k' = k ∨ r k k' := by
  obtain ⟨rest, hrest⟩ := head?_eq_some_iff.mp h
  have hmem : (k, q) ∈ l.rungs := by
    rw [hrest]
    exact mem_cons_self
  refine ⟨(mem_rungs.mp hmem).1, (mem_rungs.mp hmem).2, ?_⟩
  intro k' hk'
  have hmem' : (k', l.queue k') ∈ l.rungs := mem_of_queueIn hk'
  have hsorted := l.sorted
  rw [hrest] at hmem' hsorted
  rcases mem_cons.mp hmem' with heq | hmem'
  · exact .inl (congrArg Prod.fst heq)
  · exact .inr ((pairwise_cons.mp hsorted).1 _ hmem')

end Queue

/-! ### Appending an element -/

section Push

variable {rungs : List (κ × List α)} {a : α} {k : κ}

variable [DecidableEq κ] [DecidableRel r]

/-- Append `a` to the queue of `k`, opening a rung where there is none. -/
def pushIn (r : κ → κ → Prop) [DecidableRel r] (k : κ) (a : α) :
    List (κ × List α) → List (κ × List α)
  | [] => [(k, [a])]
  | (k', q) :: rest =>
    if k = k' then (k', q ++ [a]) :: rest
    else if r k k' then (k, [a]) :: (k', q) :: rest
    else (k', q) :: pushIn r k a rest

/-- The keys after an append. -/
theorem mem_pushIn {e : κ × List α} (h : e ∈ pushIn r k a rungs) : e.1 = k ∨ e ∈ rungs := by
  induction rungs with
  | nil =>
    rw [pushIn, mem_singleton] at h
    exact .inl (congrArg Prod.fst h)
  | cons e' rungs ih =>
    obtain ⟨k', q⟩ := e'
    rw [pushIn] at h
    split at h
    · rename_i hk
      rcases mem_cons.mp h with rfl | h
      · exact Or.inl hk.symm
      · exact .inr (mem_cons_of_mem _ h)
    · split at h
      · rcases mem_cons.mp h with rfl | h
        · exact .inl rfl
        · exact Or.inr h
      · rcases mem_cons.mp h with rfl | h
        · exact .inr mem_cons_self
        · exact (ih h).imp_right (mem_cons_of_mem _)

/-- An append opens no empty rung. -/
theorem occupied_pushIn (h : ∀ e ∈ rungs, e.2 ≠ []) : ∀ e ∈ pushIn r k a rungs, e.2 ≠ [] := by
  induction rungs with
  | nil => simp [pushIn]
  | cons e' rungs ih =>
    obtain ⟨k', q⟩ := e'
    have htail := ih fun e he => h e (mem_cons_of_mem _ he)
    rw [pushIn]
    split
    · simp only [forall_mem_cons] at h ⊢
      exact ⟨by simp, h.2⟩
    · split
      · simp only [forall_mem_cons] at h ⊢
        exact ⟨by simp, h⟩
      · simp only [forall_mem_cons] at h ⊢
        exact ⟨h.1, htail⟩

variable [IsStrictTotalOrder κ r]

/-- An append keeps the rungs sorted. -/
theorem sorted_pushIn (h : rungs.Pairwise fun a b => r a.1 b.1) :
    (pushIn r k a rungs).Pairwise fun a b => r a.1 b.1 := by
  induction rungs with
  | nil => exact pairwise_singleton _ _
  | cons e' rungs ih =>
    obtain ⟨k', q⟩ := e'
    obtain ⟨hhead, htail⟩ := pairwise_cons.mp h
    rw [pushIn]
    split
    · exact pairwise_cons.mpr ⟨hhead, htail⟩
    · rename_i hne
      split
      · rename_i hr
        refine pairwise_cons.mpr ⟨?_, h⟩
        intro e he
        rcases mem_cons.mp he with rfl | he
        · exact hr
        · exact trans_of r hr (hhead e he)
      · rename_i hr
        have hr' : r k' k := ((trichotomous_of r k k').resolve_left hr).resolve_left hne
        refine pairwise_cons.mpr ⟨?_, ih htail⟩
        intro e he
        rcases mem_pushIn he with hk | he
        · rw [hk]
          exact hr'
        · exact hhead e he

/-- The queues after an append. -/
theorem queueIn_pushIn (h : rungs.Pairwise fun a b => r a.1 b.1) (k' : κ) :
    queueIn k' (pushIn r k a rungs) =
      if k' = k then queueIn k rungs ++ [a] else queueIn k' rungs := by
  induction rungs with
  | nil => by_cases hk : k' = k <;> simp [pushIn, queueIn, hk]
  | cons e rungs ih =>
    obtain ⟨k₁, q⟩ := e
    obtain ⟨hhead, htail⟩ := pairwise_cons.mp h
    rw [pushIn]
    by_cases hk : k = k₁
    · subst hk
      by_cases hk' : k' = k <;> simp [queueIn, hk']
    · rw [if_neg hk]
      by_cases hr : r k k₁
      · -- no rung of the list can carry a key before its first one
        have hnone : queueIn k ((k₁, q) :: rungs) = [] := by
          refine queueIn_of_notMem ?_
          intro e he hke
          rcases mem_cons.mp he with rfl | he
          · exact hk hke
          · exact irrefl_of r k (trans_of r hr (hke ▸ hhead e he))
        rw [if_pos hr, hnone]
        by_cases hk' : k' = k <;> simp [queueIn, hk']
      · rw [if_neg hr, queueIn, ih htail]
        by_cases hk₁ : k' = k₁
        · rw [if_pos hk₁, if_neg fun hc => hk (hc.symm.trans hk₁), queueIn, if_pos hk₁]
        · rw [if_neg hk₁, queueIn, queueIn, if_neg hk, if_neg hk₁]

/-- Append `a` to the queue of `k`. -/
def push (l : Ladder r α) (k : κ) (a : α) : Ladder r α where
  rungs := pushIn r k a l.rungs
  sorted := sorted_pushIn l.sorted
  occupied := occupied_pushIn l.occupied

/-- **Appending** extends one queue and leaves the others. -/
theorem queue_push (l : Ladder r α) (k : κ) (a : α) (k' : κ) :
    (l.push k a).queue k' = if k' = k then l.queue k ++ [a] else l.queue k' :=
  queueIn_pushIn l.sorted k'

end Push

/-! ### Rewriting the elements -/

section MapQueues

/-- Rewrite or drop the elements of a rung; it disappears with its last element. -/
def mapRung (f : α → Option α) (e : κ × List α) : Option (κ × List α) :=
  if e.2.filterMap f = [] then none else some (e.1, e.2.filterMap f)

/-- The rungs that a rewriting keeps. -/
theorem mapRung_eq_some {f : α → Option α} {e e' : κ × List α} :
    mapRung f e = some e' ↔ e'.1 = e.1 ∧ e'.2 = e.2.filterMap f ∧ e'.2 ≠ [] := by
  obtain ⟨k, q⟩ := e
  obtain ⟨k', q'⟩ := e'
  rw [mapRung]
  split
  · rename_i hnil
    simp only [reduceCtorEq, false_iff, not_and, not_not]
    rintro - rfl
    exact hnil
  · rename_i hne
    simp only [some.injEq, Prod.mk.injEq]
    constructor
    · rintro ⟨rfl, rfl⟩
      exact ⟨rfl, rfl, hne⟩
    · rintro ⟨rfl, rfl, -⟩
      exact ⟨rfl, rfl⟩

/-- Rewrite every element with `f`, dropping those it maps to nothing. -/
def mapQueues (f : α → Option α) (l : Ladder r α) : Ladder r α where
  rungs := l.rungs.filterMap (mapRung f)
  sorted := by
    refine List.Pairwise.filterMap _ ?_ l.sorted
    intro a a' hr b hb b' hb'
    rw [(mapRung_eq_some.mp hb).1, (mapRung_eq_some.mp hb').1]
    exact hr
  occupied := by
    intro e he
    obtain ⟨e', -, he'⟩ := mem_filterMap.mp he
    exact (mapRung_eq_some.mp he').2.2

/-- The elements after a rewriting. -/
theorem elems_mapQueues (f : α → Option α) (l : Ladder r α) :
    (l.mapQueues f).elems = l.elems.filterMap f := by
  simp only [elems, mapQueues]
  generalize l.rungs = rungs
  induction rungs with
  | nil => rfl
  | cons e rungs ih =>
    rw [flatMap_cons, filterMap_append, ← ih]
    cases hm : mapRung f e with
    | none =>
      have hnil : e.2.filterMap f = [] := by
        by_contra hne
        simp [mapRung, hne] at hm
      rw [filterMap_cons_none hm, hnil, nil_append]
    | some e' =>
      rw [filterMap_cons_some hm, flatMap_cons, (mapRung_eq_some.mp hm).2.1]

variable [DecidableEq κ]

/-- **Rewriting** acts on each queue. -/
theorem queue_mapQueues [Std.Irrefl r] (f : α → Option α) (l : Ladder r α) (k : κ) :
    (l.mapQueues f).queue k = (l.queue k).filterMap f := by
  by_cases hne : (l.queue k).filterMap f = []
  · rw [hne]
    by_contra hc
    have hmem : (k, (l.mapQueues f).queue k) ∈ l.rungs.filterMap (mapRung f) := mem_of_queueIn hc
    obtain ⟨e, he, hm⟩ := mem_filterMap.mp hmem
    obtain ⟨hk, hq, hq'⟩ := mapRung_eq_some.mp hm
    have hqueue : l.queue e.1 = e.2 := queueIn_of_mem l.sorted he
    simp only at hk hq
    rw [← hk] at hqueue
    rw [hqueue] at hne
    exact hq' (hq.trans hne)
  · have hq : l.queue k ≠ [] := by
      intro hc
      rw [hc] at hne
      exact hne rfl
    refine (mem_rungs.mp (mem_filterMap.mpr ⟨(k, l.queue k), mem_of_queueIn hq, ?_⟩)).1
    exact mapRung_eq_some.mpr ⟨rfl, rfl, hne⟩

end MapQueues

end Ladder
