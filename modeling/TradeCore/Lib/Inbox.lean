import Mathlib.Data.List.Nodup
import Mathlib.Data.List.Perm.Basic

/-!
# Inboxes

A consumer that gets its events at least once keeps two tables with the same unique key: the
events that wait to be applied, and the keys of those that were. A delivery inserts its events
unless their keys wait already, and drops those that were applied before (`Inbox.receive`). The
events that are ready are applied and their keys recorded (`Inbox.settle`).

No key is ever in both tables, nor twice in one (`Inbox.Clean`), so no event is applied twice.
-/

open List

/-- Insert the events whose keys are not in the table yet. -/
def insertIgnore {ε κ : Type} [DecidableEq κ] (key : ε → κ) (rows events : List ε) : List ε :=
  events.foldl (fun rows e => if key e ∈ rows.map key then rows else rows ++ [e]) rows

section InsertIgnore

variable {ε κ : Type} [DecidableEq κ] {key : ε → κ}

theorem insertIgnore_cons (rows : List ε) (e : ε) (events : List ε) :
    insertIgnore key rows (e :: events) =
      insertIgnore key (if key e ∈ rows.map key then rows else rows ++ [e]) events :=
  rfl

theorem nodup_insertIgnore {rows : List ε} (h : (rows.map key).Nodup) (events : List ε) :
    ((insertIgnore key rows events).map key).Nodup := by
  induction events generalizing rows with
  | nil => exact h
  | cons e events ih =>
    rw [insertIgnore_cons]
    split
    · exact ih h
    · rename_i hnew
      refine ih ?_
      rw [map_append, map_singleton]
      exact h.append (nodup_singleton _) (disjoint_singleton.mpr hnew)

theorem subset_insertIgnore (rows events : List ε) : rows ⊆ insertIgnore key rows events := by
  induction events generalizing rows with
  | nil => exact Subset.refl rows
  | cons e events ih =>
    rw [insertIgnore_cons]
    split
    · exact ih rows
    · exact Subset.trans (subset_append_left rows [e]) (ih _)

theorem mem_insertIgnore {rows events : List ε} {e : ε} (h : e ∈ insertIgnore key rows events) :
    e ∈ rows ∨ e ∈ events := by
  induction events generalizing rows with
  | nil => exact .inl h
  | cons e' events ih =>
    rw [insertIgnore_cons] at h
    split at h
    · exact (ih h).imp_right (mem_cons_of_mem e')
    · obtain h | h := ih h
      · obtain h | h := mem_append.mp h
        · exact .inl h
        · exact .inr (mem_cons.mpr (.inl (mem_singleton.mp h)))
      · exact .inr (mem_cons_of_mem e' h)

/-- Every inserted event has its key in the table afterwards. -/
theorem key_mem_insertIgnore (rows : List ε) {events : List ε} {e : ε} (h : e ∈ events) :
    ∃ e' ∈ insertIgnore key rows events, key e' = key e := by
  induction events generalizing rows with
  | nil => cases h
  | cons e' events ih =>
    rw [insertIgnore_cons]
    obtain rfl | h := mem_cons.mp h
    · split
      · rename_i hold
        obtain ⟨e', he', hkey⟩ := mem_map.mp hold
        exact ⟨e', subset_insertIgnore rows events he', hkey⟩
      · exact ⟨e, subset_insertIgnore _ events (mem_append_right rows mem_cons_self), rfl⟩
    · exact ih _ h

/-- Events with new keys, each once, are appended. -/
theorem insertIgnore_eq_append {rows events : List ε} (h : ((rows ++ events).map key).Nodup) :
    insertIgnore key rows events = rows ++ events := by
  induction events generalizing rows with
  | nil => exact (append_nil rows).symm
  | cons e events ih =>
    have hnew : key e ∉ rows.map key := by
      rw [map_append, map_cons] at h
      exact fun hmem => (disjoint_of_nodup_append h) hmem mem_cons_self
    rw [insertIgnore_cons, if_neg hnew, ih]
    · rw [append_assoc, singleton_append]
    · rwa [append_assoc, singleton_append]

end InsertIgnore

/-- Events that wait, and the keys of those that were applied. -/
structure Inbox (ε κ : Type) where
  pending : List ε
  processed : List κ

namespace Inbox

variable {ε κ : Type} (key : ε → κ)

/-- No key is in both tables or twice in one. -/
structure Clean (b : Inbox ε κ) : Prop where
  pending : (b.pending.map key).Nodup
  processed : b.processed.Nodup
  apart : ∀ e ∈ b.pending, key e ∉ b.processed

variable {key} in
theorem Clean.empty : (⟨[], []⟩ : Inbox ε κ).Clean key :=
  ⟨nodup_nil, nodup_nil, fun _ he => (not_mem_nil he).elim⟩

variable [DecidableEq κ]

/-- Take in a delivery: insert its events and drop those that were applied before. -/
def receive (b : Inbox ε κ) (events : List ε) : Inbox ε κ :=
  { b with pending := (insertIgnore key b.pending events).filter fun e => key e ∉ b.processed }

/-- Record the events in scope that are ready, and drop the recorded ones in scope. -/
def settle (scope ready : ε → Bool) (b : Inbox ε κ) : Inbox ε κ :=
  let processed :=
    insertIgnore id b.processed ((b.pending.filter fun e => scope e && ready e).map key)
  { pending := b.pending.filter fun e => !(scope e && key e ∈ processed)
    processed := processed }

variable {key} {b : Inbox ε κ}

theorem Clean.receive (h : b.Clean key) (events : List ε) : (b.receive key events).Clean key where
  pending := by
    refine Nodup.sublist (Sublist.map key filter_sublist) ?_
    exact nodup_insertIgnore h.pending events
  processed := h.processed
  apart := fun e he => of_decide_eq_true (mem_filter.mp he).2

/-- What waits after a delivery was waiting or delivered. -/
theorem mem_of_receive {events : List ε} {e : ε} (h : e ∈ (b.receive key events).pending) :
    (e ∈ b.pending ∨ e ∈ events) ∧ key e ∉ b.processed := by
  obtain ⟨hmem, hnew⟩ := mem_filter.mp h
  exact ⟨mem_insertIgnore hmem, by simpa using hnew⟩

/-- A key that stands for one event only: the event waits unless it was applied. -/
theorem mem_receive {events : List ε} {e : ε}
    (hkey : ∀ e', e' ∈ b.pending ∨ e' ∈ events → key e' = key e → e' = e)
    (he : e ∈ b.pending ∨ e ∈ events) (hnew : key e ∉ b.processed) :
    e ∈ (b.receive key events).pending := by
  refine mem_filter.mpr ⟨?_, by simpa using hnew⟩
  obtain he | he := he
  · exact subset_insertIgnore b.pending events he
  · obtain ⟨e', he', heq⟩ : ∃ e' ∈ insertIgnore key b.pending events, key e' = key e :=
      key_mem_insertIgnore b.pending he
    rwa [← hkey e' (mem_insertIgnore he') heq]

section Settle

variable {scope ready : ε → Bool}

/-- Settling records the keys of the events that are applied. -/
theorem Clean.settle_processed (h : b.Clean key) : (b.settle key scope ready).processed =
    b.processed ++ (b.pending.filter fun e => scope e && ready e).map key := by
  refine insertIgnore_eq_append ?_
  rw [map_id]
  refine h.processed.append ?_ ?_
  · exact Nodup.sublist (Sublist.map key filter_sublist) h.pending
  · intro k hk hk'
    obtain ⟨e, he, rfl⟩ := mem_map.mp hk'
    exact h.apart e (mem_filter.mp he).1 hk

/-- Settling leaves the events that were not ready. -/
theorem Clean.settle_pending (h : b.Clean key) : (b.settle key scope ready).pending =
    b.pending.filter fun e => !(scope e && ready e) := by
  change (b.pending.filter fun e => !(scope e && key e ∈ (b.settle key scope ready).processed)) = _
  refine filter_congr fun e he => ?_
  rw [h.settle_processed]
  have hiff : key e ∈ b.processed ++ (b.pending.filter fun e => scope e && ready e).map key ↔
      scope e && ready e := by
    rw [mem_append]
    constructor
    · rintro (hmem | hmem)
      · exact (h.apart e he hmem).elim
      · obtain ⟨e', he', heq⟩ := mem_map.mp hmem
        obtain ⟨hmem', hready⟩ := mem_filter.mp he'
        rwa [← inj_on_of_nodup_map h.pending hmem' he heq]
    · exact fun hready => .inr (mem_map_of_mem (mem_filter.mpr ⟨he, hready⟩))
  simp only [hiff]
  cases scope e <;> simp

theorem Clean.settle (h : b.Clean key) : (b.settle key scope ready).Clean key where
  pending := by
    rw [h.settle_pending]
    exact Nodup.sublist (Sublist.map key filter_sublist) h.pending
  processed := nodup_insertIgnore (by simpa using h.processed) _ |>.of_map
  apart := fun e he => by
    rw [h.settle_pending] at he
    obtain ⟨hmem, hnot⟩ := mem_filter.mp he
    rw [h.settle_processed, mem_append]
    rintro (hold | hnow)
    · exact h.apart e hmem hold
    · obtain ⟨e', he', heq⟩ := mem_map.mp hnow
      obtain ⟨hmem', hready⟩ := mem_filter.mp he'
      rw [inj_on_of_nodup_map h.pending hmem' hmem heq] at hready
      simp [hready] at hnot

end Settle

end Inbox
