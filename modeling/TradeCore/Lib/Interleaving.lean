import Mathlib.Logic.Function.Basic

/-!
# Threads over a Shared State

Threads that share a state, each at some place of its program. A thread takes one step at a
time, and the scheduler picks which thread is next, so that a run is a list of thread names with
the input that the thread's step reads (which call to start, what the environment answers).

* `Config.step` — one step of one thread; `none` where it is blocked.
* `Reachable next ok start` — the configurations of all interleavings whose steps meet `ok`.
* `Reachable.invariant` — the proof rule: an assertion on the shared state and one at each place
  of a program hold in every interleaving if a step of a thread keeps the shared one, makes its
  own next one true and does not interfere with those of the other threads;
  `Reachable.invariant_pairs` has also one on the places of every two threads.
-/

namespace Interleaving

/-- The state that the threads share and the place of each thread in its program. -/
structure Config (ι σ π : Type) where
  shared : σ
  threads : ι → π

variable {ι σ π α : Type} [DecidableEq ι]

/-- A thread takes one step. -/
def Config.step (next : ι → σ → π → α → Option (σ × π)) (c : Config ι σ π) (i : ι) (a : α) :
    Option (Config ι σ π) :=
  (next i c.shared (c.threads i) a).map fun r => ⟨r.1, Function.update c.threads i r.2⟩

theorem Config.step_eq_some {next : ι → σ → π → α → Option (σ × π)} {c c' : Config ι σ π} {i : ι}
    {a : α} (h : c.step next i a = some c') :
    ∃ s p, next i c.shared (c.threads i) a = some (s, p) ∧
      c' = ⟨s, Function.update c.threads i p⟩ := by
  obtain ⟨⟨s, p⟩, hnext, rfl⟩ := Option.map_eq_some_iff.mp h
  exact ⟨s, p, hnext, rfl⟩

/-- The configurations of all interleavings in which every step meets a condition. -/
inductive Reachable (next : ι → σ → π → α → Option (σ × π)) (ok : Config ι σ π → ι → α → Prop)
    (start : Config ι σ π) : Config ι σ π → Prop
  | start : Reachable next ok start start
  | step {c c' : Config ι σ π} (h : Reachable next ok start c) (i : ι) (a : α) (hok : ok c i a)
      (hstep : c.step next i a = some c') : Reachable next ok start c'

section Invariant

variable {next : ι → σ → π → α → Option (σ × π)} {ok : Config ι σ π → ι → α → Prop}
  {start c : Config ι σ π} {G : σ → Prop} {L : ι → σ → π → Prop} {R : ι → ι → π → π → Prop}

/-- **The rule for interleavings**, with an assertion on the places of every two threads: the
assertions hold at the start, and a step of a thread keeps the assertion on the shared state, makes
those at its next place true and leaves those of the other threads true. -/
theorem Reachable.invariant_pairs (hreach : Reachable next ok start c)
    (hsymm : ∀ i j p q, R i j p q → R j i q p)
    (hstart : G start.shared ∧ (∀ j, L j start.shared (start.threads j)) ∧
      ∀ i j, i ≠ j → R i j (start.threads i) (start.threads j))
    (hstep : ∀ (c : Config ι σ π) (i : ι) (a : α) (s : σ) (p : π), Reachable next ok start c →
      ok c i a → G c.shared → (∀ j, L j c.shared (c.threads j)) →
      (∀ j ≠ i, R i j (c.threads i) (c.threads j)) →
      next i c.shared (c.threads i) a = some (s, p) →
      G s ∧ L i s p ∧ (∀ j ≠ i, L j s (c.threads j)) ∧ ∀ j ≠ i, R i j p (c.threads j)) :
    G c.shared ∧ (∀ j, L j c.shared (c.threads j)) ∧
      ∀ i j, i ≠ j → R i j (c.threads i) (c.threads j) := by
  induction hreach with
  | start => exact hstart
  | @step c c' hc i a hok hs ih =>
    obtain ⟨s, p, hnext, rfl⟩ := Config.step_eq_some hs
    obtain ⟨hG, hL, hR⟩ := ih
    obtain ⟨hG', hown, hothers, hpairs⟩ := hstep c i a s p hc hok hG hL
      (fun j hj => hR i j (Ne.symm hj)) hnext
    refine ⟨hG', fun j => ?_, fun j k hjk => ?_⟩
    · by_cases hj : j = i
      · subst hj
        simpa only [Function.update_self] using hown
      · simpa only [Function.update_of_ne hj] using hothers j hj
    · by_cases hj : j = i
      · subst hj
        simpa only [Function.update_self, Function.update_of_ne (Ne.symm hjk)] using
          hpairs k (Ne.symm hjk)
      · by_cases hk : k = i
        · subst hk
          simpa only [Function.update_self, Function.update_of_ne hjk] using
            hsymm _ _ _ _ (hpairs j hjk)
        · simpa only [Function.update_of_ne hj, Function.update_of_ne hk] using hR j k hjk

/-- **The rule for interleavings**: the assertions hold at the start, and a step of a thread
keeps the assertion on the shared state, makes the one at its next place true and leaves those
of the other threads true. -/
theorem Reachable.invariant (hreach : Reachable next ok start c)
    (hstart : G start.shared ∧ ∀ j, L j start.shared (start.threads j))
    (hstep : ∀ (c : Config ι σ π) (i : ι) (a : α) (s : σ) (p : π), Reachable next ok start c →
      ok c i a → G c.shared → (∀ j, L j c.shared (c.threads j)) →
      next i c.shared (c.threads i) a = some (s, p) →
      G s ∧ L i s p ∧ ∀ j ≠ i, L j s (c.threads j)) :
    G c.shared ∧ ∀ j, L j c.shared (c.threads j) := by
  obtain ⟨hG, hL, -⟩ := hreach.invariant_pairs (R := fun _ _ _ _ => True)
    (fun _ _ _ _ _ => trivial) ⟨hstart.1, hstart.2, fun _ _ _ => trivial⟩
    fun c i a s p hc hok hG hL _ hnext => by
      obtain ⟨hG', hown, hothers⟩ := hstep c i a s p hc hok hG hL hnext
      exact ⟨hG', hown, hothers, fun _ _ => trivial⟩
  exact ⟨hG, hL⟩

end Invariant

/-- The configuration after a schedule, `none` where a step does not meet a condition. -/
def Config.runIf (next : ι → σ → π → α → Option (σ × π)) (ok : Config ι σ π → ι → α → Prop)
    [∀ c i a, Decidable (ok c i a)] (c : Config ι σ π) : List (ι × α) → Option (Config ι σ π)
  | [] => some c
  | (i, a) :: rest =>
    if ok c i a then (c.step next i a).bind fun c' => c'.runIf next ok rest else none

theorem Reachable.runIf {next : ι → σ → π → α → Option (σ × π)} {ok : Config ι σ π → ι → α → Prop}
    [∀ c i a, Decidable (ok c i a)] {start c c' : Config ι σ π} (h : Reachable next ok start c)
    {schedule : List (ι × α)} (hrun : c.runIf next ok schedule = some c') :
    Reachable next ok start c' := by
  induction schedule generalizing c with
  | nil =>
    cases hrun
    exact h
  | cons ia rest ih =>
    rw [Config.runIf] at hrun
    split at hrun
    case isTrue hok =>
      obtain ⟨c₁, hstep, hrest⟩ := Option.bind_eq_some_iff.mp hrun
      exact ih (h.step ia.1 ia.2 hok hstep) hrest
    case isFalse => cases hrun

end Interleaving
