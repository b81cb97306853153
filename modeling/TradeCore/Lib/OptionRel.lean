import Mathlib

/-!
# Partial Computations

A list of computations succeeds when each of them does (`List.mapM_eq_some`).

`Option.SameUnless p` relates a computation to another one that it equals, but for failing where
`p` holds. The relation composes:
`Option.SameUnless.bind` takes two computations through their next steps.
-/

namespace List

variable {α β : Type} {f : α → Option β} {l : List α}

/-- The values of a list of computations, one by one. -/
theorem mapM_eq_some {ys : List β} : l.mapM f = some ys ↔ l.map f = ys.map some := by
  induction l generalizing ys with
  | nil => cases ys <;> simp
  | cons a l ih =>
    rw [mapM_cons, map_cons]
    cases f a <;> cases ys <;> simp [Option.bind_eq_some_iff, ih, and_comm]

/-- A `mapM` whose steps all succeed. -/
theorem mapM_eq_map {g : α → β} (h : ∀ a ∈ l, f a = some (g a)) : l.mapM f = some (l.map g) := by
  rw [mapM_eq_some, map_map]
  exact map_congr_left h

/-- A successful `mapM` has a value for every element. -/
theorem isSome_of_mapM {ys : List β} (h : l.mapM f = some ys) : ∀ a ∈ l, (f a).isSome := by
  intro a ha
  have hmem : f a ∈ ys.map some := mapM_eq_some.mp h ▸ mem_map_of_mem ha
  obtain ⟨b, -, hb⟩ := mem_map.mp hmem
  rw [← hb]
  rfl

end List

namespace Option

variable {α β : Type} {p q : Prop} {x y : Option α}

/-- `x` is `y`, except that it may fail where `p` holds. -/
def SameUnless (p : Prop) (x y : Option α) : Prop := x = y ∨ p ∧ x = none

namespace SameUnless

theorem of_eq (h : x = y) : SameUnless p x y := Or.inl h

theorem mono (h : SameUnless p x y) (hpq : p → q) : SameUnless q x y :=
  h.imp_right fun hp => ⟨hpq hp.1, hp.2⟩

/-- **Two computations with continuations that compare** compare. -/
theorem bind {f g : α → Option β} (h : SameUnless p x y)
    (hfg : ∀ a, y = some a → SameUnless p (f a) (g a)) :
    SameUnless p (x.bind f) (y.bind g) := by
  rcases h with rfl | ⟨hp, rfl⟩
  · cases hx : x with
    | none => exact of_eq rfl
    | some a => exact hfg a hx
  · exact .inr ⟨hp, rfl⟩

theorem map (f : α → β) (h : SameUnless p x y) : SameUnless p (x.map f) (y.map f) := by
  rcases h with rfl | ⟨hp, rfl⟩
  · exact of_eq rfl
  · exact .inr ⟨hp, rfl⟩

end SameUnless

end Option
