import Mathlib

/-!
# Rankings

Elements of a list in the order of a rank, least first, and the **greedy** distribution of a
quantity along a list: every element gets as much as it can take until nothing is left.

* `ranked rank l` — the list in the order of the ranks; with different ranks it is determined by
  the elements (`eq_ranked`), and starts with the least one (`ranked_eq_cons`).
* `perm_take_insertionSort` — selecting the least elements finds those that sorting puts first.
* `greedy size q l` — the distribution. It covers a beginning of the list (`map_fst_greedy`), and
  only its last part may be less than the whole (`greedy_full`).
-/

open List Option

namespace Ranking

variable {α κ : Type} [LinearOrder κ] (rank : α → κ)

/-- The elements of a list in the order of their ranks. -/
def ranked (l : List α) : List α := l.insertionSort fun a b => rank a ≤ rank b

theorem perm_ranked (l : List α) : (ranked rank l).Perm l := perm_insertionSort _ _

theorem pairwise_ranked (l : List α) : (ranked rank l).Pairwise fun a b => rank a ≤ rank b := by
  have : Std.Total fun a b : α => rank a ≤ rank b := ⟨fun a b => le_total (rank a) (rank b)⟩
  have : IsTrans α fun a b => rank a ≤ rank b := ⟨fun _ _ _ => le_trans⟩
  exact pairwise_insertionSort _ l

variable {rank} {l l' : List α}

/-- Different ranks are strictly ordered. -/
theorem pairwise_lt_ranked (h : (l.map rank).Nodup) :
    (ranked rank l).Pairwise fun a b => rank a < rank b := by
  have hne : (ranked rank l).Pairwise fun a b => rank a ≠ rank b :=
    pairwise_map.mp (((perm_ranked rank l).map rank).nodup_iff.mpr h)
  exact ((pairwise_ranked rank l).and hne).imp fun hab => lt_of_le_of_ne hab.1 hab.2

/-- Elements with different ranks can be ranked in one way only. -/
theorem eq_ranked (hperm : l'.Perm l) (hsorted : l'.Pairwise fun a b => rank a < rank b) :
    l' = ranked rank l := by
  have hnodup : (l.map rank).Nodup :=
    (hperm.map rank).nodup_iff.mp (pairwise_map.mpr (hsorted.imp ne_of_lt))
  refine (hperm.trans (perm_ranked rank l).symm).eq_of_pairwise ?_ hsorted
    (pairwise_lt_ranked hnodup)
  exact fun a b _ _ hab hba => absurd (hab.trans hba) (lt_irrefl _)

/-- The least element comes first. -/
theorem ranked_eq_cons {m : α} (h : (l.map rank).Nodup) (hperm : l.Perm (m :: l'))
    (hleast : ∀ a ∈ l', rank m < rank a) : ranked rank l = m :: ranked rank l' := by
  have hnodup : (l'.map rank).Nodup := by
    have := (hperm.map rank).nodup_iff.mp h
    exact (nodup_cons.mp this).2
  refine (eq_ranked (((perm_ranked rank l').cons m).trans hperm.symm) ?_).symm
  exact pairwise_cons.mpr ⟨fun a ha => hleast a ((perm_ranked rank l').mem_iff.mp ha),
    pairwise_lt_ranked hnodup⟩

/-- The ranking of images is the image of the ranking. -/
theorem ranked_map {β : Type} (f : β → α) (l : List β) :
    ranked rank (l.map f) = (ranked (rank ∘ f) l).map f :=
  (map_insertionSort _ _ f l fun _ _ _ _ => Iff.rfl).symm

/-- **A selection is a beginning of the sorted list**: if no element of the rest comes before one
of the front, the front has the elements that sorting puts first. -/
theorem perm_take_insertionSort {r : α → α → Prop} [DecidableRel r] [Std.Total r] [IsTrans α r]
    (hanti : ∀ a b, r a b → r b a → a = b) {front rest : List α}
    (hperm : (front ++ rest).Perm l) (hle : ∀ a ∈ front, ∀ b ∈ rest, r a b) :
    front.Perm ((l.insertionSort r).take front.length) := by
  have hsorted : front.insertionSort r ++ rest.insertionSort r = l.insertionSort r := by
    have hsame : (front.insertionSort r ++ rest.insertionSort r).Perm (l.insertionSort r) :=
      ((perm_insertionSort r front).append (perm_insertionSort r rest)).trans
        (hperm.trans (perm_insertionSort r l).symm)
    refine hsame.eq_of_pairwise (fun a b _ _ => hanti a b) ?_ (pairwise_insertionSort r l)
    refine pairwise_append.mpr ⟨pairwise_insertionSort r _, pairwise_insertionSort r _, ?_⟩
    exact fun a ha b hb => hle a ((mem_insertionSort r).mp ha) b ((mem_insertionSort r).mp hb)
  rw [← hsorted, take_left' (length_insertionSort r front)]
  exact (perm_insertionSort r front).symm

/-! ### Greedy distributions -/

/-- Give every element as much as it can take, until nothing is left. -/
def greedy (size : α → ℕ) : ℕ → List α → List (α × ℕ)
  | _, [] => []
  | q, a :: rest =>
    if q = 0 then [] else (a, min q (size a)) :: greedy size (q - min q (size a)) rest

variable {size : α → ℕ}

@[simp] theorem greedy_zero (l : List α) : greedy size 0 l = [] := by cases l <;> rfl

theorem greedy_map {β : Type} (f : β → α) (q : ℕ) (l : List β) :
    greedy size q (l.map f) = (greedy (size ∘ f) q l).map fun x => (f x.1, x.2) := by
  induction l generalizing q with
  | nil => rfl
  | cons b l ih =>
    rw [map_cons, greedy, greedy]
    split
    · rfl
    · rw [ih, map_cons]
      rfl

/-- What is distributed covers a beginning of the list. -/
theorem map_fst_greedy (q : ℕ) (l : List α) : (greedy size q l).map Prod.fst <+: l := by
  induction l generalizing q with
  | nil => exact prefix_rfl
  | cons a rest ih =>
    rw [greedy]
    split
    · exact ⟨_, rfl⟩
    · exact cons_prefix_cons.mpr ⟨rfl, ih _⟩

/-- Only the last one may get less than it can take. -/
theorem greedy_full {q : ℕ} {before after : List (α × ℕ)} {x : α × ℕ}
    (h : greedy size q l = before ++ x :: after) (hafter : after ≠ []) : x.2 = size x.1 := by
  induction l generalizing q before with
  | nil =>
    rw [greedy] at h
    exact absurd h.symm (by simp)
  | cons a rest ih =>
    rw [greedy] at h
    split at h
    · exact absurd h.symm (by simp)
    · rcases cons_eq_append_iff.mp h with ⟨rfl, heq⟩ | ⟨before', rfl, heq⟩
      · -- something is left for the next one
        obtain ⟨rfl, hrest⟩ := cons.inj heq
        rcases le_total q (size a) with hle | hle
        · rw [Nat.min_eq_left hle, Nat.sub_self, greedy_zero] at hrest
          exact absurd hrest hafter
        · exact Nat.min_eq_right hle
      · exact ih heq

end Ranking
