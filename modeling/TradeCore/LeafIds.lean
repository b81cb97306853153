import Mathlib
import TradeCore.Lib.Interleaving

/-!
# Identifiers from Segments

The id generator of `idgen.rs`: a provider hands out segments of ids, and each generator has one
segment in use, with a cursor that its callers move by `fetch_add`, and possibly a second segment
that was fetched ahead. A caller reads the end of the segment after it took its id; beyond the end,
it installs the next segment under a lock: it raises the cursor to the start of the segment and
then stores the new end.

Any number of generators share a provider, and any number of callers share a generator. Every
atomic operation and every operation on the lock is one step of a caller.

## Main results

* `IdService.Timely` — no caller took an id beyond the old end and before the new segment, and has
  not read the end yet, when the new end is stored.
* `IdService.leaf_ids_unique` — in every interleaving whose steps are timely the ids of a generator
  come from its own segments, and no id is given out twice.
* `IdService.late_caller` — a caller that is not gets the id of another generator.
-/

open Interleaving List Option

namespace TradeCore

/-- A generator. The callers of `next_id` share it. -/
structure LeafIdGen where
  /-- The next id to hand out. -/
  cursor : ℕ
  /-- The end of the current segment. -/
  endId : ℕ
  /-- The start of the segment that was fetched ahead, behind a lock. -/
  next : Option ℕ
  locked : Bool
deriving DecidableEq, Repr

/-- Where a caller of `next_id` is. -/
inductive LeafPc where
  | idle
  /-- An id was taken from the cursor: load the end. -/
  | fetched (id : ℕ)
  /-- `stage_next`: try to take the lock. -/
  | stage (id : ℕ)
  | staging (id : ℕ)
  | staged (id : ℕ)
  /-- `install_next`: take the lock. -/
  | exhausted (endId : ℕ)
  | locked (endId : ℕ)
  | taking
  | raising (start : ℕ)
  | storing (start : ℕ)
  | unlocking
  | retry
deriving DecidableEq, Repr

namespace LeafPc

/-- The id that a caller holds. -/
def id? : LeafPc → Option ℕ
  | .fetched id | .stage id | .staging id | .staged id => some id
  | _ => none

/-- The id of a caller that has not read the end. -/
def fetched? : LeafPc → Option ℕ
  | .fetched id => some id
  | _ => none

/-- The segment whose end is about to be stored. -/
def storing? : LeafPc → Option ℕ
  | .storing start => some start
  | _ => none

end LeafPc

/-- The provider and the generators, with the segments that were drawn and the ids that were
returned, newest first. -/
structure IdService (γ : Type) where
  maxId : ℕ
  gens : γ → Option LeafIdGen
  drawn : List (γ × ℕ)
  returned : List (γ × ℕ)

namespace IdService

variable {γ τ : Type}

/-- `next_segment`: the next segment lies above all earlier ones, possibly with a gap. -/
def draw (step : γ → ℕ) (s : IdService γ) (g : γ) (gap : ℕ) : IdService γ :=
  { s with maxId := s.maxId + gap + step g, drawn := (g, s.maxId + gap) :: s.drawn }

/-- Write a generator. -/
def put [DecidableEq γ] (s : IdService γ) (g : γ) (gen : LeafIdGen) : IdService γ :=
  { s with gens := Function.update s.gens g (some gen) }

/-- Return an id to the caller. -/
def give (s : IdService γ) (g : γ) (id : ℕ) : IdService γ :=
  { s with returned := (g, id) :: s.returned }

/-- One step of a caller of `next_id` on a generator. -/
def nextId [DecidableEq γ] (step : γ → ℕ) (g : γ) (s : IdService γ) (gen : LeafIdGen) (gap : ℕ) :
    LeafPc → Option (IdService γ × LeafPc)
  | .idle | .retry => some (s.put g { gen with cursor := gen.cursor + 1 }, .fetched gen.cursor)
  | .fetched id =>
    if id < gen.endId then
      if gen.endId ≤ id + step g / 2 then some (s, .stage id) else some (s.give g id, .idle)
    else some (s, .exhausted gen.endId)
  | .stage id =>
    if gen.locked then some (s.give g id, .idle)
    else some (s.put g { gen with locked := true }, .staging id)
  | .staging id =>
    if gen.next.isNone then
      some ((s.draw step g gap).put g { gen with next := some (s.maxId + gap) }, .staged id)
    else some (s, .staged id)
  | .staged id => some ((s.put g { gen with locked := false }).give g id, .idle)
  | .exhausted endId =>
    if gen.locked then none else some (s.put g { gen with locked := true }, .locked endId)
  | .locked endId => if gen.endId ≠ endId then some (s, .unlocking) else some (s, .taking)
  | .taking =>
    match gen.next with
    | some start => some (s.put g { gen with next := none }, .raising start)
    | none => some (s.draw step g gap, .raising (s.maxId + gap))
  | .raising start => some (s.put g { gen with cursor := max gen.cursor start }, .storing start)
  | .storing start => some (s.put g { gen with endId := start + step g }, .unlocking)
  | .unlocking => some (s.put g { gen with locked := false }, .retry)

/-- One step of one caller. The first one creates the generator, which draws its first segment;
steps below two are refused. The input is the gap before a segment that is drawn. -/
def next [DecidableEq γ] (step : γ → ℕ) (i : γ × τ) (s : IdService γ) (pc : LeafPc) (gap : ℕ) :
    Option (IdService γ × LeafPc) :=
  match s.gens i.1 with
  | some gen => nextId step i.1 s gen gap pc
  | none =>
    if pc = .idle ∧ 2 ≤ step i.1 then
      some ((s.draw step i.1 gap).put i.1
        ⟨s.maxId + gap, s.maxId + gap + step i.1, none, false⟩, .idle)
    else none

/-- No generator yet; the provider starts at some id. -/
def start (first : ℕ) : Config (γ × τ) (IdService γ) LeafPc where
  shared := ⟨first, fun _ => none, [], []⟩
  threads := fun _ => .idle

/-- When a caller stores the end of a new segment, no other caller of the generator has taken an
id from between the old end and the new segment without having read the end. -/
def Timely (c : Config (γ × τ) (IdService γ) LeafPc) (i : γ × τ) (_gap : ℕ) : Prop :=
  ∀ start ∈ (c.threads i).storing?, ∀ gen ∈ c.shared.gens i.1, ∀ t : τ,
    ∀ id ∈ (c.threads (i.1, t)).fetched?, ¬ (gen.endId ≤ id ∧ id < start)

instance [Fintype τ] (c : Config (γ × τ) (IdService γ) LeafPc) (i : γ × τ) (gap : ℕ) :
    Decidable (Timely c i gap) :=
  inferInstanceAs (Decidable (∀ start ∈ (c.threads i).storing?, ∀ gen ∈ c.shared.gens i.1,
    ∀ t : τ, ∀ id ∈ (c.threads (i.1, t)).fetched?, ¬ (gen.endId ≤ id ∧ id < start)))

/-! ### The invariant -/

/-- The id lies in a segment that the generator drew. -/
def Owned (step : γ → ℕ) (s : IdService γ) (g : γ) (id : ℕ) : Prop :=
  ∃ start, (g, start) ∈ s.drawn ∧ start ≤ id ∧ id < start + step g

/-- The id was taken from the cursor of the generator. -/
def Taken (s : IdService γ) (g : γ) (id : ℕ) : Prop :=
  ∃ gen, s.gens g = some gen ∧ id < gen.cursor

/-- The provider and the generators. The segments lie apart and below the counter of the provider;
the current segment of a generator and the one fetched ahead are its own, and the cursor is not
before the current one; the ids that were returned are owned and differ. -/
structure Sound (step : γ → ℕ) (s : IdService γ) : Prop where
  drawn_le : ∀ p ∈ s.drawn, p.2 + step p.1 ≤ s.maxId
  apart : ∀ g g' id, s.Owned step g id → s.Owned step g' id → g = g'
  current : ∀ g gen, s.gens g = some gen →
    ∃ start, (g, start) ∈ s.drawn ∧ gen.endId = start + step g ∧ start ≤ gen.cursor
  ahead : ∀ g gen start, s.gens g = some gen → gen.next = some start → (g, start) ∈ s.drawn
  owned : ∀ p ∈ s.returned, s.Owned step p.1 p.2
  taken : ∀ p ∈ s.returned, s.Taken p.1 p.2
  nodup : (s.returned.map Prod.snd).Nodup

/-- What a caller knows at each place. An id that it holds is not returned yet; before it read the
end, the id is owned or lies beyond the end. -/
def At (step : γ → ℕ) (i : γ × τ) (s : IdService γ) : LeafPc → Prop
  | .fetched id => s.Taken i.1 id ∧ (i.1, id) ∉ s.returned ∧
      ((∃ gen, s.gens i.1 = some gen ∧ gen.endId ≤ id) ∨ s.Owned step i.1 id)
  | .stage id | .staging id | .staged id =>
    s.Taken i.1 id ∧ (i.1, id) ∉ s.returned ∧ s.Owned step i.1 id
  | .raising start => (i.1, start) ∈ s.drawn
  | .storing start => (i.1, start) ∈ s.drawn ∧ ∃ gen, s.gens i.1 = some gen ∧ start ≤ gen.cursor
  | _ => True

/-- Two callers of a generator do not hold the same id. -/
def Apart (i j : γ × τ) (p q : LeafPc) : Prop :=
  i.1 = j.1 → ∀ id, p.id? = some id → q.id? ≠ some id

/-! ### What the parts of a step do -/

section Parts

variable {step : γ → ℕ} {s : IdService γ} {g : γ} {id gap : ℕ} {j : γ × τ} {q : LeafPc}

theorem Owned.draw (h : s.Owned step g id) (g' : γ) : (s.draw step g' gap).Owned step g id := by
  obtain ⟨start, hmem, hid⟩ := h
  exact ⟨start, mem_cons_of_mem _ hmem, hid⟩

/-- The id that a caller holds was taken and is not returned yet. -/
theorem At.of_id (h : At step j s q) (hid : q.id? = some id) :
    s.Taken j.1 id ∧ (j.1, id) ∉ s.returned := by
  cases q <;> simp only [LeafPc.id?, some.injEq, reduceCtorEq] at hid <;> subst hid <;>
    exact ⟨h.1, h.2.1⟩

/-- A drawn segment lies above all earlier ones. -/
theorem Sound.draw (h : Sound step s) (g : γ) (gap : ℕ) : Sound step (s.draw step g gap) := by
  have hlt : ∀ g' id, s.Owned step g' id → id < s.maxId := by
    rintro g' id ⟨start, hmem, -, hid⟩
    exact lt_of_lt_of_le hid (h.drawn_le _ hmem)
  have hnew : ∀ g' id, (s.draw step g gap).Owned step g' id →
      s.Owned step g' id ∨ g' = g ∧ s.maxId ≤ id := by
    rintro g' id ⟨start, hmem, hid⟩
    rcases mem_cons.mp hmem with heq | hmem
    · cases heq
      exact .inr ⟨rfl, Nat.le_of_add_right_le hid.1⟩
    · exact .inl ⟨start, hmem, hid⟩
  refine { h with drawn_le := ?_, apart := ?_, current := ?_, ahead := ?_, owned := ?_ }
  · intro p hp
    rcases mem_cons.mp hp with rfl | hp
    · exact le_rfl
    · exact (h.drawn_le p hp).trans (Nat.le_add_right_of_le (Nat.le_add_right _ _))
  · intro g₁ g₂ id h₁ h₂
    rcases hnew g₁ id h₁ with hold₁ | ⟨heq₁, hle₁⟩ <;>
      rcases hnew g₂ id h₂ with hold₂ | ⟨heq₂, hle₂⟩
    · exact h.apart g₁ g₂ id hold₁ hold₂
    · exact absurd (hlt g₁ id hold₁) (not_lt.mpr hle₂)
    · exact absurd (hlt g₂ id hold₂) (not_lt.mpr hle₁)
    · rw [heq₁, heq₂]
  · intro g' gen hgen
    obtain ⟨start, hmem, hend⟩ := h.current g' gen hgen
    exact ⟨start, mem_cons_of_mem _ hmem, hend⟩
  · exact fun g' gen start hgen hnext => mem_cons_of_mem _ (h.ahead g' gen start hgen hnext)
  · exact fun p hp => (h.owned p hp).draw g

theorem At.draw (h : At step j s q) (g : γ) (gap : ℕ) : At step j (s.draw step g gap) q := by
  cases q with
  | fetched id => exact ⟨h.1, h.2.1, h.2.2.imp_right fun howned => howned.draw g⟩
  | stage id | staging id | staged id => exact ⟨h.1, h.2.1, h.2.2.draw g⟩
  | raising start => exact mem_cons_of_mem _ h
  | storing start => exact ⟨mem_cons_of_mem _ h.1, h.2⟩
  | _ => trivial

/-- An id that a caller returns to its generator's user. -/
theorem Sound.give (h : Sound step s) (howned : s.Owned step g id) (htaken : s.Taken g id)
    (hnew : (g, id) ∉ s.returned) : Sound step (s.give g id) := by
  refine { h with owned := ?_, taken := ?_, nodup := ?_ }
  · intro p hp
    rcases mem_cons.mp hp with rfl | hp
    · exact howned
    · exact h.owned p hp
  · intro p hp
    rcases mem_cons.mp hp with rfl | hp
    · exact htaken
    · exact h.taken p hp
  · -- the same id of another generator would lie in a segment of both
    refine nodup_cons.mpr ⟨fun hmem => hnew ?_, h.nodup⟩
    obtain ⟨⟨g', id'⟩, hp, heq⟩ := List.mem_map.mp hmem
    obtain rfl : id' = id := heq
    rwa [h.apart g g' id' howned (h.owned _ hp)]

theorem At.give (h : At step j s q) (hne : j.1 = g → q.id? ≠ some id) :
    At step j (s.give g id) q := by
  have hnew : ∀ id', q.id? = some id' → (j.1, id') ∉ s.returned →
      (j.1, id') ∉ (s.give g id).returned := by
    intro id' hid hold hmem
    rcases mem_cons.mp hmem with heq | hmem
    · obtain ⟨hg, rfl⟩ := Prod.mk.inj heq
      exact hne hg hid
    · exact hold hmem
  cases q with
  | fetched id | stage id | staging id | staged id => exact ⟨h.1, hnew _ rfl h.2.1, h.2.2⟩
  | _ => exact h

variable [DecidableEq γ] {gen' : LeafIdGen}

theorem gens_put (g' : γ) : (s.put g gen').gens g' = if g' = g then some gen' else s.gens g' :=
  Function.update_apply ..

/-- Taken ids stay taken if the cursor does not go back. -/
theorem Taken.put {g' : γ} (h : s.Taken g' id)
    (hcursor : ∀ gen, s.gens g = some gen → gen.cursor ≤ gen'.cursor) :
    (s.put g gen').Taken g' id := by
  obtain ⟨gen, hgen, hid⟩ := h
  by_cases heq : g' = g
  · subst heq
    exact ⟨gen', by rw [gens_put, if_pos rfl], lt_of_lt_of_le hid (hcursor gen hgen)⟩
  · exact ⟨gen, by rw [gens_put, if_neg heq, hgen], hid⟩

theorem Sound.put (h : Sound step s)
    (hcursor : ∀ gen, s.gens g = some gen → gen.cursor ≤ gen'.cursor)
    (hcurrent : ∃ start, (g, start) ∈ s.drawn ∧ gen'.endId = start + step g ∧ start ≤ gen'.cursor)
    (hahead : ∀ start, gen'.next = some start → (g, start) ∈ s.drawn) :
    Sound step (s.put g gen') := by
  refine { h with current := ?_, ahead := ?_, taken := fun p hp => (h.taken p hp).put hcursor }
  · intro g' gen hgen
    rw [gens_put] at hgen
    split at hgen
    · rename_i heq
      cases hgen
      rwa [heq]
    · exact h.current g' gen hgen
  · intro g' gen start hgen hnext
    rw [gens_put] at hgen
    split at hgen
    · rename_i heq
      cases hgen
      rw [heq]
      exact hahead start hnext
    · exact h.ahead g' gen start hgen hnext

/-- What a caller knows stays true if the cursor does not go back, and a caller that waits to read
the end finds its id in a segment or beyond the new end. -/
theorem At.put (h : At step j s q)
    (hcursor : ∀ gen, s.gens g = some gen → gen.cursor ≤ gen'.cursor)
    (hend : j.1 = g → ∀ gen id, s.gens g = some gen → q.fetched? = some id → gen.endId ≤ id →
      gen'.endId ≤ id ∨ s.Owned step g id) :
    At step j (s.put g gen') q := by
  cases q with
  | fetched id =>
    refine ⟨h.1.put hcursor, h.2.1, ?_⟩
    rcases h.2.2 with ⟨gen, hgen, hid⟩ | howned
    · by_cases heq : j.1 = g
      · rw [heq] at hgen ⊢
        refine (hend heq gen id hgen rfl hid).imp_left fun hid' => ⟨gen', ?_, hid'⟩
        rw [gens_put, if_pos rfl]
      · exact .inl ⟨gen, by rw [gens_put, if_neg heq, hgen], hid⟩
    · exact .inr howned
  | stage id | staging id | staged id => exact ⟨h.1.put hcursor, h.2.1, h.2.2⟩
  | raising start => exact h
  | storing start =>
    obtain ⟨hmem, gen, hgen, hstart⟩ := h
    refine ⟨hmem, ?_⟩
    by_cases heq : j.1 = g
    · rw [heq] at hgen ⊢
      exact ⟨gen', by rw [gens_put, if_pos rfl], hstart.trans (hcursor gen hgen)⟩
    · exact ⟨gen, by rw [gens_put, if_neg heq, hgen], hstart⟩
  | _ => trivial

variable {gen : LeafIdGen}

/-- A generator that keeps its segment. -/
theorem Sound.put_of_le (h : Sound step s) (hgen : s.gens g = some gen)
    (hcursor : gen.cursor ≤ gen'.cursor) (hend : gen'.endId = gen.endId)
    (hahead : ∀ start, gen'.next = some start → (g, start) ∈ s.drawn) :
    Sound step (s.put g gen') := by
  obtain ⟨start, hmem, hstart, hle⟩ := h.current g gen hgen
  refine h.put (fun gen₁ hgen₁ => ?_) ⟨start, hmem, hend.trans hstart, hle.trans hcursor⟩ hahead
  obtain rfl := some.inj (hgen.symm.trans hgen₁)
  exact hcursor

theorem At.put_of_le (h : At step j s q) (hgen : s.gens g = some gen)
    (hcursor : gen.cursor ≤ gen'.cursor) (hend : gen'.endId = gen.endId) :
    At step j (s.put g gen') q := by
  refine h.put (fun gen₁ hgen₁ => ?_) fun _ gen₁ id hgen₁ _ hid => ?_
  · obtain rfl := some.inj (hgen.symm.trans hgen₁)
    exact hcursor
  · obtain rfl := some.inj (hgen.symm.trans hgen₁)
    exact .inl (hend.trans_le hid)

end Parts

/-! ### Runs -/

section Runs

variable {step : γ → ℕ} {c : Config (γ × τ) (IdService γ) LeafPc} {i : γ × τ} {gap : ℕ}
  {s' : IdService γ} {p : LeafPc}

/-- What a step makes true, for the caller that took it and for the others. -/
structure Kept (step : γ → ℕ) (c : Config (γ × τ) (IdService γ) LeafPc) (i : γ × τ)
    (s' : IdService γ) (p : LeafPc) : Prop where
  sound : Sound step s'
  own : At step i s' p
  others : ∀ j ≠ i, At step j s' (c.threads j)
  apart : ∀ j ≠ i, Apart i j p (c.threads j)

/-- A caller that holds no id is apart from all others. -/
theorem apart_of_none {j : γ × τ} {q : LeafPc} (h : p.id? = none) : Apart i j p q :=
  fun _ _ hid => absurd (h.symm.trans hid) nofun

/-- A step that returns the id that its caller holds. -/
theorem kept_give {s : IdService γ} {id : ℕ} (hsound : Sound step s)
    (hat : ∀ j, At step j s (c.threads j)) (hown : At step i s (.staged id))
    (hapart : ∀ j ≠ i, Apart i j (.staged id) (c.threads j)) :
    Kept step c i (s.give i.1 id) .idle :=
  ⟨hsound.give hown.2.2 hown.1 hown.2.1, trivial,
    fun j hj => (hat j).give fun hg => hapart j hj hg.symm id rfl, fun _ _ => apart_of_none rfl⟩

variable [DecidableEq γ]

/-- The `fetch_add`: the new id is the old cursor, which no other caller holds. -/
theorem kept_fetch (hsound : Sound step c.shared) (hat : ∀ j, At step j c.shared (c.threads j))
    {gen : LeafIdGen} (hgen : c.shared.gens i.1 = some gen) :
    Kept step c i (c.shared.put i.1 { gen with cursor := gen.cursor + 1 })
      (.fetched gen.cursor) where
  sound := hsound.put_of_le hgen (Nat.le_succ _) rfl fun start => hsound.ahead i.1 gen start hgen
  own := by
    refine ⟨⟨_, by rw [gens_put, if_pos rfl], lt_add_one _⟩, fun hmem => ?_, ?_⟩
    · obtain ⟨gen₁, hgen₁, hlt⟩ := hsound.taken _ hmem
      obtain rfl := some.inj (hgen.symm.trans hgen₁)
      exact lt_irrefl _ hlt
    · obtain ⟨start, hmem, hend, hle⟩ := hsound.current i.1 gen hgen
      rcases lt_or_ge gen.cursor gen.endId with hlt | hge
      · exact .inr ⟨start, hmem, hle, hend ▸ hlt⟩
      · exact .inl ⟨{ gen with cursor := gen.cursor + 1 }, by rw [gens_put, if_pos rfl], hge⟩
  others := fun j _ => (hat j).put_of_le hgen (Nat.le_succ _) rfl
  apart := by
    rintro j - hg id hid hid'
    obtain ⟨gen₁, hgen₁, hlt⟩ := ((hat j).of_id hid').1
    rw [← hg] at hgen₁
    obtain rfl := some.inj (hgen.symm.trans hgen₁)
    cases hid
    exact lt_irrefl _ hlt

/-- A step that writes its generator, whose segment and cursor stay good. -/
theorem kept_put {s : IdService γ} {gen gen' : LeafIdGen} (hsound : Sound step s)
    (hat : ∀ j, At step j s (c.threads j)) (hgen : s.gens i.1 = some gen)
    (hcursor : gen.cursor ≤ gen'.cursor) (hend : gen'.endId = gen.endId)
    (hahead : ∀ start, gen'.next = some start → (i.1, start) ∈ s.drawn) (hown : At step i s p)
    (hapart : ∀ j ≠ i, Apart i j p (c.threads j)) : Kept step c i (s.put i.1 gen') p :=
  ⟨hsound.put_of_le hgen hcursor hend hahead, hown.put_of_le hgen hcursor hend,
    fun j _ => (hat j).put_of_le hgen hcursor hend, hapart⟩

section

variable (hok : Timely c i gap)
  (hsound : Sound step c.shared)
  (hat : ∀ j, At step j c.shared (c.threads j))
  (hapart : ∀ j ≠ i, Apart i j (c.threads i) (c.threads j))
include hok hsound hat hapart

/-- **One step of `next_id` keeps the invariant** if it is timely. -/
theorem kept_nextId {gen : LeafIdGen} (hgen : c.shared.gens i.1 = some gen)
    (hnext : nextId step i.1 c.shared gen gap (c.threads i) = some (s', p)) :
    Kept step c i s' p := by
  have hown := hat i
  have hahead : ∀ start, gen.next = some start → (i.1, start) ∈ c.shared.drawn := fun start =>
    hsound.ahead i.1 gen start hgen
  generalize hpc : c.threads i = pc at hnext hown hapart
  cases pc with
  | idle | retry =>
    cases hnext
    exact kept_fetch hsound hat hgen
  | fetched id =>
    rw [nextId] at hnext
    split at hnext
    · -- the end is not reached, so the id lies in a segment
      rename_i hlt
      have howned : c.shared.Owned step i.1 id := by
        rcases hown.2.2 with ⟨gen₁, hgen₁, hge⟩ | howned
        · obtain rfl := some.inj (hgen.symm.trans hgen₁)
          exact absurd hlt (not_lt.mpr hge)
        · exact howned
      split at hnext
      · cases hnext
        exact ⟨hsound, ⟨hown.1, hown.2.1, howned⟩, fun j _ => hat j, hapart⟩
      · cases hnext
        exact kept_give hsound hat ⟨hown.1, hown.2.1, howned⟩ hapart
    · cases hnext
      exact ⟨hsound, trivial, fun j _ => hat j, fun _ _ => apart_of_none rfl⟩
  | stage id =>
    rw [nextId] at hnext
    split at hnext
    · cases hnext
      exact kept_give hsound hat hown hapart
    · cases hnext
      exact kept_put hsound hat hgen le_rfl rfl hahead hown hapart
  | staging id =>
    rw [nextId] at hnext
    split at hnext
    · cases hnext
      refine kept_put (hsound.draw i.1 gap) (fun j => (hat j).draw i.1 gap) hgen le_rfl rfl
        (fun start heq => ?_) (At.draw (q := .staged id) hown i.1 gap) hapart
      cases heq
      exact mem_cons_self
    · cases hnext
      exact ⟨hsound, hown, fun j _ => hat j, hapart⟩
  | staged id =>
    cases hnext
    have hkept : Kept step c i (c.shared.put i.1 { gen with locked := false }) _ :=
      kept_put hsound hat hgen le_rfl rfl hahead hown hapart
    exact kept_give hkept.sound (fun j => (hat j).put_of_le hgen le_rfl rfl) hkept.own hapart
  | exhausted endId =>
    rw [nextId] at hnext
    split at hnext
    · cases hnext
    · cases hnext
      exact kept_put hsound hat hgen le_rfl rfl hahead trivial fun _ _ => apart_of_none rfl
  | locked endId =>
    rw [nextId] at hnext
    split at hnext
    all_goals
      cases hnext
      exact ⟨hsound, trivial, fun j _ => hat j, fun _ _ => apart_of_none rfl⟩
  | taking =>
    rw [nextId] at hnext
    split at hnext
    · rename_i start hstart
      cases hnext
      exact kept_put hsound hat hgen le_rfl rfl nofun (hahead start hstart)
        fun _ _ => apart_of_none rfl
    · cases hnext
      exact ⟨hsound.draw i.1 gap, mem_cons_self, fun j _ => (hat j).draw i.1 gap,
        fun _ _ => apart_of_none rfl⟩
  | raising start =>
    cases hnext
    exact ⟨hsound.put_of_le hgen (Nat.le_max_left _ _) rfl hahead,
      ⟨hown, _, by rw [gens_put, if_pos rfl], Nat.le_max_right _ _⟩,
      fun j _ => (hat j).put_of_le hgen (Nat.le_max_left _ _) rfl, fun _ _ => apart_of_none rfl⟩
  | storing start =>
    cases hnext
    obtain ⟨hmem, gen₁, hgen₁, hstart⟩ := hown
    obtain rfl := some.inj (hgen.symm.trans hgen₁)
    have hcursor : ∀ gen₁, c.shared.gens i.1 = some gen₁ → gen₁.cursor ≤ gen.cursor :=
      fun gen₁ hgen₁ => by rw [some.inj (hgen.symm.trans hgen₁)]
    refine ⟨hsound.put hcursor ⟨start, hmem, rfl, hstart⟩ hahead, trivial, fun j _ =>
      (hat j).put hcursor fun hg gen₁ id hgen₁ hid hge => ?_, fun _ _ => apart_of_none rfl⟩
    -- the caller took its id beyond the old end, and not before the new segment
    obtain rfl := some.inj (hgen.symm.trans hgen₁)
    obtain ⟨g, t⟩ := j
    obtain rfl : g = i.1 := hg
    have htimely := hok start (by rw [hpc]; rfl) gen hgen t id hid
    rcases lt_or_ge id (start + step i.1) with hlt | hge'
    · exact .inr ⟨start, hmem, by omega, hlt⟩
    · exact .inl hge'
  | unlocking =>
    cases hnext
    exact kept_put hsound hat hgen le_rfl rfl hahead trivial fun _ _ => apart_of_none rfl

/-- **One step keeps the invariant** if it is timely. -/
theorem kept_next (hnext : next step i c.shared (c.threads i) gap = some (s', p)) :
    Kept step c i s' p := by
  rw [next] at hnext
  split at hnext
  · rename_i gen hgen
    exact kept_nextId hok hsound hat hapart hgen hnext
  · rename_i hnone
    split at hnext
    · cases hnext
      have hcursor : ∀ gen, c.shared.gens i.1 = some gen →
          gen.cursor ≤ c.shared.maxId + gap := fun gen hgen => absurd (hnone.symm.trans hgen) nofun
      exact ⟨(hsound.draw i.1 gap).put hcursor ⟨_, mem_cons_self, rfl, le_rfl⟩ nofun,
        trivial, fun j _ => ((hat j).draw i.1 gap).put hcursor fun _ gen _ hgen =>
          absurd (hnone.symm.trans hgen) nofun, fun j _ => apart_of_none rfl⟩
    · cases hnext

end

/-- **Leaf ids are unique.** In every interleaving of the callers of any generators whose steps are
timely, every id that was returned lies in a segment that its generator drew, and no id was
returned twice. -/
theorem leaf_ids_unique [DecidableEq τ] (step : γ → ℕ) (first : ℕ)
    (c : Config (γ × τ) (IdService γ) LeafPc)
    (hreach : Reachable (next step) Timely (start first) c) :
    (∀ p ∈ c.shared.returned,
      ∃ start, (p.1, start) ∈ c.shared.drawn ∧ start ≤ p.2 ∧ p.2 < start + step p.1) ∧
      (c.shared.returned.map Prod.snd).Nodup := by
  have hinv := hreach.invariant_pairs (G := Sound step) (L := At step) (R := Apart)
    (fun i j p q h hg id hid hid' => h hg.symm id hid' hid) ?_
    fun c i gap s' p _ hok hsound hat hapart hnext => by
      obtain ⟨hsound', hown, hothers, hapart'⟩ := kept_next hok hsound hat hapart hnext
      exact ⟨hsound', hown, hothers, hapart'⟩
  · exact ⟨hinv.1.owned, hinv.1.nodup⟩
  · refine ⟨⟨nofun, ?_, nofun, nofun, nofun, nofun, nodup_nil⟩, fun _ => trivial, fun _ _ _ =>
      apart_of_none rfl⟩
    rintro g g' id ⟨_, hmem, -⟩
    cases hmem

end Runs

/-- A caller that installs a second segment and returns three ids. -/
theorem leaf_ids_unique_alone : ∃ c : Config (Bool × Bool) (IdService Bool) LeafPc,
    Reachable (next fun _ => 2) Timely (start 0) c ∧
      c.shared.drawn = [(false, 4), (false, 2), (false, 0)] ∧
      c.shared.returned = [(false, 3), (false, 1), (false, 0)] ∧
      (c.shared.returned.map Prod.snd).Nodup := by
  have hrun : ((start 0 : Config (Bool × Bool) (IdService Bool) LeafPc).runIf (next fun _ => 2)
      Timely (List.replicate 21 ((false, false), 0))).map
        (fun c => (c.shared.drawn, c.shared.returned)) =
      some ([(false, 4), (false, 2), (false, 0)], [(false, 3), (false, 1), (false, 0)]) := by
    decide +kernel
  obtain ⟨c, hc, heq⟩ := map_eq_some_iff.mp hrun
  obtain ⟨hdrawn, hreturned⟩ := Prod.mk.inj heq
  have hreach := Reachable.start.runIf hc
  exact ⟨c, hreach, hdrawn, hreturned, (leaf_ids_unique _ 0 c hreach).2⟩

/-- **A late caller gets a foreign id.** Two generators drew the segments from 0 and from 2. A
caller of the first one takes id 2 and waits; another one installs the segment from 4; the first
one then reads the end 6 and returns id 2, which the second generator returns as well. -/
theorem late_caller : ∃ c : Config (Bool × Bool) (IdService Bool) LeafPc,
    Reachable (next fun _ => 2) (fun _ _ _ => True) (start 0) c ∧
      c.shared.drawn = [(false, 4), (true, 2), (false, 0)] ∧
      c.shared.returned = [(true, 2), (false, 2), (false, 1), (false, 0)] := by
  have hrun : ((start 0 : Config (Bool × Bool) (IdService Bool) LeafPc).runIf (next fun _ => 2)
      (fun _ _ _ => True) (((false, false), 0) :: ((true, false), 0) ::
        List.replicate 8 ((false, false), 0) ++ List.replicate 9 ((false, true), 0) ++
          [((false, false), 0), ((true, false), 0), ((true, false), 0)])).map
      (fun c => (c.shared.drawn, c.shared.returned)) =
      some ([(false, 4), (true, 2), (false, 0)],
        [(true, 2), (false, 2), (false, 1), (false, 0)]) := by decide +kernel
  obtain ⟨c, hc, heq⟩ := map_eq_some_iff.mp hrun
  obtain ⟨hdrawn, hreturned⟩ := Prod.mk.inj heq
  exact ⟨c, Reachable.start.runIf hc, hdrawn, hreturned⟩

end IdService

end TradeCore
