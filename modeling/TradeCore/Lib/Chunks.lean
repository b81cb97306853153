import TradeCore.Lib.Framing

/-!
# Chunks

A byte string cut into chunks of one length, with a rest that is too short to be one. Records
of a fixed length are read chunk by chunk, also where some of them are damaged, so that scans
over **arbitrary** bytes become folds over chunks.

* `chunks k bs` are the complete chunks of `bs`; `chunks_spec` recomposes `bs` from them.
* `foldRecords_intact` — a scan that refuses damaged chunks.
* `foldRecords_takeWhile` — a scan that stops at the first chunk it does not want.
* `take_eq_flatten` — cutting after some chunks.
-/

open List

/-- A mapped result that succeeds comes from one that does. -/
theorem exists_of_map_eq_ok {ε α β : Type} {x : Except ε α} {f : α → β} {b : β}
    (h : x.map f = .ok b) : ∃ a, x = .ok a ∧ f a = b := by
  cases x with
  | error e => cases h
  | ok a =>
    cases h
    exact ⟨a, rfl, rfl⟩

/-- The complete chunks of a byte string, with at most `fuel` of them. -/
def chunksFuel (k : ℕ) : ℕ → List UInt8 → List (List UInt8)
  | 0, _ => []
  | fuel + 1, bs =>
    match readExact k bs with
    | none => []
    | some (chunk, rest) => chunk :: chunksFuel k fuel rest

/-- The complete chunks of a byte string. -/
def chunks (k : ℕ) (bs : List UInt8) : List (List UInt8) := chunksFuel k bs.length bs

section

variable {k : ℕ}

/-- A byte string begins with a chunk, or is too short. -/
theorem readExact_cases (k : ℕ) (bs : List UInt8) :
    (bs.length < k ∧ readExact k bs = none) ∨
      ∃ chunk rest, chunk.length = k ∧ bs = chunk ++ rest ∧
        readExact k bs = some (chunk, rest) := by
  by_cases h : k ≤ bs.length
  · exact .inr ⟨bs.take k, bs.drop k, length_take_of_le h, (take_append_drop k bs).symm, if_pos h⟩
  · exact .inl ⟨not_le.mp h, if_neg h⟩

/-- Chunks and a short rest are taken apart again, given enough fuel. -/
theorem chunksFuel_flatten {cs : List (List UInt8)} (hcs : ∀ c ∈ cs, c.length = k)
    {t : List UInt8} (ht : t.length < k) {fuel : ℕ} (hfuel : cs.length ≤ fuel) :
    chunksFuel k fuel (cs.flatten ++ t) = cs := by
  induction cs generalizing fuel with
  | nil =>
    cases fuel with
    | zero => rfl
    | succ fuel => simp [chunksFuel, readExact_of_lt ht]
  | cons c cs ih =>
    cases fuel with
    | zero => simp at hfuel
    | succ fuel =>
      have hread := readExact_append (hcs c mem_cons_self) (cs.flatten ++ t)
      rw [flatten_cons, append_assoc, chunksFuel, hread]
      exact congrArg (c :: ·)
        (ih (fun c hc => hcs c (mem_cons_of_mem _ hc)) (Nat.le_of_succ_le_succ hfuel))

/-- A byte string has at least as many bytes as chunks. -/
theorem length_le_flatten (hk : 0 < k) {cs : List (List UInt8)} (hcs : ∀ c ∈ cs, c.length = k) :
    cs.length ≤ cs.flatten.length := by
  induction cs with
  | nil => simp
  | cons c cs ih =>
    have hc := hcs c mem_cons_self
    have := ih fun c hc => hcs c (mem_cons_of_mem _ hc)
    rw [flatten_cons, length_append, length_cons]
    omega

/-- Chunks and a short rest are taken apart again. -/
theorem chunks_flatten {cs : List (List UInt8)} (hcs : ∀ c ∈ cs, c.length = k)
    {t : List UInt8} (ht : t.length < k) : chunks k (cs.flatten ++ t) = cs := by
  refine chunksFuel_flatten hcs ht ?_
  have := length_le_flatten (by omega) hcs
  rw [length_append]
  omega

/-- **Every byte string is its chunks and a short rest.** -/
theorem chunks_spec (hk : 0 < k) (bs : List UInt8) :
    (∀ c ∈ chunks k bs, c.length = k) ∧
      ∃ t, t.length < k ∧ bs = (chunks k bs).flatten ++ t := by
  suffices ∃ cs : List (List UInt8), (∀ c ∈ cs, c.length = k) ∧
      ∃ t, t.length < k ∧ bs = cs.flatten ++ t by
    obtain ⟨cs, hcs, t, ht, rfl⟩ := this
    rw [chunks_flatten hcs ht]
    exact ⟨hcs, t, ht, rfl⟩
  induction hn : bs.length using Nat.strong_induction_on generalizing bs with
  | h n ih =>
    obtain ⟨hlt, -⟩ | ⟨chunk, rest, hchunk, rfl, -⟩ := readExact_cases k bs
    · exact ⟨[], nofun, bs, hlt, rfl⟩
    · rw [length_append] at hn
      obtain ⟨cs, hcs, t, ht, rfl⟩ := ih rest.length (by omega) rest rfl
      exact ⟨chunk :: cs, forall_mem_cons.mpr ⟨hchunk, hcs⟩, t, ht, by simp⟩

/-- There are no more chunks than bytes. -/
theorem length_chunks_le (hk : 0 < k) (bs : List UInt8) : (chunks k bs).length ≤ bs.length := by
  obtain ⟨hcs, t, -, hbs⟩ := chunks_spec hk bs
  have hle := length_le_flatten hk hcs
  have hlen := congrArg length hbs
  rw [length_append] at hlen
  omega

variable {ε ρ σ : Type} {next : List UInt8 → Except ε (Option (ρ × List UInt8))}
variable {f : σ → ρ → Except ε σ}

/-- **A scan that refuses a damaged chunk and succeeds** has found all chunks intact, and is
the fold over what they hold. -/
theorem foldRecords_intact {intact : List UInt8 → Bool} {decode : List UInt8 → ρ} {e : ε}
    (hk : 0 < k) (hshort : ∀ bs, bs.length < k → next bs = .ok none)
    (hnext : ∀ c rest, c.length = k →
      next (c ++ rest) = if intact c then .ok (some (decode c, rest)) else .error e)
    {s : σ} {bs : List UInt8} {res : σ × List UInt8}
    (h : foldRecords next f bs.length s bs = .ok res) :
    (∀ c ∈ chunks k bs, intact c) ∧ ((chunks k bs).map decode).foldlM f s = .ok res.1 := by
  obtain ⟨hcs, t, ht, hbs⟩ := chunks_spec hk bs
  have hfuel := length_chunks_le hk bs
  generalize chunks k bs = cs at hcs hbs hfuel ⊢
  generalize bs.length = fuel at h hfuel
  subst hbs
  induction cs generalizing fuel s with
  | nil =>
    refine ⟨nofun, ?_⟩
    cases fuel with
    | zero =>
      cases h
      rfl
    | succ fuel =>
      simp only [flatten_nil, nil_append, foldRecords, hshort t ht] at h
      cases h
      rfl
  | cons c cs ih =>
    cases fuel with
    | zero => simp at hfuel
    | succ fuel =>
      have hread := hnext c (cs.flatten ++ t) (hcs c mem_cons_self)
      rw [flatten_cons, append_assoc] at h
      by_cases hc : intact c
      · rw [if_pos hc] at hread
        rw [foldRecords_item f hread] at h
        cases hf : f s (decode c) with
        | error e' =>
          rw [hf] at h
          cases h
        | ok s' =>
          rw [hf] at h
          obtain ⟨hall, hfold⟩ := ih (fun c hc => hcs c (mem_cons_of_mem _ hc)) fuel
            (Nat.le_of_succ_le_succ hfuel) h
          refine ⟨forall_mem_cons.mpr ⟨hc, hall⟩, ?_⟩
          rw [map_cons, foldlM_cons, hf]
          exact hfold
      · rw [if_neg hc] at hread
        rw [foldRecords, hread] at h
        cases h

/-- **A scan that stops at the first chunk it does not want** is a fold over the chunks before
it. -/
theorem foldRecords_takeWhile {want : List UInt8 → Bool} {decode : List UInt8 → ρ}
    (hk : 0 < k) (hshort : ∀ bs, bs.length < k → next bs = .ok none)
    (hnext : ∀ c rest, c.length = k →
      next (c ++ rest) = if want c then .ok (some (decode c, rest)) else .ok none)
    (s : σ) (bs : List UInt8) :
    ∃ rest, foldRecords next f bs.length s bs =
      (((chunks k bs).takeWhile want).foldlM (fun s c => f s (decode c)) s).map
        fun s => (s, rest) := by
  obtain ⟨hcs, t, ht, hbs⟩ := chunks_spec hk bs
  have hfuel := length_chunks_le hk bs
  generalize chunks k bs = cs at hcs hbs hfuel ⊢
  generalize bs.length = fuel at hfuel ⊢
  subst hbs
  induction cs generalizing fuel s with
  | nil =>
    refine ⟨t, ?_⟩
    cases fuel with
    | zero => rfl
    | succ fuel =>
      simp only [flatten_nil, nil_append, foldRecords, hshort t ht]
      rfl
  | cons c cs ih =>
    cases fuel with
    | zero => simp at hfuel
    | succ fuel =>
      have hread := hnext c (cs.flatten ++ t) (hcs c mem_cons_self)
      rw [flatten_cons, append_assoc]
      by_cases hw : want c
      · rw [if_pos hw] at hread
        rw [foldRecords_item f hread, takeWhile_cons_of_pos hw, foldlM_cons]
        cases hf : f s (decode c) with
        | error e => exact ⟨t, rfl⟩
        | ok s' =>
          exact ih s' (fun c hc => hcs c (mem_cons_of_mem _ hc)) fuel
            (Nat.le_of_succ_le_succ hfuel)
      · rw [if_neg hw] at hread
        rw [takeWhile_cons_of_neg hw, foldRecords, hread]
        exact ⟨_, rfl⟩

/-- Cutting after some chunks keeps exactly these. -/
theorem take_eq_flatten (hk : 0 < k) {bs : List UInt8} {m : ℕ} (hm : m ≤ (chunks k bs).length) :
    bs.take (k * m) = ((chunks k bs).take m).flatten := by
  obtain ⟨hcs, t, ht, hbs⟩ := chunks_spec hk bs
  generalize chunks k bs = cs at *
  have hkeep : ∀ c ∈ cs.take m, c.length = k := fun c hc => hcs c (mem_of_mem_take hc)
  have hlen : ((cs.take m).flatten).length = k * m := by
    rw [length_flatten, map_congr_left (g := fun _ => k) hkeep]
    simp [hm, mul_comm]
  rw [hbs, ← take_append_drop m cs, flatten_append, append_assoc, take_left' hlen]
  simp

end
