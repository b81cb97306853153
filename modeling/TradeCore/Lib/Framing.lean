import TradeCore.Lib.Bytes

/-!
# Framed Logs

An append-only file is a byte string made of the encodings of records, one after the other.
A crash can cut it at any byte. A **framing** is an encoding of records together with a
reader of the next record that recognises every complete record and stops, without an
error, inside an incomplete one.

Reading a cut file with a framing gives exactly the records that the cut left complete, and
leaves the torn rest unread: this is the one fact that every recovery scan rests on.

## Main results

* `foldRecords_invariant` — what each record preserves holds after a scan.
* `Framing.take_encode` — a byte prefix of a log is the log of its complete records
  followed by a torn rest.
* `Framing.foldRecords_encode` — scanning a log with a torn rest is folding its records.
* `Framing.foldRecords_reject` — a scan fails at a record that the reader rejects.
* `Framing.take_encode_of_fixed` — with records of one length, cutting after whole records.
-/

/-- Read records with `next` and fold them with `f` until `next` finds no further record.
The bytes left unread are returned as well. -/
def foldRecords {ε ρ σ : Type} (next : List UInt8 → Except ε (Option (ρ × List UInt8)))
    (f : σ → ρ → Except ε σ) : ℕ → σ → List UInt8 → Except ε (σ × List UInt8)
  | 0, s, bs => .ok (s, bs)
  | fuel + 1, s, bs => do
    match ← next bs with
    | none => .ok (s, bs)
    | some (r, rest) => foldRecords next f fuel (← f s r) rest

/-- One turn of a scan: read a record, fold it, go on. -/
theorem foldRecords_item {ε ρ σ : Type} {next : List UInt8 → Except ε (Option (ρ × List UInt8))}
    (f : σ → ρ → Except ε σ) {bs rest : List UInt8} {r : ρ}
    (h : next bs = .ok (some (r, rest))) (fuel : ℕ) (s : σ) :
    foldRecords next f (fuel + 1) s bs =
      (f s r).bind fun s' => foldRecords next f fuel s' rest := by
  rw [foldRecords, h]
  rfl

/-- What every record preserves holds at the end of a scan. -/
theorem foldRecords_invariant {ε ρ σ : Type}
    {next : List UInt8 → Except ε (Option (ρ × List UInt8))} {f : σ → ρ → Except ε σ}
    {P : σ → Prop} (hP : ∀ s r s', P s → f s r = .ok s' → P s') {fuel : ℕ} {s : σ}
    {bs : List UInt8} {res : σ × List UInt8} (hs : P s)
    (h : foldRecords next f fuel s bs = .ok res) : P res.1 := by
  induction fuel generalizing s bs with
  | zero =>
    cases h
    exact hs
  | succ fuel ih =>
    cases hn : next bs with
    | error e =>
      rw [foldRecords, hn] at h
      cases h
    | ok o =>
      cases o with
      | none =>
        rw [foldRecords, hn] at h
        cases h
        exact hs
      | some item =>
        rw [foldRecords_item f hn] at h
        cases hf : f s item.1 with
        | error e =>
          rw [hf] at h
          cases h
        | ok s' =>
          rw [hf] at h
          exact ih (hP s item.1 s' hs hf) h

/-- An encoding of records and a reader of the next record. The records that the reader
accepts are the `Valid` ones. -/
structure Framing (ε ρ : Type) where
  enc : ρ → List UInt8
  next : List UInt8 → Except ε (Option (ρ × List UInt8))
  Valid : ρ → Prop
  next_nil : next [] = .ok none
  next_enc : ∀ r rest, Valid r → next (enc r ++ rest) = .ok (some (r, rest))
  next_torn : ∀ r t, Valid r → t <+: enc r → t ≠ enc r → next t = .ok none

open List Option

namespace Framing

variable {ε ρ σ : Type} (F : Framing ε ρ)

/-- A log: the encodings of the records in order. -/
def encode (rs : List ρ) : List UInt8 := rs.flatMap F.enc

@[simp] theorem encode_nil : F.encode [] = [] := rfl

@[simp] theorem encode_cons (r : ρ) (rs : List ρ) :
    F.encode (r :: rs) = F.enc r ++ F.encode rs := rfl

@[simp] theorem encode_append (rs rs' : List ρ) :
    F.encode (rs ++ rs') = F.encode rs ++ F.encode rs' := flatMap_append

/-- The records that lie completely within the first `n` bytes of a log. -/
def complete : List ρ → ℕ → List ρ
  | [], _ => []
  | r :: rs, n =>
    if (F.enc r).length ≤ n then r :: complete rs (n - (F.enc r).length) else []

/-- The complete records are the first ones. -/
theorem complete_isPrefix (rs : List ρ) (n : ℕ) : F.complete rs n <+: rs := by
  induction rs generalizing n with
  | nil => exact nil_prefix
  | cons r rs ih =>
    unfold complete
    split
    · exact cons_prefix_cons.mpr ⟨rfl, ih _⟩
    · exact nil_prefix

/-- **Torn** bytes: a proper beginning of one record, possibly empty. -/
def Torn (t : List UInt8) : Prop := t = [] ∨ ∃ r, F.Valid r ∧ t <+: F.enc r ∧ t ≠ F.enc r

/-- The reader stops in front of torn bytes. -/
theorem Torn.next_eq {t : List UInt8} (h : F.Torn t) : F.next t = .ok none := by
  obtain rfl | ⟨r, hr, ht, hne⟩ := h
  · exact F.next_nil
  · exact F.next_torn r t hr ht hne

/-- A record takes at least one byte: the reader could not tell it from the end otherwise. -/
theorem enc_ne_nil {r : ρ} (hr : F.Valid r) : F.enc r ≠ [] := by
  intro h
  have hitem := F.next_enc r [] hr
  rw [h, append_nil, F.next_nil] at hitem
  cases hitem

/-- A log has at least as many bytes as records. -/
theorem length_le_encode {rs : List ρ} (h : ∀ r ∈ rs, F.Valid r) :
    rs.length ≤ (F.encode rs).length := by
  induction rs with
  | nil => simp
  | cons r rs ih =>
    have hpos := length_pos_iff.mpr (F.enc_ne_nil (h r mem_cons_self))
    have := ih fun r hr => h r (mem_cons_of_mem _ hr)
    simp only [length_cons, encode_cons, length_append]
    omega

/-- **A cut log** is the log of its complete records, followed by torn bytes. -/
theorem take_encode {rs : List ρ} (h : ∀ r ∈ rs, F.Valid r) (n : ℕ) :
    ∃ t, F.Torn t ∧ (F.encode rs).take n = F.encode (F.complete rs n) ++ t := by
  induction rs generalizing n with
  | nil => exact ⟨[], .inl rfl, by simp [complete]⟩
  | cons r rs ih =>
    unfold complete
    split
    · rename_i hle
      obtain ⟨t, ht, heq⟩ := ih (fun r hr => h r (mem_cons_of_mem _ hr))
        (n - (F.enc r).length)
      refine ⟨t, ht, ?_⟩
      rw [encode_cons, take_append, take_of_length_le hle, heq, encode_cons, append_assoc]
    · rename_i hlt
      refine ⟨(F.enc r).take n, .inr ⟨r, h r mem_cons_self, take_prefix _ _, ?_⟩, ?_⟩
      · intro heq
        exact hlt (take_eq_self_iff _ |>.mp heq)
      · rw [encode_cons, take_append, Nat.sub_eq_zero_of_le (by omega)]
        simp

/-- Scanning at most `fuel` records of a log with a torn rest is folding the first ones. -/
theorem foldRecords_encode_take (f : σ → ρ → Except ε σ) {rs : List ρ} (h : ∀ r ∈ rs, F.Valid r)
    {t : List UInt8} (ht : F.Torn t) (fuel : ℕ) (s : σ) :
    foldRecords F.next f fuel s (F.encode rs ++ t) =
      ((rs.take fuel).foldlM f s).map (·, F.encode (rs.drop fuel) ++ t) := by
  induction rs generalizing fuel s with
  | nil =>
    cases fuel with
    | zero => rfl
    | succ fuel =>
      simp only [encode_nil, nil_append, foldRecords, ht.next_eq]
      rfl
  | cons r rs ih =>
    cases fuel with
    | zero => rfl
    | succ fuel =>
      have hnext := F.next_enc r (F.encode rs ++ t) (h r mem_cons_self)
      rw [encode_cons, append_assoc, foldRecords_item f hnext, take_succ_cons,
        foldlM_cons, drop_succ_cons]
      cases hf : f s r with
      | error e => rfl
      | ok s' => exact ih (fun r hr => h r (mem_cons_of_mem _ hr)) fuel s'

/-- **Scanning a log with a torn rest is folding its records.** -/
theorem foldRecords_encode (f : σ → ρ → Except ε σ) {rs : List ρ} (h : ∀ r ∈ rs, F.Valid r)
    {t : List UInt8} (ht : F.Torn t) {fuel : ℕ} (hfuel : rs.length ≤ fuel) (s : σ) :
    foldRecords F.next f fuel s (F.encode rs ++ t) = (rs.foldlM f s).map (·, t) := by
  rw [F.foldRecords_encode_take f h ht, take_of_length_le hfuel, drop_of_length_le hfuel]
  rfl

/-- **A scan fails at the first rejected record**, unless the fold failed before it. -/
theorem foldRecords_reject (f : σ → ρ → Except ε σ) {rs : List ρ} (h : ∀ r ∈ rs, F.Valid r)
    {bs : List UInt8} {e : ε} (hbs : F.next bs = .error e) {fuel : ℕ}
    (hfuel : rs.length < fuel) (s : σ) :
    foldRecords F.next f fuel s (F.encode rs ++ bs) = (rs.foldlM f s).bind fun _ => .error e := by
  induction rs generalizing fuel s with
  | nil =>
    obtain ⟨fuel, rfl⟩ : ∃ k, fuel = k + 1 := ⟨fuel - 1, by simp at hfuel; omega⟩
    simp only [encode_nil, nil_append, foldRecords, hbs]
    rfl
  | cons r rs ih =>
    obtain ⟨fuel, rfl⟩ : ∃ k, fuel = k + 1 := ⟨fuel - 1, by simp at hfuel; omega⟩
    have hnext := F.next_enc r (F.encode rs ++ bs) (h r mem_cons_self)
    rw [encode_cons, append_assoc, foldRecords_item f hnext, foldlM_cons]
    cases hf : f s r with
    | error e => rfl
    | ok s' =>
      exact ih (fun r hr => h r (mem_cons_of_mem _ hr)) (by simpa using hfuel) s'

/-! ### Records of one length -/

section Fixed

variable {F} {len : ℕ} (hlen : ∀ r, (F.enc r).length = len)

include hlen

theorem length_encode_of_fixed (rs : List ρ) : (F.encode rs).length = len * rs.length := by
  induction rs with
  | nil => rfl
  | cons r rs ih =>
    rw [encode_cons, length_append, ih, hlen, length_cons, Nat.mul_succ, add_comm]

/-- Cutting after whole records leaves the first records. -/
theorem take_encode_of_fixed (rs : List ρ) (k : ℕ) :
    (F.encode rs).take (len * k) = F.encode (rs.take k) := by
  induction k generalizing rs with
  | zero => simp
  | succ k ih =>
    cases rs with
    | nil => simp
    | cons r rs =>
      rw [encode_cons, take_append, hlen,
        take_of_length_le (by rw [hlen, Nat.mul_succ]; omega), Nat.mul_succ,
        Nat.add_sub_cancel, ih, take_succ_cons, encode_cons]

/-- What lies behind whole records is the log of the others. -/
theorem drop_encode_of_fixed (rs : List ρ) (k : ℕ) :
    (F.encode rs).drop (len * k) = F.encode (rs.drop k) := by
  have hsplit : F.encode rs = F.encode (rs.take k) ++ F.encode (rs.drop k) := by
    rw [← encode_append, take_append_drop]
  refine @List.append_cancel_left _ (F.encode (rs.take k)) _ _ ?_
  rw [← hsplit, ← take_encode_of_fixed hlen, take_append_drop]

/-- Torn bytes are shorter than a record. -/
theorem Torn.length_lt (hpos : 0 < len) {t : List UInt8} (h : F.Torn t) : t.length < len := by
  rcases h with rfl | ⟨r, -, ht, hne⟩
  · exact hpos
  · exact hlen r ▸ length_lt_of_isPrefix_ne ht hne

end Fixed

/-- Collecting the records one by one returns them all. -/
theorem foldlM_collect (acc rs : List ρ) :
    rs.foldlM (fun acc r => (.ok (acc ++ [r]) : Except ε (List ρ))) acc = .ok (acc ++ rs) := by
  induction rs generalizing acc with
  | nil => simp [pure, Except.pure]
  | cons r rs ih => simp [foldlM_cons, bind, Except.bind, ih]

end Framing
