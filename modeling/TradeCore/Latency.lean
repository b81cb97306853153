import TradeCore.Lib.Apportion

/-!
# Latency Histograms

Samples are counted in 72 buckets with boundaries at `{1, …, 9} × 10^k` nanoseconds, from 1 µs to
90 s, and in one bucket for all larger samples. The bucket of a sample is not searched for: it is
computed from the decimal logarithm, the leading digit and a carry.

* `bucketIndex_spec` — it is the bucket that a search would find.
* `tallies_run` — a bucket counts its samples, in the width of the counter.
* `latency_buckets_exact` — so do the rendered cumulative counts.

The estimated quantiles of the rendering, computed in floating point, are left out.
-/

namespace TradeCore

open List

def MIN_EXP : ℕ := 3

def MAX_EXP : ℕ := 10

def PER_DECADE : ℕ := 9

def FINITE_BUCKETS : ℕ := (MAX_EXP - MIN_EXP + 1) * PER_DECADE

def BUCKET_COUNT : ℕ := FINITE_BUCKETS + 1

/-- A table up to 19, of which the first eleven entries are read. -/
def POW10 (i : ℕ) : ℕ := 10 ^ i

/-- The upper boundary of a finite bucket. -/
def bucketLe (i : ℕ) : ℕ :=
  let digit := i % PER_DECADE + 1
  let exp := MIN_EXP + i / PER_DECADE
  digit * POW10 exp

/-- The bucket of a sample, without a loop over the boundaries. -/
def bucketIndex (v : ℕ) : ℕ :=
  if v < 1000 then 0
  else
    let exp := Nat.log 10 v
    if MAX_EXP < exp then FINITE_BUCKETS
    else
      let pow := POW10 exp
      let digit := v / pow + if v % pow ≠ 0 then 1 else 0
      -- a remainder above the digit 9 is carried into the next decade
      let r := if digit = 10 then (exp + 1, 1) else (exp, digit)
      min ((r.1 - MIN_EXP) * PER_DECADE + (r.2 - 1)) FINITE_BUCKETS

/-! ### The bucket of a sample -/

/-- The boundaries of a decade, and the first of the next one. -/
theorem bucketLe_eq {e d : ℕ} (hd : d ≤ 9) : bucketLe (e * 9 + d) = (d + 1) * 10 ^ (3 + e) := by
  simp only [bucketLe, POW10, PER_DECADE, MIN_EXP]
  rcases hd.lt_or_eq with hd | rfl
  · rw [show (e * 9 + d) % 9 = d by omega, show (e * 9 + d) / 9 = e by omega]
  · rw [show (e * 9 + 9) % 9 = 0 by omega, show (e * 9 + 9) / 9 = e + 1 by omega]
    ring

theorem strictMono_bucketLe : StrictMono bucketLe := by
  refine strictMono_nat_of_lt_succ fun i => ?_
  obtain ⟨e, d, hd, rfl⟩ : ∃ e d, d < 9 ∧ i = e * 9 + d := ⟨i / 9, i % 9, by omega, by omega⟩
  rw [add_assoc, bucketLe_eq hd.le, bucketLe_eq hd]
  exact Nat.mul_lt_mul_of_pos_right (by omega) (by positivity)

/-- The leading digit of a number, rounded up. -/
theorem exists_digit {v pow : ℕ} (hlow : pow ≤ v) (hhigh : v < 10 * pow) :
    ∃ d ≤ 9, (v / pow + if v % pow ≠ 0 then 1 else 0) = d + 1 ∧ d * pow < v ∧
      v ≤ (d + 1) * pow := by
  have hpow : 0 < pow := by omega
  have hone : 1 ≤ v / pow := (Nat.one_le_div_iff hpow).mpr hlow
  have hten : v / pow < 10 := (Nat.div_lt_iff_lt_mul hpow).mpr hhigh
  have hv := Nat.div_add_mod' v pow
  have hmod := Nat.mod_lt v hpow
  split
  · refine ⟨v / pow, by omega, rfl, by omega, ?_⟩
    rw [add_mul]
    omega
  · refine ⟨v / pow - 1, by omega, by omega, ?_, ?_⟩
    · rw [Nat.sub_mul]
      omega
    · rw [Nat.sub_add_cancel hone]
      omega

/-- **The computed bucket is the one that a search finds**: the sample is above all boundaries
before it, and at or below its own if it has one. -/
theorem bucketIndex_spec (v : ℕ) : bucketIndex v ≤ FINITE_BUCKETS ∧
    (bucketIndex v < FINITE_BUCKETS → v ≤ bucketLe (bucketIndex v)) ∧
    ∀ j < bucketIndex v, bucketLe j < v := by
  unfold bucketIndex
  split
  · rename_i hv
    exact ⟨Nat.zero_le _, fun _ => hv.le, fun j hj => absurd hj j.not_lt_zero⟩
  rename_i hv
  have hlow := Nat.pow_log_le_self 10 (show v ≠ 0 by omega)
  have hhigh := Nat.lt_pow_succ_log_self (show 1 < 10 by omega) v
  have hexp : 3 ≤ Nat.log 10 v := Nat.le_log_of_pow_le (by omega) (by omega)
  simp only
  generalize Nat.log 10 v = exp at hlow hhigh hexp
  split
  · rename_i hmax
    refine ⟨le_rfl, fun h => absurd h (lt_irrefl _), fun j hj => ?_⟩
    calc bucketLe j < bucketLe (7 * 9 + 9) := strictMono_bucketLe hj
      _ = 10 ^ (10 + 1) := by rw [bucketLe_eq le_rfl]; norm_num
      _ ≤ 10 ^ exp := Nat.pow_le_pow_right (by omega) hmax
      _ ≤ v := hlow
  · rename_i hmax
    obtain ⟨e, rfl⟩ := Nat.exists_eq_add_of_le hexp
    obtain ⟨d, hd, hdigit, hlt, hle⟩ := exists_digit hlow (pow_succ' 10 (3 + e) ▸ hhigh)
    have hcarry : (if d + 1 = 10 then (3 + e + 1, 1) else (3 + e, d + 1)) =
        (3 + e + d / 9, d % 9 + 1) := by
      split <;> rw [Prod.mk.injEq] <;> omega
    have hbound : e * 9 + d ≤ FINITE_BUCKETS := by
      simp only [FINITE_BUCKETS, MAX_EXP, MIN_EXP, PER_DECADE] at hmax ⊢
      omega
    have hidx : min ((3 + e + d / 9 - MIN_EXP) * PER_DECADE + (d % 9 + 1 - 1)) FINITE_BUCKETS =
        e * 9 + d := by
      simp only [MIN_EXP, PER_DECADE]
      omega
    rw [POW10, hdigit, hcarry, hidx]
    refine ⟨hbound, fun _ => (bucketLe_eq hd).symm ▸ hle, fun j hj => ?_⟩
    -- before the decade of the sample, or at a smaller digit of it
    rcases lt_or_ge j (e * 9) with hj' | hj'
    · calc bucketLe j < bucketLe (e * 9 + 0) := strictMono_bucketLe hj'
        _ = 10 ^ (3 + e) := by rw [bucketLe_eq (Nat.zero_le 9), zero_add, one_mul]
        _ ≤ v := hlow
    · obtain ⟨d', rfl⟩ := Nat.exists_eq_add_of_le hj'
      rw [bucketLe_eq (by omega)]
      exact (Nat.mul_le_mul_right _ (by omega)).trans_lt hlt

/-- **A bucket up to a boundary** is that of a sample at or below the boundary. -/
theorem bucketIndex_le_iff (v : ℕ) {i : ℕ} (hi : i < FINITE_BUCKETS) :
    bucketIndex v ≤ i ↔ v ≤ bucketLe i := by
  obtain ⟨-, hle, hlt⟩ := bucketIndex_spec v
  constructor
  · exact fun h => (hle (h.trans_lt hi)).trans (strictMono_bucketLe.monotone h)
  · exact fun hv => Nat.le_of_not_lt fun h => absurd hv (hlt i h).not_ge

/-! ### Recording and rendering -/

/-- The counters of a histogram, by bucket. They wrap around. -/
structure LatencyHistogram where
  buckets : ℕ → UInt64
  sumNs : UInt64

namespace LatencyHistogram

def new : LatencyHistogram := ⟨fun _ => 0, 0⟩

/-- Record one sample. -/
def record (h : LatencyHistogram) (ns : UInt64) : LatencyHistogram :=
  let i := bucketIndex ns.toNat
  ⟨Function.update h.buckets i (h.buckets i + 1), h.sumNs + ns⟩

def count (counts : ℕ → UInt64) : UInt64 := ((range BUCKET_COUNT).map counts).sum

/-- The boundaries with their cumulative counts, and the count of all samples. -/
def bucketRows (counts : ℕ → UInt64) : List (String × UInt64) :=
  let r := (range FINITE_BUCKETS).foldl (fun r i =>
    (r.1 ++ [(toString (bucketLe i), r.2 + counts i)], r.2 + counts i)) ([], 0)
  r.1 ++ [("+Inf", r.2 + counts FINITE_BUCKETS)]

def bucketLine (base : String) (extraLabel : Option String) (row : String × UInt64) : String :=
  "tc_" ++ base ++ "_bucket\x7b" ++ extraLabel.elim "" (· ++ ",") ++ "le=\"" ++ row.1 ++
    "\"\x7d " ++ toString row.2 ++ "\n"

def gaugeLine (base suffix : String) (extraLabel : Option String) (value : UInt64) : String :=
  "tc_" ++ base ++ "_" ++ suffix ++ extraLabel.elim "" (fun l => "\x7b" ++ l ++ "\x7d") ++ " " ++
    toString value ++ "\n"

/-- The text of the histogram, up to the quantiles. -/
def renderInto (h : LatencyHistogram) (out base : String) (extraLabel : Option String) : String :=
  out ++ String.join ((bucketRows h.buckets).map (bucketLine base extraLabel)) ++
    gaugeLine base "sum" extraLabel h.sumNs ++ gaugeLine base "count" extraLabel (count h.buckets)

section

variable (samples : List UInt64)

/-- The buckets of the samples. -/
def bucketsOf : List ℕ := samples.map fun ns => bucketIndex ns.toNat

/-- **The counters after a run.** -/
theorem tallies_run : samples.foldl record new =
    ⟨fun i => UInt64.ofNat ((bucketsOf samples).count i), samples.sum⟩ := by
  induction samples using List.reverseRecOn with
  | nil => rfl
  | append_singleton samples ns ih =>
    have hof : bucketsOf (samples ++ [ns]) = bucketsOf samples ++ [bucketIndex ns.toNat] :=
      map_append
    rw [foldl_append, ih, foldl_cons, foldl_nil, record, hof, sum_append, sum_singleton, mk.injEq]
    refine ⟨funext fun i => ?_, rfl⟩
    rw [Function.update_apply, count_append, UInt64.ofNat_add, count_singleton]
    split
    · rename_i hi
      rw [hi, beq_self_eq_true, if_pos rfl]
      rfl
    · rename_i hi
      rw [if_neg (by simpa using Ne.symm hi)]
      exact (UInt64.add_zero _).symm

/-- The cumulative counts of the first buckets. -/
theorem foldl_rows (f : ℕ → ℕ) (k : ℕ) :
    (range k).foldl (fun (r : List (String × UInt64) × UInt64) i =>
        (r.1 ++ [(toString (bucketLe i), r.2 + UInt64.ofNat (f i))], r.2 + UInt64.ofNat (f i)))
        ([], 0) =
      ((range k).map fun i => (toString (bucketLe i), UInt64.ofNat ((range (i + 1)).map f).sum),
        UInt64.ofNat ((range k).map f).sum) := by
  induction k with
  | zero => rfl
  | succ k ih =>
    have hsum : UInt64.ofNat ((range k).map f).sum + UInt64.ofNat (f k) =
        UInt64.ofNat ((range (k + 1)).map f).sum := by
      rw [range_succ, map_append, sum_append, map_singleton, sum_singleton, UInt64.ofNat_add]
    rw [← hsum, range_succ, foldl_append, ih, foldl_cons, foldl_nil, map_append, map_singleton,
      hsum]

/-- The samples in the buckets up to a boundary. -/
theorem sum_count_boundary {i : ℕ} (hi : i < FINITE_BUCKETS) :
    ((range (i + 1)).map fun i => (bucketsOf samples).count i).sum =
      samples.countP (·.toNat ≤ bucketLe i) := by
  rw [Apportion.sum_count_range, bucketsOf, countP_map]
  refine countP_congr fun ns _ => ?_
  simpa [Nat.lt_succ_iff] using bucketIndex_le_iff ns.toNat hi

/-- The samples in all buckets. -/
theorem sum_count_total :
    ((range BUCKET_COUNT).map fun i => (bucketsOf samples).count i).sum = samples.length := by
  rw [Apportion.sum_count_range, bucketsOf, countP_map]
  refine countP_eq_length.mpr fun ns _ => decide_eq_true ?_
  exact Nat.lt_succ_of_le (bucketIndex_spec ns.toNat).1

/-- The boundaries with the numbers of samples at or below them, and the number of samples. -/
def exactRows : List (String × ℕ) :=
  (range FINITE_BUCKETS).map
      (fun i => (toString (bucketLe i), samples.countP (·.toNat ≤ bucketLe i))) ++
    [("+Inf", samples.length)]

/-- **The rows are exact**, in the width of the counters. -/
theorem bucketRows_run :
    bucketRows (samples.foldl record new).buckets =
      (exactRows samples).map fun r => (r.1, UInt64.ofNat r.2) := by
  have htotal := sum_count_total samples
  rw [BUCKET_COUNT, range_succ, map_append, sum_append, map_singleton, sum_singleton] at htotal
  rw [tallies_run, bucketRows, foldl_rows, exactRows, map_append, map_singleton, ← htotal,
    UInt64.ofNat_add, List.map_map]
  refine congrArg (· ++ _) (map_congr_left fun i hi => ?_)
  rw [sum_count_boundary samples (List.mem_range.mp hi)]
  rfl

theorem count_run : count (samples.foldl record new).buckets = UInt64.ofNat samples.length := by
  rw [tallies_run, count, ← sum_count_total samples]
  generalize range BUCKET_COUNT = l
  induction l with
  | nil => rfl
  | cons i l ih => rw [map_cons, map_cons, sum_cons, sum_cons, ih, UInt64.ofNat_add]

end

/-- **Latency buckets are exact.** A sample is counted in the first bucket whose boundary it does
not exceed, or in the last one if it exceeds the last boundary. For every list of samples the
rendered text has, in the width of the counters, the number of samples at or below each boundary
and the number of samples. -/
theorem latency_buckets_exact :
    (∀ v : UInt64,
      IsLeast {i | i < FINITE_BUCKETS ∧ v.toNat ≤ bucketLe i} (bucketIndex v.toNat) ∨
        bucketIndex v.toNat = FINITE_BUCKETS ∧ bucketLe (FINITE_BUCKETS - 1) < v.toNat) ∧
    ∀ (samples : List UInt64) (out base : String) (label : Option String),
      (samples.foldl record new).renderInto out base label = out ++
        String.join ((exactRows samples).map fun r =>
          bucketLine base label (r.1, UInt64.ofNat r.2)) ++
        gaugeLine base "sum" label samples.sum ++
        gaugeLine base "count" label (UInt64.ofNat samples.length) := by
  refine ⟨fun v => ?_, fun samples out base label => ?_⟩
  · obtain ⟨hle, hown, hbefore⟩ := bucketIndex_spec v.toNat
    rcases hle.lt_or_eq with hlt | heq
    · exact .inl ⟨⟨hlt, hown hlt⟩, fun j hj => (bucketIndex_le_iff _ hj.1).mpr hj.2⟩
    · exact .inr ⟨heq, hbefore _ (by rw [heq]; decide)⟩
  · rw [renderInto, bucketRows_run, count_run, tallies_run, List.map_map]
    rfl

/-- After `2^64` samples the count of all samples is back at zero. -/
theorem latency_counts_wrap : ∃ samples : List UInt64, samples.length = 2 ^ 64 ∧
    ("+Inf", 0) ∈ bucketRows (samples.foldl record new).buckets := by
  obtain ⟨samples, hlen⟩ : ∃ samples : List UInt64, samples.length = 2 ^ 64 :=
    ⟨_, @length_replicate _ (2 ^ 64) 0⟩
  refine ⟨samples, hlen, ?_⟩
  rw [bucketRows_run, exactRows, map_append, hlen]
  exact mem_append_right _ (mem_singleton.mpr rfl)

end LatencyHistogram

end TradeCore
