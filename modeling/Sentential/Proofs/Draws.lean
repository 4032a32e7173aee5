import Sentential.Policy.Chance

/-!
# Draws

What the shaped draws make of the numbers they draw. A limited count is its least plus the number of
successes in as many trials as the limit leaves room for, so it keeps within its bounds and takes as
many draws as that, whatever the numbers are and whatever norm is given. A count without a limit is
its least plus the number of draws after which the product was still above that of the distribution,
and takes one draw more.
-/
namespace Sentential

namespace Word

theorem sub?_of_le {x y : UInt32} (h : y ≤ x) :
    ∃ z, sub? x y = some z ∧ z.toNat = x.toNat - y.toNat :=
  ⟨x - y, if_pos h, UInt32.toNat_sub_of_le x y h⟩

theorem add?_ofNat {x : UInt32} {k : Nat} (h : x.toNat + k < UInt32.size) :
    ∃ z, add? x (.ofNat k) = some z ∧ z.toNat = x.toNat + k := by
  have hk : (UInt32.ofNat k).toNat = k :=
    UInt32.toNat_ofNat_of_lt' (Nat.lt_of_le_of_lt (Nat.le_add_left k x.toNat) h)
  refine ⟨x + .ofNat k, ?_, ?_⟩
  · rw [add?, hk, if_pos h]
  · rw [UInt32.toNat_add, hk]
    exact Nat.mod_eq_of_lt h

theorem toNat_min (x y : UInt32) : (min x y).toNat = min x.toNat y.toNat := by
  change (if x ≤ y then x else y).toNat = _
  by_cases h : x ≤ y
  · rw [if_pos h, Nat.min_eq_left (UInt32.le_iff_toNat_le.1 h)]
  · have hle := Nat.le_of_not_le (mt UInt32.le_iff_toNat_le.2 h)
    rw [if_neg h, Nat.min_eq_right hle]

theorem toNat_max (x y : UInt32) : (max x y).toNat = max x.toNat y.toNat := by
  change (if x ≤ y then y else x).toNat = _
  by_cases h : x ≤ y
  · rw [if_pos h, Nat.max_eq_right (UInt32.le_iff_toNat_le.1 h)]
  · have hle := Nat.le_of_not_le (mt UInt32.le_iff_toNat_le.2 h)
    rw [if_neg h, Nat.max_eq_left hle]

end Word

namespace Source

variable {σ : Type}

/-- The next numbers of a source. -/
def units (s : Source σ) : Nat → σ → List Float
  | 0, _ => []
  | n + 1, g => (s.unit g).1 :: s.units n (s.unit g).2

def after (s : Source σ) : Nat → σ → σ
  | 0, g => g
  | n + 1, g => s.after n (s.unit g).2

/-- The same source with a tally of its draws, of whatever kind they are. -/
def tallied (s : Source σ) : Source (σ × Nat) where
  unit g := ((s.unit g.1).1, (s.unit g.1).2, g.2 + 1)
  index bound g := ((s.index bound g.1).1, (s.index bound g.1).2, g.2 + 1)
  count least most g := ((s.count least most g.1).1, (s.count least most g.1).2, g.2 + 1)
  character g := ((s.character g.1).1, (s.character g.1).2, g.2 + 1)

variable (s : Source σ)

@[simp] theorem length_units (n : Nat) (g : σ) : (s.units n g).length = n := by
  induction n generalizing g with
  | zero => rfl
  | succ n ih => simp [units, ih]

@[simp] theorem units_tallied (n : Nat) (g : σ) (m : Nat) :
    s.tallied.units n (g, m) = s.units n g := by
  induction n generalizing g m with
  | zero => rfl
  | succ n ih => exact congrArg (_ :: ·) (ih _ _)

@[simp] theorem after_tallied (n : Nat) (g : σ) (m : Nat) :
    s.tallied.after n (g, m) = (s.after n g, m + n) := by
  induction n generalizing g m with
  | zero => rfl
  | succ n ih =>
    have hrest := ih (s.unit g).2 (m + 1)
    rwa [Nat.add_assoc, Nat.add_comm 1 n] at hrest

theorem binomialFrom_eq (p : Float) (n k : Nat) (g : σ) :
    s.binomialFrom p n k g =
      (k + (s.units n g).countP (fun x => decide (x < p)), s.after n g) := by
  induction n generalizing k g with
  | zero => rfl
  | succ n ih =>
    change s.binomialFrom p n (if (s.unit g).1 < p then k + 1 else k) (s.unit g).2 = _
    rw [ih, units, after, List.countP_cons]
    by_cases h : (s.unit g).1 < p
    · simp only [h, if_true, decide_true]
      rw [Nat.add_assoc, Nat.add_comm 1]
    · simp [h]

theorem binomial_eq (n : Nat) (p : Float) (g : σ) :
    s.binomial n p g = ((s.units n g).countP (fun x => decide (x < p)), s.after n g) := by
  rw [binomial, binomialFrom_eq, Nat.zero_add]

theorem binomial_le (n : Nat) (p : Float) (g : σ) : (s.binomial n p g).1 ≤ n := by
  rw [binomial_eq]
  calc (s.units n g).countP _ ≤ (s.units n g).length := List.countP_le_length
    _ = n := s.length_units n g

/-- The product of `p` and the numbers up to the one at `j` is at most the limit, and that of no
fewer is. -/
def Spends (limit p : Float) (j : Nat) (g : σ) : Prop :=
  ∀ i ≤ j, (s.units (i + 1) g).foldl (· * ·) p ≤ limit ↔ i = j

theorem spends_zero_iff {limit p : Float} {g : σ} :
    s.Spends limit p 0 g ↔ p * (s.unit g).1 ≤ limit := by
  constructor
  · intro h
    exact (h 0 (Nat.le_refl 0)).2 rfl
  · intro h i hi
    obtain rfl := Nat.le_zero.1 hi
    exact iff_of_true h rfl

theorem spends_succ_iff {limit p : Float} {j : Nat} {g : σ} :
    s.Spends limit p (j + 1) g ↔
      ¬ p * (s.unit g).1 ≤ limit ∧ s.Spends limit (p * (s.unit g).1) j (s.unit g).2 := by
  constructor
  · intro h
    refine ⟨fun hfirst => ?_, fun i hi => ?_⟩
    · cases (h 0 (Nat.zero_le _)).1 hfirst
    · exact (h (i + 1) (Nat.succ_le_succ hi)).trans Nat.succ_inj
  · rintro ⟨hfirst, hrest⟩ i hi
    cases i with
    | zero => exact iff_of_false hfirst (Nat.succ_ne_zero j).symm
    | succ i => exact (hrest i (Nat.le_of_succ_le_succ hi)).trans Nat.succ_inj.symm

theorem spends_tallied {limit p : Float} {j m : Nat} {g : σ} :
    s.tallied.Spends limit p j (g, m) ↔ s.Spends limit p j g := by
  simp only [Spends, units_tallied]

/-- Draws end with the first number that brings the product down to the limit. -/
theorem poissonFrom_eq_some_iff {limit p : Float} {fuel k n : Nat} {g g' : σ} :
    s.poissonFrom limit fuel p k g = (some n, g') ↔
      ∃ j < fuel, n = k + j ∧ g' = s.after (j + 1) g ∧ s.Spends limit p j g := by
  induction fuel generalizing p k g with
  | zero => simp [poissonFrom]
  | succ fuel ih =>
    have hstep : s.poissonFrom limit (fuel + 1) p k g =
        if p * (s.unit g).1 ≤ limit then (some k, (s.unit g).2)
        else s.poissonFrom limit fuel (p * (s.unit g).1) (k + 1) (s.unit g).2 := rfl
    rw [hstep]
    by_cases h : p * (s.unit g).1 ≤ limit
    · rw [if_pos h]
      constructor
      · intro heq
        cases heq
        exact ⟨0, Nat.succ_pos fuel, rfl, rfl, s.spends_zero_iff.2 h⟩
      · rintro ⟨j, -, rfl, rfl, hspends⟩
        cases j with
        | zero => rfl
        | succ j => exact ((s.spends_succ_iff.1 hspends).1 h).elim
    · rw [if_neg h, ih]
      constructor
      · rintro ⟨j, hj, rfl, rfl, hspends⟩
        exact ⟨j + 1, Nat.succ_lt_succ hj, by omega, rfl, s.spends_succ_iff.2 ⟨h, hspends⟩⟩
      · rintro ⟨j, hj, rfl, rfl, hspends⟩
        cases j with
        | zero => exact (h (s.spends_zero_iff.1 hspends)).elim
        | succ j =>
          exact ⟨j, Nat.lt_of_succ_lt_succ hj, by omega, rfl, (s.spends_succ_iff.1 hspends).2⟩

/-- What the product of the numbers comes down to for a count without a limit. -/
def threshold (b : Bounds) : Float := Float.exp (-(Float.ofNat (excess b) + 0.5))

/-- A count without a limit, with the draws that lead to it. -/
theorem times_eq_some_iff {b : Bounds} (hb : b.most = none) {n : Nat} {g g' : σ} :
    s.times b g = (some n, g') ↔
      ∃ j < poissonPatience, n = b.least.toNat + j ∧ g' = s.after (j + 1) g ∧
        s.Spends (threshold b) 1 j g := by
  have htimes : s.times b g = (some n, g') ↔
      ∃ k, s.poisson (Float.ofNat (excess b) + 0.5) g = (some k, g') ∧ n = b.least.toNat + k := by
    simp only [times, hb, Prod.ext_iff, Option.map_eq_some_iff]
    grind
  rw [htimes]
  constructor
  · rintro ⟨k, hk, rfl⟩
    obtain ⟨j, hj, rfl, hg, hspends⟩ := s.poissonFrom_eq_some_iff.1 hk
    exact ⟨j, hj, by rw [Nat.zero_add], hg, hspends⟩
  · rintro ⟨j, hj, rfl, hg, hspends⟩
    exact ⟨j, s.poissonFrom_eq_some_iff.2 ⟨j, hj, (Nat.zero_add j).symm, hg, hspends⟩, rfl⟩

/-- What a limited count with room for `n` adds to its least. -/
def sample (s : Source σ) (n excess : Nat) (g : σ) : Nat :=
  (s.binomial n (peak n excess / Float.ofNat n) g).1

theorem sample_le (n excess : Nat) (g : σ) : s.sample n excess g ≤ n := s.binomial_le n _ g

@[simp] theorem sample_tallied (n excess : Nat) (g : σ) (m : Nat) :
    s.tallied.sample n excess (g, m) = s.sample n excess g := by
  simp [sample, binomial_eq]

theorem times_limited {b : Bounds} {most : UInt32} (hb : b.most = some most) (g : σ) :
    s.times b g =
      (some (b.least.toNat + s.sample (most.toNat - b.least.toNat) (excess b) g),
        s.after (most.toNat - b.least.toNat) g) := by
  rw [times, hb, sample]
  by_cases h : most.toNat - b.least.toNat = 0
  · simp [h, binomial_eq, units, after]
  · simp [h, binomial_eq]

/-- No difference falls below zero and no sum is too large. -/
theorem exists_limitedInWords? (b : Bounds) (most : UInt32) (g : σ) :
    ∃ k : UInt32,
      s.limitedInWords? b most g = (some k, s.after (most.toNat - b.least.toNat) g) ∧
      k.toNat = b.least.toNat + s.sample (most.toNat - b.least.toNat) (excess b) g := by
  by_cases h : most ≤ b.least
  · have hnone : most.toNat - b.least.toNat = 0 :=
      Nat.sub_eq_zero_of_le (UInt32.le_iff_toNat_le.1 h)
    refine ⟨b.least, ?_, ?_⟩
    · rw [limitedInWords?, if_pos h, hnone, after]
    · rw [hnone, Nat.le_zero.1 (s.sample_le 0 _ g), Nat.add_zero]
  · have hlt : b.least.toNat < most.toNat := Nat.lt_of_not_le (mt UInt32.le_iff_toNat_le.2 h)
    obtain ⟨n, hn, hroom⟩ := Word.sub?_of_le (UInt32.le_iff_toNat_le.2 (Nat.le_of_lt hlt))
    have hclamped : b.least ≤ min (max b.norm b.least) most := by
      rw [UInt32.le_iff_toNat_le, Word.toNat_min, Word.toNat_max]
      omega
    obtain ⟨norm, hnorm, hexcess⟩ := Word.sub?_of_le hclamped
    have hpeak : peak n.toNat norm.toNat = peak n.toNat (excess b) := by
      have hmin : min norm.toNat n.toNat = min (excess b) n.toNat := by
        rw [hexcess, hroom, Word.toNat_min, Word.toNat_max, excess]
        omega
      rw [peak, peak, hmin]
    have hfits : b.least.toNat + s.sample n.toNat (excess b) g < UInt32.size := by
      have hsample := s.sample_le n.toNat (excess b) g
      have hmost := most.toNat_lt_size
      omega
    obtain ⟨k, hk, hsum⟩ := Word.add?_ofNat hfits
    rw [← hroom]
    refine ⟨k, ?_, hsum⟩
    have hleft : (s.binomial n.toNat (peak n.toNat (excess b) / Float.ofNat n.toNat) g).2 =
        s.after n.toNat g := by rw [binomial_eq]
    rw [limitedInWords?, if_neg h, hn, hnorm]
    simp only [hpeak]
    exact Prod.ext hk hleft

/-- Counts keep to their bounds and to the number of their draws, whatever is drawn. A limited count
takes a draw for each step between its bounds, and its arithmetic stays within words; with the bounds
the wrong way round it is the least. A count without a limit takes one draw more than it exceeds its
least by, and there is one where the product comes down while the draws can be counted in a word. -/
theorem times_drawn (b : Bounds) (g : σ) :
    (∀ most, b.most = some most → ∃ k : UInt32,
      s.times b g = (some k.toNat, s.after (most.toNat - b.least.toNat) g) ∧
      s.tallied.times b (g, 0) =
        (some k.toNat, s.after (most.toNat - b.least.toNat) g, most.toNat - b.least.toNat) ∧
      s.limitedInWords? b most g = (some k, s.after (most.toNat - b.least.toNat) g) ∧
      (b.least ≤ most → b.least ≤ k ∧ k ≤ most) ∧ (most < b.least → k = b.least)) ∧
    (b.most = none →
      (∀ n g', s.times b g = (some n, g') →
        b.least.toNat ≤ n ∧ s.tallied.times b (g, 0) = (some n, g', n - b.least.toNat + 1)) ∧
      ∀ j < UInt32.size, s.Spends (threshold b) 1 j g →
        s.times b g = (some (b.least.toNat + j), s.after (j + 1) g)) := by
  constructor
  · intro most hb
    obtain ⟨k, hwords, hk⟩ := s.exists_limitedInWords? b most g
    have hsample := s.sample_le (most.toNat - b.least.toNat) (excess b) g
    refine ⟨k, ?_, ?_, hwords, fun hle => ?_, fun hlt => ?_⟩
    · rw [s.times_limited hb, hk]
    · rw [s.tallied.times_limited hb, sample_tallied, after_tallied, Nat.zero_add, hk]
    · simp only [UInt32.le_iff_toNat_le] at hle ⊢
      omega
    · rw [UInt32.lt_iff_toNat_lt] at hlt
      exact UInt32.toNat_inj.1 (by omega)
  · intro hb
    constructor
    · intro n g' htimes
      obtain ⟨j, hj, rfl, rfl, hspends⟩ := (s.times_eq_some_iff hb).1 htimes
      refine ⟨Nat.le_add_right _ j, (s.tallied.times_eq_some_iff hb).2 ⟨j, hj, rfl, ?_, ?_⟩⟩
      · rw [after_tallied, Nat.add_sub_cancel_left, Nat.zero_add]
      · exact s.spends_tallied.2 hspends
    · intro j hj hspends
      have hpatience : UInt32.size ≤ poissonPatience := by decide
      exact (s.times_eq_some_iff hb).2 ⟨j, Nat.lt_of_lt_of_le hj hpatience, rfl, rfl, hspends⟩

/-- A norm above the limit and numbers that are no fractions; then a limit below the least. -/
theorem times_drawn_unruly :
    (∃ left, Recorded.source.tallied.times ⟨5, some 8, some 9⟩
      (.ofLists [0 / 0, -1 / 0, 2] [], 0) = (some 6, left, 3)) ∧
    ∃ left, Recorded.source.tallied.times ⟨5, some 2, some 9⟩ (.ofLists [0 / 0] [], 0) =
      (some 5, left, 0) := by
  constructor
  · have hdrawn : (Recorded.source.times ⟨5, some 8, some 9⟩ (.ofLists [0 / 0, -1 / 0, 2] [])).1 =
        some 6 := by decide +kernel
    obtain ⟨k, htimes, htally, -, -, -⟩ :=
      (times_drawn Recorded.source ⟨5, some 8, some 9⟩ (.ofLists [0 / 0, -1 / 0, 2] [])).1 8 rfl
    rw [htimes] at hdrawn
    exact ⟨_, htally.trans (congrArg (·, _) hdrawn)⟩
  · obtain ⟨k, -, htally, -, -, hleast⟩ :=
      (times_drawn Recorded.source ⟨5, some 2, some 9⟩ (.ofLists [0 / 0] [])).1 2 rfl
    obtain rfl := hleast (by decide)
    exact ⟨_, htally⟩

end Source

end Sentential
