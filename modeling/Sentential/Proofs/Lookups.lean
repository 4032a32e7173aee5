import Mathlib.Algebra.Order.BigOperators.Group.List
import Mathlib.Algebra.Order.Ring.Rat
import Mathlib.Tactic.Linarith
import Sentential.Proofs.Draws

/-!
# Lookups

Which alternative a draw falls on. Whatever the biases and the draw are, chance answers with an
alternative that can be generated, by one draw, and only fails, without a draw, where there is none.
With exact numbers the lookup is the inverse of the sums of the biases: it finds the alternative
whose stretch the draw lies in, and the last alternative never has to stand in for a draw beyond the
end.
-/
namespace Sentential

variable {ρ σ W α : Type}

theorem Meaning.ofName?_eq_endOfInput_iff {name : String} :
    Meaning.ofName? name = some .endOfInput ↔ name = "EOI" ∨ name = "EOF" := by
  unfold Meaning.ofName?
  constructor
  · intro h
    split_ifs at h with _ _ _ hend
    · cases h
    · cases h
    · cases h
    · exact hend
    · simp at h
  · rintro (rfl | rfl) <;> decide

namespace Weighted

section Eligible

variable [OfNat W 0] [LT W] {options : List (Weighted W Term)} {o : Weighted W Term}

/-- The bias is positive, and the term is not a set that is named for the end of input. -/
def Possible (o : Weighted W Term) : Prop :=
  0 < o.weight ∧ ∀ set, o.item = .characters set → set.name ≠ "EOI" ∧ set.name ≠ "EOF"

theorem possible_iff : o.Possible ↔ 0 < o.weight ∧ o.item.isEndOfInput = false := by
  refine and_congr_right fun _ => ?_
  cases hitem : o.item with
  | characters set =>
    have hend : (Term.characters set).isEndOfInput = false ↔
        ¬ (set.name = "EOI" ∨ set.name = "EOF") := by
      rw [← Meaning.ofName?_eq_endOfInput_iff]
      simp [Term.isEndOfInput, CharacterSet.isEndOfInput]
    rw [hend, not_or]
    exact ⟨fun h => h set rfl, fun h _ heq => Term.characters.inj heq ▸ h⟩
  | _ => exact iff_of_true (fun _ h => nomatch h) rfl

variable [DecidableLT W]

instance : Decidable o.Possible := decidable_of_iff _ possible_iff.symm

theorem eligible_cons : eligible (o :: options) =
    if o.Possible then o :: eligible options else eligible options := by
  simp only [eligible, isEligible, List.filter_cons, Bool.and_eq_true, decide_eq_true_eq,
    Bool.not_eq_true', possible_iff]

theorem mem_eligible_iff : o ∈ eligible options ↔ o ∈ options ∧ o.Possible := by
  simp [eligible, isEligible, possible_iff]

theorem eligible_eq_nil_iff : eligible options = [] ↔ ∀ o ∈ options, ¬ o.Possible := by
  simp only [List.eq_nil_iff_forall_not_mem, mem_eligible_iff, not_and]

theorem eligible_ne_nil_iff : eligible options ≠ [] ↔ ∃ o ∈ options, o.Possible := by
  simp only [ne_eq, eligible_eq_nil_iff, not_forall, not_not, exists_prop]

end Eligible

section Exact

variable {items : List (Weighted ℚ α)}

theorem total_eq_sum (items : List (Weighted ℚ α)) : total items = (items.map weight).sum := by
  rw [total, List.sum_eq_foldl, List.foldl_map]

/-- The item at a position covers a distance: the weights before it do not exceed the distance, and
they do with its own. -/
def Covers (items : List (Weighted ℚ α)) (i : Nat) (x : ℚ) : Prop :=
  ((items.take i).map weight).sum ≤ x ∧ x < ((items.take (i + 1)).map weight).sum

theorem sum_nonneg (positive : ∀ c ∈ items, 0 < c.weight) : 0 ≤ (items.map weight).sum := by
  apply List.sum_nonneg
  intro x hx
  obtain ⟨c, hc, rfl⟩ := List.mem_map.1 hx
  exact (positive c hc).le

theorem sum_pos (positive : ∀ c ∈ items, 0 < c.weight) (h : items ≠ []) :
    0 < (items.map weight).sum := by
  obtain ⟨c, rest, rfl⟩ := List.exists_cons_of_ne_nil h
  obtain ⟨hc, hrest⟩ := List.forall_mem_cons.1 positive
  rw [List.map_cons, List.sum_cons]
  exact add_pos_of_pos_of_nonneg hc (sum_nonneg hrest)

section Cons

variable {c : Weighted ℚ α} {rest : List (Weighted ℚ α)} {x : ℚ}

theorem locate?_cons_of_le (h : c.weight ≤ x) :
    locate? (c :: rest) x = (locate? rest (x - c.weight)).map Fin.succ := by
  rw [locate?, if_neg (by linarith)]

theorem locate?_cons_of_lt (h : x < c.weight) : locate? (c :: rest) x = some 0 := by
  rw [locate?, if_pos (by linarith)]
  rfl

theorem covers_zero_iff : Covers (c :: rest) 0 x ↔ 0 ≤ x ∧ x < c.weight := by
  simp [Covers]

theorem covers_succ_iff {i : Nat} :
    Covers (c :: rest) (i + 1) x ↔ Covers rest i (x - c.weight) := by
  simp only [Covers, List.take_succ_cons, List.map_cons, List.sum_cons]
  exact and_congr le_sub_iff_add_le'.symm sub_lt_iff_lt_add'.symm

end Cons

theorem Covers.nonneg (positive : ∀ c ∈ items, 0 < c.weight) {i : Nat} {x : ℚ}
    (h : Covers items i x) : 0 ≤ x :=
  (sum_nonneg fun c hc => positive c (List.mem_of_mem_take hc)).trans h.1

theorem locate?_eq_some_iff (positive : ∀ c ∈ items, 0 < c.weight) {x : ℚ} (hx : 0 ≤ x)
    {i : Fin items.length} : locate? items x = some i ↔ Covers items i x := by
  induction items generalizing x with
  | nil => exact i.elim0
  | cons c rest ih =>
    obtain ⟨hc, hrest⟩ := List.forall_mem_cons.1 positive
    rcases le_or_gt c.weight x with h | h
    · rw [locate?_cons_of_le h]
      cases i using Fin.cases with
      | zero =>
        refine iff_of_false (by simp [Fin.succ_ne_zero]) fun hcovers => ?_
        exact (covers_zero_iff.1 hcovers).2.not_ge h
      | succ i =>
        rw [Fin.val_succ, covers_succ_iff, ← ih hrest (sub_nonneg.2 h)]
        simp
    · rw [locate?_cons_of_lt h]
      cases i using Fin.cases with
      | zero => exact iff_of_true rfl (covers_zero_iff.2 ⟨hx, h⟩)
      | succ i =>
        refine iff_of_false (by simp [eq_comm, Fin.succ_ne_zero]) fun hcovers => ?_
        rw [Fin.val_succ, covers_succ_iff] at hcovers
        exact h.not_ge (sub_nonneg.1 (hcovers.nonneg hrest))

theorem locate?_eq_none_iff (positive : ∀ c ∈ items, 0 < c.weight) {x : ℚ} (hx : 0 ≤ x) :
    locate? items x = none ↔ total items ≤ x := by
  rw [total_eq_sum]
  induction items generalizing x with
  | nil => exact iff_of_true rfl hx
  | cons c rest ih =>
    obtain ⟨hc, hrest⟩ := List.forall_mem_cons.1 positive
    rw [List.map_cons, List.sum_cons]
    rcases le_or_gt c.weight x with h | h
    · rw [locate?_cons_of_le h, Option.map_eq_none_iff, ih hrest (sub_nonneg.2 h)]
      exact le_sub_iff_add_le'
    · rw [locate?_cons_of_lt h]
      refine iff_of_false (Option.some_ne_none _) fun hle => ?_
      have hsum := sum_nonneg hrest
      linarith

/-- A draw below one is scaled to a distance before the end. -/
theorem exists_locate?_draw (positive : ∀ c ∈ items, 0 < c.weight) (h : items ≠ []) {r : ℚ}
    (hr : 0 ≤ r) (hone : r < 1) : ∃ i, locate? items (r * total items) = some i := by
  have htotal : 0 < total items := by
    rw [total_eq_sum]
    exact sum_pos positive h
  apply Option.ne_none_iff_exists'.1
  intro hnone
  have hle := (locate?_eq_none_iff positive (mul_nonneg hr htotal.le)).1 hnone
  exact hle.not_gt (mul_lt_of_lt_one_left htotal hone)

theorem total_eligible (options : List (Weighted ℚ Term)) : total (eligible options) =
    (options.map fun o => if o.Possible then o.weight else 0).sum := by
  rw [total_eq_sum]
  induction options with
  | nil => rfl
  | cons o rest ih =>
    rw [List.map_cons, List.sum_cons, ← ih, eligible_cons]
    split
    · rw [List.map_cons, List.sum_cons]
    · rw [zero_add]

/-- With exact numbers the total is the sum of the biases of all alternatives that are possible, and
looking up a distance is the inverse of adding up the biases: an alternative is found where the
distance lies in its stretch, and none from the total on. A draw below one always finds one, so that
it is picked without the last one standing in. -/
theorem lookup_exact (options : List (Weighted ℚ Term)) :
    total (eligible options) = (options.map fun o => if o.Possible then o.weight else 0).sum ∧
    (∀ x, 0 ≤ x →
      (∀ i, locate? (eligible options) x = some i ↔
        (((eligible options).take i).map weight).sum ≤ x ∧
          x < (((eligible options).take (i + 1)).map weight).sum) ∧
      (locate? (eligible options) x = none ↔ total (eligible options) ≤ x)) ∧
    ∀ r, 0 ≤ r → r < 1 → (∃ o ∈ options, o.Possible) →
      ∃ i, locate? (eligible options) (r * total (eligible options)) = some i ∧
        pick? (eligible options) r = some i := by
  have positive : ∀ o ∈ eligible options, 0 < o.weight := fun o ho => (mem_eligible_iff.1 ho).2.1
  refine ⟨total_eligible options, fun x hx => ⟨fun i => ?_, ?_⟩, fun r hr hone hpossible => ?_⟩
  · exact locate?_eq_some_iff positive hx
  · exact locate?_eq_none_iff positive hx
  · obtain ⟨i, hi⟩ := exists_locate?_draw positive (eligible_ne_nil_iff.2 hpossible) hr hone
    exact ⟨i, hi, by rw [pick?, hi, Option.some_or]⟩

/-- Two alternatives, one of which is three times as likely as the other, among some that are never
chosen. -/
def shares : List (Weighted ℚ Term) :=
  [⟨.literal "a", 1⟩, ⟨.literal "never", 0⟩, ⟨.characters ⟨"EOI", []⟩, 1⟩, ⟨.literal "b", 3⟩]

/-- The second stretch begins where the first one ends. -/
theorem lookup_exact_shares :
    total (eligible shares) = 4 ∧ (∃ i, locate? (eligible shares) 1 = some i ∧ i.val = 1) ∧
    locate? (eligible shares) 4 = none ∧ ∃ i, pick? (eligible shares) (3 / 4) = some i := by
  obtain ⟨htotal, hlookup, hdraw⟩ := lookup_exact shares
  have hsum : total (eligible shares) = 4 := by
    rw [htotal]
    decide +kernel
  refine ⟨hsum, ⟨⟨1, by decide⟩, ?_, rfl⟩, ?_, ?_⟩
  · rw [(hlookup 1 (by norm_num)).1]
    decide +kernel
  · rw [(hlookup 4 (by norm_num)).2, hsum]
  · obtain ⟨i, -, hi⟩ := hdraw (3 / 4) (by norm_num) (by norm_num)
      ⟨⟨.literal "b", 3⟩, by simp [shares], by decide⟩
    exact ⟨i, hi⟩

end Exact

/-- Something is picked from a list that is not empty, whatever the weights and the draw are. -/
theorem exists_pick? [OfNat W 0] [Add W] [Sub W] [Mul W] [LT W] [DecidableLT W]
    {items : List (Weighted W α)} (h : items ≠ []) (x : W) : ∃ i, pick? items x = some i := by
  obtain ⟨c, rest, rfl⟩ := List.exists_cons_of_ne_nil h
  rw [pick?, last?]
  cases locate? (c :: rest) (x * total (c :: rest)) with
  | none => exact ⟨_, rfl⟩
  | some i => exact ⟨i, rfl⟩

end Weighted

theorem Source.biased_of_ne_nil (s : Source σ) {choices : List Choice} (h : choices ≠ []) (g : σ) :
    s.biased choices g = (Weighted.pick? choices (s.unit g).1, (s.unit g).2) := by
  rw [biased, if_neg (by simpa using h)]

namespace Policy

variable (s : Source σ) (c : Cursor ρ) {choices : List Choice} (g : σ)

theorem exists_chance_choice (h : choices ≠ []) :
    ∃ i, chance s c (.choice choices) g = (.value i, (s.unit g).2) := by
  obtain ⟨i, hi⟩ := Weighted.exists_pick? h (s.unit g).1
  refine ⟨i, ?_⟩
  simp only [chance, Source.answer, s.biased_of_ne_nil h, hi]

theorem chance_choice_eq_failed_iff :
    chance s c (.choice choices) g = (.failed .noAlternatives, g) ↔ choices = [] := by
  constructor
  · intro hfailed
    by_contra h
    obtain ⟨i, hi⟩ := exists_chance_choice s c g h
    rw [hi] at hfailed
    cases hfailed
  · rintro rfl
    rfl

open Weighted (Possible) in
/-- Chance fails to choose, and draws nothing, just when no alternative is possible. Otherwise it
makes one draw and chooses one that is. -/
theorem chance_choice (options : List Choice) :
    (chance s.tallied c (.choice (eligible options)) (g, 0) = (.failed .noAlternatives, g, 0) ↔
      ∀ o ∈ options, ¬ Possible o) ∧
    ((∃ o ∈ options, Possible o) → ∃ i : Fin (eligible options).length,
      chance s.tallied c (.choice (eligible options)) (g, 0) = (.value i, (s.unit g).2, 1) ∧
      (eligible options).get i ∈ options ∧ Possible ((eligible options).get i)) := by
  rw [chance_choice_eq_failed_iff]
  refine ⟨Weighted.eligible_eq_nil_iff, fun hpossible => ?_⟩
  obtain ⟨i, hi⟩ :=
    exists_chance_choice s.tallied c (g, 0) (Weighted.eligible_ne_nil_iff.2 hpossible)
  exact ⟨i, hi, Weighted.mem_eligible_iff.1 (List.getElem_mem i.isLt)⟩

/-- Alternatives of which only the second can be chosen. -/
def unruly : List Choice :=
  [⟨.literal "a", 0 / 0⟩, ⟨.literal "b", 1 / 0⟩, ⟨.characters ⟨"EOF", []⟩, 1⟩, ⟨.literal "c", -1⟩]

/-- The draw is scaled to no number at all, and yet the second alternative is chosen. -/
theorem chance_choice_unruly : ∃ i left,
    chance Recorded.source.tallied (Cursor.root (ρ := Unit) "s") (.choice (eligible unruly))
      (.ofLists [0] [], 0) = (.value i, left, 1) ∧
    ((eligible unruly).get i).item = .literal "b" := by
  obtain ⟨i, hi, -, -⟩ := (chance_choice Recorded.source (Cursor.root (ρ := Unit) "s")
    (.ofLists [0] []) unruly).2 ⟨⟨.literal "b", 1 / 0⟩, by simp [unruly], by decide⟩
  have honly : ∀ o ∈ eligible unruly, o.item = .literal "b" := by
    have heligible : eligible unruly = [⟨.literal "b", 1 / 0⟩] := by rfl
    rw [heligible]
    simp
  exact ⟨i, _, hi, honly _ (List.getElem_mem i.isLt)⟩

end Policy

end Sentential
