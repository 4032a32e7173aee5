import Sentential.Policy.Script

/-!
# Scripts and questions

What it takes for a script to settle a question of each kind. A script does nothing but answer.
-/
namespace Sentential

variable {ρ ω : Type}

namespace Script

variable {s t : Script}

theorem contains_congr {ps qs : List Term} {u v : Term}
    (h : (∃ p ∈ ps, (u == p) = true) ↔ ∃ q ∈ qs, (v == q) = true) :
    ps.contains u = qs.contains v := by
  rw [List.contains_eq_any_beq, List.contains_eq_any_beq, Bool.eq_iff_iff, List.any_eq_true,
    List.any_eq_true]
  exact h

/-- A script depends on its picks only through what they are equal to. -/
theorem picked_congr (h : ∀ u, s.picks.contains u = t.picks.contains u) (options : List Choice) :
    s.picked options = t.picked options := by
  induction options with
  | nil => rfl
  | cons option rest ih => rw [picked, picked, ih, h]

theorem map_val_picked (option : Choice) (rest : List Choice) :
    (s.picked (option :: rest)).map Fin.val = (if s.picks.contains option.item then [0] else []) ++
      ((s.picked rest).map Fin.val).map Nat.succ := by
  rw [picked]
  split <;> simp [Function.comp_def]

/-- A character is settled for a set when no other one that was named belongs to it. -/
theorem settle_character_eq_ok_iff {set : CharacterSet} {c : Char} :
    s.settle (.character set) = .ok c ↔ s.characters.filter set.contains = [c] := by
  dsimp only [settle]
  split
  · rename_i none
    simp [none]
  · rename_i one
    simp [one]
  · rename_i none one
    simp only [reduceCtorEq, false_iff]
    exact one c

/-- Where no character is settled, it matters whether there is any. -/
theorem settle_character_cases (s : Script) (set : CharacterSet) :
    (∃ c, s.settle (.character set) = .ok c) ∨
      s.settle (.character set) = .error (if s.characters.filter set.contains = [] then
        .noCharacter set.name else .severalCharacters set.name) := by
  dsimp only [settle]
  split
  · rename_i none
    exact .inr (by rw [if_pos none])
  · exact .inl ⟨_, rfl⟩
  · rename_i none _
    exact .inr (by rw [if_neg none])

end Script

namespace Policy

variable {s : Script} {c : Cursor ρ} {q : Question} {w : ω}

theorem scripted_fst_eq_value_iff {a : q.Answer} :
    (scripted s c q w).1 = .value a ↔ s.settle q = .ok a := by
  unfold scripted
  cases s.settle q <;> simp [Act.pure]

theorem scripted_snd : (scripted s c q w).2 = w := by
  unfold scripted
  cases s.settle q <;> rfl

end Policy

end Sentential
