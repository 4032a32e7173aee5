import Sentential.Proofs.Edge
import Sentential.Proofs.Flawless
import Sentential.Proofs.Lawful

/-!
# Members of character sets

Which characters a set of characters leads to. Of a set of all characters, policies that keep within
the grammar only answer with members. The name of any other set stands for one character, and that
is written without a look at the exclusions: a set that excludes the character that it is named for
has no members, and yet that character is written.
-/
namespace Sentential

variable {ρ ω : Type}

namespace CharacterSet

variable {set : CharacterSet} {c : Char}

theorem meaning_eq_ok_iff {m : Meaning} :
    set.meaning = .ok m ↔ Meaning.ofName? set.name = some m := by
  unfold meaning
  cases Meaning.ofName? set.name <;> simp

theorem contains_iff : set.contains c = true ↔
    set.excludes c = false ∧ (set.meaning = .ok .any ∨ set.meaning = .ok (.only c)) := by
  simp only [contains, meaning_eq_ok_iff, Bool.and_eq_true, Bool.not_eq_true']
  apply and_congr_right
  intro _
  cases Meaning.ofName? set.name with
  | none => simp
  | some m => cases m <;> simp

/-- The set is named for a character that it excludes. -/
def Contradicts (set : CharacterSet) (c : Char) : Prop :=
  set.meaning = .ok (.only c) ∧ set.excludes c = true

theorem not_contains_of_contradicts (h : set.Contradicts c) (d : Char) :
    set.contains d = false := by
  obtain ⟨hmeaning, hexcludes⟩ := h
  apply Bool.eq_false_iff.2
  intro hd
  obtain ⟨hkept, hany | honly⟩ := contains_iff.1 hd
  · rw [hmeaning] at hany
    cases hany
  · rw [hmeaning] at honly
    cases honly
    rw [hexcludes] at hkept
    cases hkept

end CharacterSet

namespace Builder

variable {b : Builder ρ ω} {s : State ρ} {x : Step ρ} {w v : ω} {set : CharacterSet}

/-- A step at a set of characters writes the character that the set is named for, or, where all
characters are meant, an answer of the policy. -/
theorem emitted_of_step (policy : b.policy.Lawful) (hterm : s.term = .characters set)
    (hstep : b.step s w = (.value x, v)) :
    ∃ char, x = resume s.pending (s.cursor.writeChar char) ∧
      (set.meaning = .ok (.only char) ∨
        set.meaning = .ok .any ∧ set.excludes char = false) := by
  have hmoves := moves_of_step hstep
  rw [hterm] at hmoves
  cases hmoves with
  | only means => exact ⟨_, rfl, .inl means⟩
  | any means answered =>
    have sensible : (Question.character set).Sensible := means
    exact ⟨_, rfl, .inr ⟨means, policy sensible answered⟩⟩

/-- Wherever a run is at a set of characters, a step that succeeds writes one character, and that is
a member of the set just when the set does not exclude the character that it is named for. -/
theorem emitted_contains_iff (policy : b.policy.Standard) (hterm : s.term = .characters set)
    (hstep : b.step s w = (.value x, v)) :
    ∃ char, x = resume s.pending (s.cursor.writeChar char) ∧
      (set.contains char = true ↔ ∀ d, ¬ set.Contradicts d) := by
  obtain ⟨char, rfl, hmeans⟩ := emitted_of_step policy.lawful hterm hstep
  refine ⟨char, rfl, fun hmember d hd => ?_, fun hconsistent => ?_⟩
  · rw [CharacterSet.not_contains_of_contradicts hd char] at hmember
    cases hmember
  · apply CharacterSet.contains_iff.2
    rcases hmeans with honly | ⟨hany, hkept⟩
    · have hkept : set.excludes char = false := by
        apply Bool.eq_false_iff.2
        intro hexcludes
        exact hconsistent char ⟨honly, hexcludes⟩
      exact ⟨hkept, .inr honly⟩
    · exact ⟨hkept, .inl hany⟩

/-- A character of the given set, then any character but a blank. -/
def gap (set : CharacterSet) : Builder Unit Recorded where
  grammar :=
    { language := "gap"
      productions := Catalogue.empty.insert "gap"
        (.sequence [.characters set, .characters (.anyExcept [' '])]) }
  policy := .within .whole (.chance Recorded.source)
  deferral _ := none
  log := .silent

/-- Blanks are drawn again where they are excluded from all characters. -/
theorem emitted_contains_gap :
    ∃ x v, (gap ⟨"SPACE", []⟩).step ⟨.root "gap", .characters (.anyExcept [' ']), []⟩
        (.ofLists [] [' ', 'a']) = (.value x, v) ∧
      ∃ char, x = resume [] ((Cursor.root "gap").writeChar char) ∧
        (CharacterSet.anyExcept [' ']).contains char = true := by
  have hstep : ∃ x v, (gap ⟨"SPACE", []⟩).step ⟨.root "gap", .characters (.anyExcept [' ']), []⟩
      (.ofLists [] [' ', 'a']) = (.value x, v) := ⟨_, _, by rfl⟩
  obtain ⟨x, v, hstep⟩ := hstep
  obtain ⟨char, hx, hcontains⟩ := emitted_contains_iff (.chance .whole Recorded.source) rfl hstep
  refine ⟨x, v, hstep, char, hx, hcontains.2 fun d hd => ?_⟩
  cases hd.1

/-- A blank that is excluded from the set of the blank is written all the same. -/
theorem excluded_blank_emitted :
    (gap ⟨"SPACE", [' ']⟩).grammar.Accepted ∧ (gap ⟨"SPACE", [' ']⟩).policy.Standard ∧
      ∃ definition s w, (gap ⟨"SPACE", [' ']⟩).grammar.definition "gap" = .ok definition ∧
        (gap ⟨"SPACE", [' ']⟩).Reachable ⟨.root "gap", definition, []⟩ (.ofLists [] []) s w ∧
        s.term = .characters ⟨"SPACE", [' ']⟩ ∧
        (∃ v, (gap ⟨"SPACE", [' ']⟩).step s w =
          (.value (resume s.pending (s.cursor.writeChar ' ')), v)) ∧
        (CharacterSet.mk "SPACE" [' ']).contains ' ' = false := by
  have hbuilt : (Grammar.build "gap" (gap ⟨"SPACE", [' ']⟩).grammar.productions.entries).result =
      .ok (gap ⟨"SPACE", [' ']⟩).grammar := by
    simp only [Grammar.build, Grammar.inspected, Grammar.inspect, Grammar.terms_eq]
    rfl
  have hreach := (Reachable.start (b := gap ⟨"SPACE", [' ']⟩) (s := ⟨.root "gap", .sequence
    [.characters ⟨"SPACE", [' ']⟩, .characters (.anyExcept [' '])], []⟩) (w := .ofLists [] [])).step
      rfl
  exact ⟨.built hbuilt, .chance .whole Recorded.source, _, _, _, rfl, hreach, rfl, ⟨_, rfl⟩,
    by decide⟩

end Builder

end Sentential
