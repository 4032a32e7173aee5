import Mathlib.Logic.Basic
import Sentential.Grammar.Catalogue

/-!
# Catalogues of definitions

A list of definitions becomes a catalogue just when no name is defined twice. The catalogue holds
these definitions and nothing else, whatever order they come in, because ascending lists of the same
entries are the same. Otherwise the name is reported whose second definition comes first.
-/
namespace Sentential.Catalogue

variable {name : String} {term : Term} {entries definitions others : List (String × Term)}
  {c d : Catalogue}

theorem nodup (c : Catalogue) : (c.entries.map Prod.fst).Nodup := by
  refine List.pairwise_map.2 (c.ascending.imp fun {a b} hab heq => ?_)
  rw [heq] at hab
  exact String.lt_irrefl _ hab

theorem contains_iff : c.contains name = true ↔ name ∈ c.entries.map Prod.fst := by
  rw [contains, find?, Option.isSome_iff_ne_none, Ne, List.lookup_eq_none_iff, List.mem_map]
  simp only [bne_iff_ne, ne_eq, not_forall, not_not, exists_prop]
  exact exists_congr fun e => and_congr_right fun _ => eq_comm

theorem find?_of_mem (h : (name, term) ∈ c.entries) : c.find? name = some term := by
  obtain ⟨before, after, split⟩ := List.append_of_mem h
  refine List.lookup_eq_some_iff.2 ⟨before, after, split, fun e he => ?_⟩
  have distinct := c.nodup
  rw [split, List.map_append, List.nodup_append] at distinct
  have differ := distinct.2.2 e.1 (List.mem_map_of_mem he) name List.mem_cons_self
  simpa using differ.symm

theorem eq_of_perm (h : c.entries.Perm d.entries) : c = d := by
  have hentries : c.entries = d.entries := by
    refine h.eq_of_pairwise (fun a b _ _ hab hba => ?_) c.ascending d.ascending
    exact absurd hba (String.lt_asymm hab)
  cases c
  cases d
  cases hentries
  rfl

theorem put_perm (fresh : name ∉ entries.map Prod.fst) :
    (put name term entries).Perm ((name, term) :: entries) := by
  induction entries with
  | nil => exact .refl _
  | cons entry rest ih =>
    rw [List.map_cons, List.mem_cons, not_or] at fresh
    simp only [put]
    split
    · exact .refl _
    · rename_i hlt
      split
      · exact ((ih fresh.2).cons entry).trans (.swap _ _ _)
      · rename_i hgt
        exact absurd (String.le_antisymm (String.not_lt.1 hgt) (String.not_lt.1 hlt)) fresh.1

theorem insert_perm (fresh : c.contains name = false) :
    (c.insert name term).entries.Perm ((name, term) :: c.entries) := by
  refine put_perm fun hmem => ?_
  rw [contains_iff.2 hmem] at fresh
  cases fresh

/-- A new entry may as well have been the first of the definitions that follow. -/
theorem insert_append_perm (term : Term) (definitions : List (String × Term))
    (fresh : c.contains name = false) :
    ((c.insert name term).entries ++ definitions).Perm (c.entries ++ (name, term) :: definitions) :=
  ((insert_perm fresh).append_right definitions).trans List.perm_middle.symm

/-- The catalogue of a list of definitions holds just these. -/
theorem perm_of_ofList (h : ofList definitions c = .ok d) :
    d.entries.Perm (c.entries ++ definitions) := by
  induction definitions generalizing c with
  | nil =>
    cases h
    rw [List.append_nil]
  | cons e rest ih =>
    obtain ⟨name, term⟩ := e
    rw [ofList] at h
    split at h
    · cases h
    · rename_i fresh
      exact (ih h).trans (insert_append_perm term rest (Bool.eq_false_iff.2 fresh))

/-- The reported name is the first that has been defined before. -/
theorem ofList_eq_error_iff : ofList definitions c = .error name ↔
    ∃ before term after, definitions = before ++ (name, term) :: after ∧
      ((c.entries ++ before).map Prod.fst).Nodup ∧
      name ∈ (c.entries ++ before).map Prod.fst := by
  induction definitions generalizing c with
  | nil => simp [ofList]
  | cons e rest ih =>
    obtain ⟨first, term⟩ := e
    rw [ofList]
    split
    · rename_i known
      constructor
      · rintro ⟨⟩
        refine ⟨[], term, rest, rfl, ?_, ?_⟩
        · simpa using c.nodup
        · simpa using contains_iff.1 known
      · rintro ⟨before, term', after, split, distinct, -⟩
        cases before with
        | nil =>
          cases split
          rfl
        | cons e before =>
          cases split
          rw [List.map_append, List.nodup_append] at distinct
          exact absurd rfl (distinct.2.2 _ (contains_iff.1 known) _ List.mem_cons_self)
    · rename_i fresh
      have fresh := Bool.eq_false_iff.2 fresh
      have names (before : List (String × Term)) :=
        (insert_append_perm term before fresh).map Prod.fst
      rw [ih]
      constructor
      · rintro ⟨before, term', after, rfl, distinct, again⟩
        exact ⟨(first, term) :: before, term', after, rfl, (names before).nodup_iff.1 distinct,
          (names before).mem_iff.1 again⟩
      · rintro ⟨before, term', after, split, distinct, again⟩
        cases before with
        | nil =>
          cases split
          rw [List.append_nil, ← contains_iff, fresh] at again
          cases again
        | cons e before =>
          cases split
          exact ⟨before, term', after, rfl, (names before).nodup_iff.2 distinct,
            (names before).mem_iff.2 again⟩

theorem ofList_of_nodup (distinct : (definitions.map Prod.fst).Nodup) :
    ∃ d, ofList definitions .empty = .ok d ∧ d.entries.Perm definitions := by
  cases h : ofList definitions .empty with
  | ok d => exact ⟨d, rfl, perm_of_ofList h⟩
  | error name =>
    obtain ⟨before, term, after, rfl, -, again⟩ := ofList_eq_error_iff.1 h
    rw [List.map_append, List.nodup_append] at distinct
    exact absurd rfl (distinct.2.2 name again name List.mem_cons_self)

theorem ofList_of_not_nodup (repeated : ¬ (definitions.map Prod.fst).Nodup) :
    ∃ name, ofList definitions .empty = .error name := by
  cases h : ofList definitions .empty with
  | ok d => exact absurd (((perm_of_ofList h).map Prod.fst).nodup_iff.1 d.nodup) repeated
  | error name => exact ⟨name, rfl⟩

end Sentential.Catalogue
