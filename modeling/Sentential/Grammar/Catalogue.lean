import Sentential.Grammar.Term

/-!
# Catalogues

Named terms in ascending order of their names. A name occurs once, so a catalogue is determined by
what it says about each name, and putting terms into it in another order gives the same one.
-/
namespace Sentential

structure Catalogue where
  entries : List (String × Term)
  ascending : entries.Pairwise fun a b => a.1 < b.1

namespace Catalogue

def empty : Catalogue := ⟨[], .nil⟩

def find? (c : Catalogue) (name : String) : Option Term := c.entries.lookup name

def contains (c : Catalogue) (name : String) : Bool := (c.find? name).isSome

/-- Puts a term in its place among ascending entries, instead of one that has its name. -/
def put (name : String) (term : Term) : List (String × Term) → List (String × Term)
  | [] => [(name, term)]
  | entry :: rest =>
    if name < entry.1 then (name, term) :: entry :: rest
    else if entry.1 < name then entry :: put name term rest
    else (name, term) :: rest

theorem mem_put {name : String} {term : Term} {entries : List (String × Term)}
    {e : String × Term} (h : e ∈ put name term entries) : e = (name, term) ∨ e ∈ entries := by
  induction entries with
  | nil => simpa [put] using h
  | cons entry rest ih =>
    simp only [put] at h
    split at h
    · simpa using h
    · split at h
      · rcases List.mem_cons.1 h with rfl | h
        · simp
        · rcases ih h with h | h <;> simp [h]
      · rcases List.mem_cons.1 h with h | h <;> simp [h]

theorem put_ascending (name : String) (term : Term) {entries : List (String × Term)}
    (h : entries.Pairwise fun a b => a.1 < b.1) :
    (put name term entries).Pairwise fun a b => a.1 < b.1 := by
  induction entries with
  | nil => simp [put]
  | cons entry rest ih =>
    obtain ⟨hd, tl⟩ := List.pairwise_cons.1 h
    simp only [put]
    split
    · rename_i lt
      refine List.pairwise_cons.2 ⟨fun e he => ?_, h⟩
      rcases List.mem_cons.1 he with rfl | he
      · exact lt
      · exact String.lt_trans lt (hd e he)
    · split
      · rename_i gt
        refine List.pairwise_cons.2 ⟨fun e he => ?_, ih tl⟩
        rcases mem_put he with rfl | he
        · exact gt
        · exact hd e he
      · rename_i nlt ngt
        have : entry.1 = name := String.le_antisymm (String.not_lt.1 nlt) (String.not_lt.1 ngt)
        refine List.pairwise_cons.2 ⟨fun e he => ?_, tl⟩
        exact this ▸ hd e he

def insert (c : Catalogue) (name : String) (term : Term) : Catalogue :=
  ⟨put name term c.entries, put_ascending name term c.ascending⟩

/-- The catalogue of a list of definitions, or the first name that is defined again. -/
def ofList : List (String × Term) → Catalogue → Except String Catalogue
  | [], c => .ok c
  | (name, term) :: rest, c =>
    if c.contains name then .error name else ofList rest (c.insert name term)

/-- Whether two catalogues have the same names and the same terms for them. -/
def same (c d : Catalogue) : Bool :=
  c.entries.map Prod.fst == d.entries.map Prod.fst &&
    Term.sameAll (c.entries.map Prod.snd) (d.entries.map Prod.snd)

end Catalogue

end Sentential
