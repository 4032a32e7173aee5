import Sentential.Grammar.CharacterSet
import Sentential.Grammar.Weighted

/-!
# Terms

What a production is defined by: literal text, references to productions, and the ways to combine
them. Weights and probabilities are floating point numbers, so two terms that hold a number that is
not equal to itself are not the same, not even a term and its copy.
-/
namespace Sentential

/-- How often a term may be repeated, and the count to expect when it matters. -/
structure Bounds where
  least : UInt32
  most : Option UInt32
  expected : Option UInt32
  deriving DecidableEq, Repr

/-- The expected count; without one it is the least. -/
def Bounds.norm (b : Bounds) : UInt32 := b.expected.getD b.least

/-- The least count does not exceed the expected one, and neither exceeds the greatest. -/
def Bounds.valid (b : Bounds) : Bool :=
  b.least ≤ b.norm && b.most.all fun most => b.least ≤ most && b.norm ≤ most

inductive Term where
  | literal (text : String)
  | sequence (terms : List Term)
  | alternatives (options : List (Weighted Float Term))
  | reference (production : String)
  | optional (term : Term) (probability : Float)
  | repetition (term : Term) (bounds : Bounds)
  | characters (set : CharacterSet)
  | epsilon

abbrev Choice := Weighted Float Term

namespace Term

mutual

def same : Term → Term → Bool
  | literal s, literal t => s == t
  | sequence ss, sequence ts => sameAll ss ts
  | alternatives ss, alternatives ts => sameChoices ss ts
  | reference p, reference q => p == q
  | optional s p, optional t q => same s t && p == q
  | repetition s b, repetition t c => same s t && b == c
  | characters s, characters t => s == t
  | epsilon, epsilon => true
  | _, _ => false

def sameAll : List Term → List Term → Bool
  | [], [] => true
  | s :: ss, t :: ts => same s t && sameAll ss ts
  | _, _ => false

def sameChoices : List Choice → List Choice → Bool
  | [], [] => true
  | ⟨s, p⟩ :: ss, ⟨t, q⟩ :: ts => same s t && p == q && sameChoices ss ts
  | _, _ => false

end

instance : BEq Term := ⟨same⟩

/-- Alternatives of equal bias. -/
def oneOf (terms : List Term) : Term := alternatives (terms.map fun t => ⟨t, 1⟩)

def repeated (t : Term) (least : UInt32) (most : Option UInt32) : Term :=
  repetition t ⟨least, most, none⟩

/-- The end of input can stand among alternatives but can never be generated. -/
def isEndOfInput : Term → Bool
  | characters set => set.isEndOfInput
  | _ => false

end Term

section Eligible

variable {W : Type} [OfNat W 0] [LT W] [DecidableLT W]

/-- An alternative takes part in a choice when its bias is positive and it is not the end of
input. -/
def Weighted.isEligible (c : Weighted W Term) : Bool :=
  decide (0 < c.weight) && !c.item.isEndOfInput

def eligible (options : List (Weighted W Term)) : List (Weighted W Term) :=
  options.filter Weighted.isEligible

end Eligible

end Sentential
