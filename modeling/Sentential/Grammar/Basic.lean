import Sentential.Grammar.Catalogue

/-!
# Grammars

A language and the productions that define it; the language is the production to start from.
A grammar is sound when the language has a production, every reference has one, and all bounds and
probabilities make sense. Inspecting a grammar goes through the productions in ascending order and
through each definition from the outside in and from left to right, and stops at the first flaw.
-/
namespace Sentential

open Text

structure Grammar where
  language : String
  productions : Catalogue

/-- A literal that looks like the name of a rule, and the production that uses it. -/
structure Warning where
  production : String
  literal : String
  deriving DecidableEq, Repr

def Warning.message (w : Warning) : String :=
  "production " ++ w.production ++ " uses a literal that looks like a rule identifier (" ++
    Quoted.text w.literal ++ "); check whether your grammar is correct!"

namespace Term

def children : Term → List Term
  | sequence terms => terms
  | alternatives options => options.map Weighted.item
  | optional t _ => [t]
  | repetition t _ => [t]
  | literal _ | reference _ | characters _ | epsilon => []

theorem sizeOf_append (ts us : List Term) : sizeOf (ts ++ us) + 1 = sizeOf ts + sizeOf us := by
  induction ts with
  | nil =>
    rw [List.nil_append, List.nil.sizeOf_spec]
    omega
  | cons t ts ih =>
    rw [List.cons_append, List.cons.sizeOf_spec, List.cons.sizeOf_spec]
    omega

theorem sizeOf_items_le (options : List Choice) :
    sizeOf (options.map Weighted.item) ≤ sizeOf options := by
  induction options with
  | nil => exact Nat.le_refl _
  | cons c options ih =>
    obtain ⟨t, bias⟩ := c
    simp only [List.map_cons, List.cons.sizeOf_spec, Weighted.mk.sizeOf_spec]
    omega

theorem sizeOf_children_le (t : Term) : sizeOf t.children ≤ sizeOf t + 1 := by
  cases t with
  | sequence terms =>
    rw [children, sequence.sizeOf_spec]
    omega
  | alternatives options =>
    have hitems := sizeOf_items_le options
    rw [children, alternatives.sizeOf_spec]
    omega
  | optional t p =>
    rw [children, optional.sizeOf_spec, List.cons.sizeOf_spec, List.nil.sizeOf_spec]
    omega
  | repetition t bounds =>
    rw [children, repetition.sizeOf_spec, List.cons.sizeOf_spec, List.nil.sizeOf_spec]
    omega
  | literal | reference | characters | epsilon =>
    rw [children, List.nil.sizeOf_spec]
    omega

/-- Visits terms and the terms nested in them, from the outside in and from left to right. What is
still to be visited waits on a stack, with its top in front. References are not followed. -/
def walk : List Term → List Term
  | [] => []
  | t :: pending => t :: walk (t.children ++ pending)
termination_by pending => sizeOf pending
decreasing_by
  have happend := sizeOf_append t.children pending
  have hchildren := sizeOf_children_le t
  rw [List.cons.sizeOf_spec]
  omega

/-- A literal in angle brackets. -/
def looksLikeReference : Term → Option String
  | literal text =>
    if text.toList.head? = some '<' ∧ text.toList.getLast? = some '>' then some text else none
  | _ => none

end Term

/-- A result together with the warnings that came before it. -/
structure Inspected (α : Type) where
  warnings : List Warning
  result : Except Fault α

namespace Grammar

def production? (g : Grammar) (name : String) : Option Term := g.productions.find? name

def hasProduction (g : Grammar) (name : String) : Bool := g.productions.contains name

def unknown (g : Grammar) (name : String) : Fault := .unknownProduction g.language name

def definition (g : Grammar) (name : String) : Except Fault Term :=
  match g.production? name with
  | some term => .ok term
  | none => .error (g.unknown name)

/-- What is wrong with a term itself, the terms nested in it apart. -/
def flaw? (g : Grammar) : Term → Option Fault
  | .reference name => if g.hasProduction name then none else some (g.unknown name)
  | .repetition _ b =>
    if b.valid then none else some (.invalidRepetition b.least b.most b.norm)
  | .optional _ p => if 0 ≤ p ∧ p ≤ 1 then none else some (.invalidProbability p)
  | _ => none

/-- Every term of every definition, with the production that it belongs to. -/
def terms (g : Grammar) : List (String × Term) :=
  g.productions.entries.flatMap fun (name, term) => (Term.walk [term]).map fun t => (name, t)

def inspectTerms (g : Grammar) : List (String × Term) → Inspected Unit
  | [] => ⟨[], .ok ()⟩
  | (name, t) :: rest =>
    match g.flaw? t with
    | some fault => ⟨[], .error fault⟩
    | none =>
      let later := inspectTerms g rest
      match t.looksLikeReference with
      | some text => ⟨⟨name, text⟩ :: later.warnings, later.result⟩
      | none => later

def inspect (g : Grammar) : Inspected Unit :=
  if g.hasProduction g.language then g.inspectTerms g.terms
  else ⟨[], .error (g.unknown g.language)⟩

def Sound (g : Grammar) : Prop := g.inspect.result = .ok ()

/-- The grammar itself, once it has been inspected. -/
def inspected (g : Grammar) : Inspected Grammar :=
  ⟨g.inspect.warnings, g.inspect.result.map fun _ => g⟩

/-- The grammar of a language with the given definitions, which may come in any order. -/
def build (language : String) (definitions : List (String × Term)) : Inspected Grammar :=
  match Catalogue.ofList definitions .empty with
  | .error name => ⟨[], .error (.duplicateProduction name)⟩
  | .ok productions => inspected ⟨language, productions⟩

/-- Whether two grammars are the same, with numbers compared as numbers. -/
def same (g h : Grammar) : Bool := g.language == h.language && g.productions.same h.productions

end Grammar

end Sentential
