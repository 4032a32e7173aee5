import Mathlib.Data.List.Induction
import Sentential.Proofs.Scripts

/-!
# Anticipations

A script is put together by steps, which may repeat and correct each other. It answers by what has
been named in the end: the terms that were picked, the last count for each pair of bounds and the
characters, in whatever order and however often the terms and the counts were named. Characters are
different, since one that was named twice is taken for two: a set to which it alone belongs is settled
if it was named once and not otherwise. Asking changes nothing.
-/
namespace Sentential

variable {ρ ω : Type}

/-- A step in putting a script together. -/
inductive Anticipation where
  | pick (term : Term)
  | emit (c : Char)
  | repeats (times least : UInt32) (most : Option UInt32)
  | includes (yes : Bool)

namespace Anticipation

def term? : Anticipation → Option Term
  | pick t => some t
  | _ => none

def char? : Anticipation → Option Char
  | emit c => some c
  | _ => none

/-- The count for a pair of bounds. An optional term is a repetition from zero to one. -/
def times? (least : UInt32) (most : Option UInt32) : Anticipation → Option UInt32
  | repeats times l m => if (l, m) = (least, most) then some times else none
  | includes yes => if (0, some 1) = (least, most) then some (if yes then 1 else 0) else none
  | _ => none

/-- The terms that are picked, from the first to the last. -/
def terms (steps : List Anticipation) : List Term := steps.filterMap term?

def chars (steps : List Anticipation) : List Char := steps.filterMap char?

/-- The last count for a pair of bounds. -/
def lastTimes? (least : UInt32) (most : Option UInt32) (steps : List Anticipation) : Option UInt32 :=
  (steps.filterMap (times? least most)).getLast?

/-- Steps that name the same terms, the same characters and the same last counts. Terms are compared
as a script compares them. -/
structure Alike (xs ys : List Anticipation) : Prop where
  terms : ∀ t, (∃ p ∈ terms xs, (t == p) = true) ↔ ∃ p ∈ Anticipation.terms ys, (t == p) = true
  chars : ∀ c, c ∈ chars xs ↔ c ∈ Anticipation.chars ys
  times : ∀ least most, lastTimes? least most xs = lastTimes? least most ys

theorem lastTimes?_append_singleton (least : UInt32) (most : Option UInt32)
    (steps : List Anticipation) (x : Anticipation) :
    lastTimes? least most (steps ++ [x]) = (x.times? least most).or (lastTimes? least most steps) := by
  unfold lastTimes?
  rw [List.filterMap_append, List.getLast?_append]
  cases h : x.times? least most <;> simp [h]

/-- The only character in a set that is named by the steps. -/
def Singles (steps : List Anticipation) (set : CharacterSet) (c : Char) : Prop :=
  ∀ d, d ∈ chars steps ∧ set.contains d = true ↔ d = c

theorem Alike.singles_iff {xs ys : List Anticipation} (alike : Alike xs ys) {set : CharacterSet}
    {c : Char} : Singles xs set c ↔ Singles ys set c := by
  simp only [Singles, alike.chars]

end Anticipation

open Anticipation

namespace Script

def anticipate (s : Script) : Anticipation → Script
  | .pick t => s.pick t
  | .emit c => s.emit c
  | .repeats times least most => s.repeats times least most
  | .includes yes => s.includes yes

/-- The script that is put together by some steps. -/
def of (steps : List Anticipation) : Script := steps.foldl anticipate .empty

theorem of_append_singleton (steps : List Anticipation) (x : Anticipation) :
    of (steps ++ [x]) = (of steps).anticipate x := by
  rw [of, List.foldl_append]
  rfl

theorem picks_of (steps : List Anticipation) : (of steps).picks = terms steps := by
  induction steps using List.reverseRecOn with
  | nil => rfl
  | append_singleton steps x ih =>
    rw [of_append_singleton, terms, List.filterMap_append, ← terms, ← ih]
    cases x <;> simp [anticipate, pick, emit, repeats, includes, term?]

theorem characters_of (steps : List Anticipation) :
    (of steps).characters = chars steps := by
  induction steps using List.reverseRecOn with
  | nil => rfl
  | append_singleton steps x ih =>
    rw [of_append_singleton, chars, List.filterMap_append, ← chars, ← ih]
    cases x <;> simp [anticipate, pick, emit, repeats, includes, char?]

theorem lookup_repeats (s : Script) (times least l : UInt32) (most m : Option UInt32) :
    (s.repeats times least most).counts.lookup (l, m) =
      if (least, most) = (l, m) then some times else s.counts.lookup (l, m) := by
  rw [repeats, List.lookup_cons]
  by_cases h : (least, most) = (l, m)
  · simp [h]
  · rw [if_neg h, beq_false_of_ne (Ne.symm h)]

/-- The table of counts holds the last one for each pair of bounds. -/
theorem lookup_of (steps : List Anticipation) (least : UInt32) (most : Option UInt32) :
    (of steps).counts.lookup (least, most) = lastTimes? least most steps := by
  induction steps using List.reverseRecOn with
  | nil => rfl
  | append_singleton steps x ih =>
    rw [of_append_singleton, lastTimes?_append_singleton, ← ih]
    cases x with
    | pick t => rfl
    | emit c => rfl
    | repeats times l m =>
      rw [anticipate, lookup_repeats]
      by_cases h : (l, m) = (least, most) <;> simp [times?, h]
    | includes yes =>
      rw [anticipate, includes, lookup_repeats]
      by_cases h : ((0, some 1) : UInt32 × Option UInt32) = (least, most) <;> simp [times?, h]

/-- A character is settled for a set when it is named exactly once and alone belongs to the set. -/
theorem settle_of_eq_ok_iff {steps : List Anticipation} {set : CharacterSet} {c : Char} :
    (of steps).settle (.character set) = .ok c ↔
      Singles steps set c ∧ (chars steps).count c = 1 := by
  rw [settle_character_eq_ok_iff, characters_of]
  constructor
  · intro h
    have members d : d ∈ (chars steps).filter set.contains ↔ d = c := by rw [h, List.mem_singleton]
    have single : Singles steps set c := fun d => by rw [← members d, List.mem_filter]
    refine ⟨single, ?_⟩
    rw [← List.count_filter ((single c).2 rfl).2, h, List.count_singleton_self]
  · rintro ⟨single, once⟩
    rw [← List.count_filter ((single c).2 rfl).2] at once
    have all : ∀ d ∈ (chars steps).filter set.contains, d = c := fun d hd =>
      (single d).1 (List.mem_filter.1 hd)
    have length := List.count_eq_length.2 fun d hd => (all d hd).symm
    rw [List.eq_replicate_of_mem all, ← length, once]
    rfl

variable {xs ys : List Anticipation}

/-- A set is settled alike unless one character belongs to it that only one side named once. -/
theorem settle_character_congr (alike : Alike xs ys) {set : CharacterSet}
    (once : ∀ c, Singles xs set c → ((chars xs).count c = 1 ↔ (chars ys).count c = 1)) :
    (of xs).settle (.character set) = (of ys).settle (.character set) := by
  have settled c : (of xs).settle (.character set) = .ok c ↔
      (of ys).settle (.character set) = .ok c := by
    rw [settle_of_eq_ok_iff, settle_of_eq_ok_iff, ← alike.singles_iff]
    exact and_congr_right fun single => once c single
  have members : (of xs).characters.filter set.contains = [] ↔
      (of ys).characters.filter set.contains = [] := by
    simp only [List.filter_eq_nil_iff, characters_of, alike.chars]
  rcases settle_character_cases (of xs) set with ⟨c, hx⟩ | hx
  · rw [hx, (settled c).1 hx]
  · rcases settle_character_cases (of ys) set with ⟨c, hy⟩ | hy
    · rw [hy, (settled c).2 hy]
    · rw [hx, hy]
      simp only [members]

/-- All other questions are settled alike. -/
theorem settle_congr (alike : Alike xs ys) {q : Question}
    (once : ∀ set, q = .character set → ∀ c, Singles xs set c →
      ((chars xs).count c = 1 ↔ (chars ys).count c = 1)) :
    (of xs).settle q = (of ys).settle q := by
  have count least most : (of xs).count least most = (of ys).count least most := by
    rw [Script.count, Script.count, lookup_of, lookup_of, alike.times]
  cases q with
  | choice options =>
    have contains u : (of xs).picks.contains u = (of ys).picks.contains u := by
      rw [picks_of, picks_of]
      exact contains_congr (alike.terms u)
    dsimp only [settle]
    rw [picked_congr contains]
  | count term bounds => exact count _ _
  | inclusion term p =>
    dsimp only [settle]
    rw [count]
  | character set => exact settle_character_congr alike (once set rfl)

end Script

namespace Policy

/-- A question that was asked and how that ended. -/
abbrev Reply : Type := (q : Question) × Outcome q.Answer

/-- Asks one question after the other, whatever comes of them. -/
def interview (policy : Policy ρ ω) : List (Cursor ρ × Question) → ω → List Reply × ω
  | [], w => ([], w)
  | (c, q) :: queries, w =>
    let (reply, w) := policy c q w
    let (replies, w) := policy.interview queries w
    (⟨q, reply⟩ :: replies, w)

/-- A script replies to a question as if it were the first one. -/
theorem interview_scripted (s : Script) (queries : List (Cursor ρ × Question)) (w : ω) :
    (scripted s).interview queries w =
      (queries.map fun x => ⟨x.2, (scripted s x.1 x.2 w).1⟩, w) := by
  induction queries with
  | nil => rfl
  | cons x queries ih =>
    obtain ⟨c, q⟩ := x
    rw [interview]
    simp only [scripted_snd, ih, List.map_cons]

end Policy

open Policy Script

/-- Scripts for which the same has been named reply alike in an interview unless it asks for a
character of a set to which only one of the named ones belongs, and one of them named it once and the
other more often. Their replies do not depend on what was asked before. -/
theorem Script.interview_alike_iff {xs ys : List Anticipation} (alike : Alike xs ys)
    (queries : List (Cursor ρ × Question)) (w : ω) :
    (∀ s, (scripted s).interview queries w =
      (queries.map fun x => ⟨x.2, (scripted s x.1 x.2 w).1⟩, w)) ∧
    ((scripted (of xs)).interview queries w = (scripted (of ys)).interview queries w ↔
      ∀ x ∈ queries, ∀ set, x.2 = .character set → ∀ c, Singles xs set c →
        ((chars xs).count c = 1 ↔ (chars ys).count c = 1)) := by
  refine ⟨fun s => interview_scripted s queries w, ?_⟩
  rw [interview_scripted, interview_scripted, Prod.mk.injEq, List.map_inj_left]
  constructor
  · rintro ⟨same, -⟩ ⟨cursor, q⟩ hx set rfl c single
    have reply := eq_of_heq (Sigma.mk.inj (same _ hx)).2
    have once {steps : List Anticipation} (single : Singles steps set c) :
        (chars steps).count c = 1 ↔
          ((scripted (of steps)) cursor (.character set) w).1 = .value c := by
      rw [scripted_fst_eq_value_iff, settle_of_eq_ok_iff, and_iff_right single]
    rw [once single, once (alike.singles_iff.1 single)]
    exact reply ▸ .rfl
  · refine fun once => ⟨fun x hx => ?_, rfl⟩
    unfold scripted
    rw [settle_congr alike (once x hx)]

/-- A count that is corrected later. -/
def Anticipation.hasty : List Anticipation :=
  [.pick (.literal "a"), .repeats 7 0 none, .emit 'x', .includes true, .repeats 3 0 none]

/-- The same in another order, with a term that is picked again and another count corrected. -/
def Anticipation.tardy : List Anticipation :=
  [.includes false, .repeats 3 0 none, .emit 'x', .pick (.literal "a"), .repeats 1 0 (some 1),
    .pick (.literal "a")]

theorem Anticipation.hasty_alike_tardy : Alike hasty tardy := by
  refine ⟨fun t => by simp [terms, term?, hasty, tardy], fun c => .rfl, fun least most => ?_⟩
  by_cases unlimited : ((0, none) : UInt32 × Option UInt32) = (least, most)
  · cases unlimited
    rfl
  · by_cases optional : ((0, some 1) : UInt32 × Option UInt32) = (least, most)
    · cases optional
      rfl
    · simp [hasty, tardy, lastTimes?, List.filterMap, times?, unlimited, optional]

/-- All four questions are answered, and both scripts answer them alike. -/
theorem Script.interview_hasty :
    Alike hasty tardy ∧ ∃ queries : List (Cursor Unit × Question),
      queries = [(.root "s", .choice [⟨.literal "a", 1⟩, ⟨.literal "b", 1⟩]),
        (.root "s", .count (.literal "a") ⟨0, none, none⟩),
        (.root "s", .inclusion (.literal "a") 0.5), (.root "s", .character (.anyExcept ['y']))] ∧
      (scripted (of hasty)).interview queries () = (scripted (of tardy)).interview queries () ∧
      ((scripted (of hasty)).interview queries ()).1 =
        [⟨.choice [⟨.literal "a", 1⟩, ⟨.literal "b", 1⟩], .value (0 : Fin 2)⟩,
          ⟨.count (.literal "a") ⟨0, none, none⟩, .value (3 : Nat)⟩,
          ⟨.inclusion (.literal "a") 0.5, .value true⟩,
          ⟨.character (.anyExcept ['y']), .value 'x'⟩] :=
  ⟨hasty_alike_tardy, _, rfl,
    (interview_alike_iff hasty_alike_tardy _ ()).2.2 fun _ _ _ _ _ _ => .rfl, rfl⟩

/-- A character that is named twice is not found where it is found when it is named once. -/
theorem Script.interview_stuttered : Alike [.emit 'b'] [.emit 'b', .emit 'b'] ∧
    (scripted (of [.emit 'b'])).interview [(.root (ρ := Unit) "root", .character (.anyExcept []))] () =
      ([⟨.character (.anyExcept []), .value 'b'⟩], ()) ∧
    (scripted (of [.emit 'b', .emit 'b'])).interview
        [(.root (ρ := Unit) "root", .character (.anyExcept []))] () =
      ([⟨.character (.anyExcept []),
        .failed (.unpredicted "root" "more than one character was picked from $ANY")⟩], ()) := by
  refine ⟨⟨fun t => .rfl, fun c => ?_, fun _ _ => rfl⟩, rfl, by rfl⟩
  simp [Anticipation.chars, char?]

end Sentential
