import Sentential.Policy.Dialogue
import Sentential.Policy.Journal

/-!
# Layers around a policy

Journals and dialogues in any order around a policy, each with the state of its own sink and input.
A journal passes on what the policy below decides, and so does a person who answers every question
with a blank line. What happens to the layers is told by the list of decisions alone: one line in
each journal for a decision that was made, one prompt and one line of input for each person.
-/
namespace Sentential

open Text

variable {ρ ω Ω σ α : Type}

/-- A question that a policy was asked, the place where it came up, and what came of it. -/
structure Asked where
  path : String
  question : Question
  outcome : Outcome question.Answer

namespace Asked

def answered (a : Asked) : Bool :=
  match a.outcome with
  | .value _ => true
  | .failed _ | .unfinished => false

/-- The line about a decision in a journal. There is none where the policy has failed. -/
def note? (a : Asked) : Option String :=
  match a.outcome with
  | .value answer => some ("At " ++ a.path ++ a.question.note answer)
  | .failed _ | .unfinished => none

/-- The prompt that offers a decision as the default. -/
def prompt? (a : Asked) : Option String :=
  match a.outcome with
  | .value answer => some ("At " ++ a.path ++ a.question.prompt (some answer))
  | .failed _ | .unfinished => none

theorem length_prompts (asked : List Asked) :
    (asked.filterMap prompt?).length = asked.countP answered := by
  have offered (a : Asked) : a.prompt?.isSome = a.answered := by
    obtain ⟨path, q, outcome⟩ := a
    cases outcome <;> rfl
  rw [List.length_filterMap_eq_countP]
  exact List.countP_congr fun a _ => by rw [offered]

end Asked

def Sink.within (p : Part Ω ω) (s : Sink ω) : Sink Ω :=
  ⟨fun text => p.perform (s.append text), p.perform s.flush⟩

def Log.within (p : Part Ω ω) (log : Log ω) : Log Ω :=
  ⟨fun level text w => p.modify (log.record level text) w⟩

/-- A sink that takes every text. -/
structure Steady (σ : Type) where
  append : String → σ → σ
  flush : σ → σ

namespace Steady

def sink (s : Steady σ) : Sink σ := ⟨fun text => Act.modify (s.append text), Act.modify s.flush⟩

/-- Every sink that never fails is one of these. -/
theorem exists_sink_eq (sink : Sink σ) (append : ∀ text w, (sink.append text w).1 = .value ())
    (flush : ∀ w, (sink.flush w).1 = .value ()) : ∃ s : Steady σ, s.sink = sink := by
  refine ⟨⟨fun text w => (sink.append text w).2, fun w => (sink.flush w).2⟩, ?_⟩
  have happend : (fun text => Act.modify fun w => (sink.append text w).2) = sink.append := by
    funext text w
    exact Prod.ext (append text w).symm rfl
  have hflush : Act.modify (fun w => (sink.flush w).2) = sink.flush := by
    funext w
    exact Prod.ext (flush w).symm rfl
  rw [Steady.sink, happend, hflush]

def note (s : Steady σ) (w : σ) (line : String) : σ :=
  s.flush (s.append (String.singleton '\n') (s.append line w))

def present (s : Steady σ) (w : σ) (prompt : String) : σ := s.flush (s.append prompt w)

end Steady

theorem Act.map_bind_run {β γ : Type} (g : α → β) (x : Act ω α) (f : β → Act ω γ) (w : ω) :
    (g <$> x >>= f) w = match x w with
      | (.value a, v) => f (g a) v
      | (.failed why, v) => (.failed why, v)
      | (.unfinished, v) => (.unfinished, v) := by
  rw [map_eq_pure_bind, bind_assoc, Act.bind_run]
  rcases x w with ⟨a | why | _, v⟩ <;> rfl

/-- A person is asked once the policy for the defaults has answered. -/
theorem Policy.asking_run (d : Dialogue ω) (policy : Policy ρ ω) (c : Cursor ρ) (q : Question)
    (w : ω) : Policy.asking d (some policy) c q w = match policy c q w with
      | (.value answer, v) => d.ask c.path q (some answer) (d.input.get v) v
      | (.failed why, v) => (.failed why, v)
      | (.unfinished, v) => (.unfinished, v) := by
  refine (Act.map_bind_run some (policy c q)
    (fun default v => d.ask c.path q default (d.input.get v) v) w).trans ?_
  rcases policy c q w with ⟨answer | why | _, v⟩ <;> rfl

/-- Something around a policy that is told of its decisions: a journal, or a person who is offered
them as defaults. -/
inductive Layer : Type 1
  | journal {σ : Type} (sink : Steady σ)
  | person {σ : Type} (sink : Steady σ) (log : Log (Input × σ))

/-- The given number of lines at the beginning are blank. -/
def Input.Blank : Nat → Input → Prop
  | 0, _ => True
  | n + 1, some line :: rest => trim line = "" ∧ Blank n rest
  | _ + 1, _ => False

theorem Input.exists_of_blank {n : Nat} {input : Input} (h : input.Blank (n + 1)) :
    ∃ line rest, input = some line :: rest ∧ trim line = "" ∧ Blank n rest := by
  cases input with
  | nil => exact h.elim
  | cons first rest =>
    cases first with
    | none => exact h.elim
    | some line => exact ⟨line, rest, rfl, h⟩

theorem Input.blank_of_le {m n : Nat} (h : m ≤ n) {input : Input} (blank : input.Blank n) :
    input.Blank m := by
  induction m generalizing n input with
  | zero => trivial
  | succ m ih =>
    obtain ⟨n, rfl⟩ := Nat.exists_eq_add_of_le' h
    obtain ⟨line, rest, rfl, hline, hrest⟩ := exists_of_blank (n := n + m) blank
    exact ⟨hline, ih (Nat.le_add_left m n) hrest⟩

theorem Input.blank_drop {m n : Nat} {input : Input} (blank : input.Blank (n + m)) :
    Blank n (input.drop m) := by
  induction m generalizing input with
  | zero => exact blank
  | succ m ih =>
    obtain ⟨line, rest, rfl, -, hrest⟩ := exists_of_blank blank
    exact ih hrest

namespace Layer

/-- What belongs to a layer and to nothing else. -/
@[reducible] def State : Layer → Type
  | @journal σ _ => σ
  | @person σ _ _ => Input × σ

def around (policy : Policy ρ Ω) : (l : Layer) → Policy ρ (l.State × Ω)
  | @journal σ sink => .noted (sink.sink.within (Part.fst : Part (σ × Ω) σ)) (.within .snd policy)
  | @person σ sink log =>
    let own : Part ((Input × σ) × Ω) (Input × σ) := .fst
    .asking ⟨own.inside .fst, sink.sink.within (own.inside .snd), log.within own⟩
      (some (.within .snd policy))

/-- What becomes of a layer in the course of some decisions. -/
def after (asked : List Asked) : (l : Layer) → l.State → l.State
  | journal sink, s => (asked.filterMap Asked.note?).foldl sink.note s
  | person sink _, (input, s) =>
    (input.drop (asked.filterMap Asked.prompt?).length,
      (asked.filterMap Asked.prompt?).foldl sink.present s)

/-- A person has as many blank lines left; journals need nothing. -/
def Stocked (n : Nat) : (l : Layer) → l.State → Prop
  | journal _, _ => True
  | person _ _, (input, _) => input.Blank n

/-- A layer asks the policy below once and passes on what comes of it. -/
theorem around_run (policy : Policy ρ Ω) (l : Layer) (c : Cursor ρ) (q : Question) (s : l.State)
    (w : Ω) (stocked : l.Stocked ([⟨c.path, q, (policy c q w).1⟩].countP Asked.answered) s) :
    l.around policy c q (s, w) = ((policy c q w).1,
      (l.after [⟨c.path, q, (policy c q w).1⟩] s, (policy c q w).2)) := by
  cases l with
  | journal sink =>
    have below : (Policy.within .snd policy : Policy ρ (_ × Ω)) c q (s, w) =
        ((policy c q w).1, (s, (policy c q w).2)) := rfl
    rw [around, Policy.noted, Act.bind_run, below]
    rcases policy c q w with ⟨answer | why | _, v⟩ <;> rfl
  | person sink log =>
    obtain ⟨input, s⟩ := s
    have below : (Policy.within .snd policy : Policy ρ (_ × Ω)) c q ((input, s), w) =
        ((policy c q w).1, ((input, s), (policy c q w).2)) := rfl
    rw [around, Policy.asking_run, below]
    revert stocked
    rcases policy c q w with ⟨answer | why | _, v⟩ <;> intro stocked
    · obtain ⟨line, rest, rfl, hline, -⟩ := Input.exists_of_blank stocked
      change Dialogue.ask _ c.path q (some answer) (some line :: rest) ((some line :: rest, s), v) = _
      rw [Dialogue.ask, hline]
      rfl
    · rfl
    · rfl

theorem after_nil (l : Layer) (s : l.State) : l.after [] s = s := by cases l <;> rfl

theorem after_append (xs ys : List Asked) (l : Layer) (s : l.State) :
    l.after (xs ++ ys) s = l.after ys (l.after xs s) := by
  cases l with
  | journal sink => simp only [after, List.filterMap_append, List.foldl_append]
  | person sink log =>
    simp only [after, List.filterMap_append, List.foldl_append, List.length_append, List.drop_drop]

/-- Every answer takes a line of input. -/
theorem stocked_after {n : Nat} {asked : List Asked} {l : Layer} {s : l.State}
    (h : l.Stocked (n + asked.countP Asked.answered) s) : l.Stocked n (l.after asked s) := by
  cases l with
  | journal sink => trivial
  | person sink log =>
    rw [← Asked.length_prompts] at h
    exact Input.blank_drop h

theorem stocked_of_le {m n : Nat} (h : m ≤ n) {l : Layer} {s : l.State} (stocked : l.Stocked n s) :
    l.Stocked m s := by
  cases l with
  | journal sink => trivial
  | person sink log => exact Input.blank_of_le h stocked

end Layer

/-- The world of a policy with layers around it, the outermost first. -/
@[reducible] def World (ω : Type) : List Layer → Type
  | [] => ω
  | l :: layers => l.State × World ω layers

def Policy.wrapped (policy : Policy ρ ω) : (layers : List Layer) → Policy ρ (World ω layers)
  | [] => policy
  | l :: layers => l.around (policy.wrapped layers)

namespace World

def base : (layers : List Layer) → Part (World ω layers) ω
  | [] => .whole
  | l :: layers => (Part.snd : Part (l.State × World ω layers) (World ω layers)).inside (base layers)

def after (asked : List Asked) : (layers : List Layer) → World ω layers → World ω layers
  | [], w => w
  | l :: layers, (s, w) => (l.after asked s, after asked layers w)

def Stocked (n : Nat) : (layers : List Layer) → World ω layers → Prop
  | [], _ => True
  | l :: layers, (s, w) => l.Stocked n s ∧ Stocked n layers w

variable {layers : List Layer}

theorem after_nil (w : World ω layers) : after [] layers w = w := by
  induction layers with
  | nil => rfl
  | cons l layers ih => exact Prod.ext (l.after_nil w.1) (ih w.2)

theorem after_append (xs ys : List Asked) (w : World ω layers) :
    after (xs ++ ys) layers w = after ys layers (after xs layers w) := by
  induction layers with
  | nil => rfl
  | cons l layers ih => exact Prod.ext (l.after_append xs ys w.1) (ih w.2)

/-- Decisions happen to the layers, whatever is in the world of the policy. -/
theorem after_set (asked : List Asked) (x : ω) (w : World ω layers) :
    after asked layers ((base layers).set x w) = (base layers).set x (after asked layers w) := by
  induction layers with
  | nil => rfl
  | cons l layers ih => exact Prod.ext rfl (ih w.2)

theorem stocked_set {n : Nat} {x : ω} {w : World ω layers} (h : Stocked n layers w) :
    Stocked n layers ((base layers).set x w) := by
  induction layers with
  | nil => trivial
  | cons l layers ih => exact ⟨h.1, ih h.2⟩

theorem stocked_after {n : Nat} {asked : List Asked} {w : World ω layers}
    (h : Stocked (n + asked.countP Asked.answered) layers w) : Stocked n layers (after asked layers w) := by
  induction layers with
  | nil => trivial
  | cons l layers ih => exact ⟨Layer.stocked_after h.1, ih h.2⟩

theorem stocked_of_le {m n : Nat} (hmn : m ≤ n) {w : World ω layers} (h : Stocked n layers w) :
    Stocked m layers w := by
  induction layers with
  | nil => trivial
  | cons l layers ih => exact ⟨Layer.stocked_of_le hmn h.1, ih h.2⟩

end World

/-- Layers ask the policy below them once for each decision and pass on what comes of it. -/
theorem Policy.wrapped_run (policy : Policy ρ ω) {layers : List Layer} (c : Cursor ρ) (q : Question)
    {w : World ω layers} (stocked : World.Stocked
      ([⟨c.path, q, (policy c q ((World.base layers).get w)).1⟩].countP Asked.answered) layers w) :
    policy.wrapped layers c q w = ((policy c q ((World.base layers).get w)).1,
      (World.base layers).set (policy c q ((World.base layers).get w)).2
        (World.after [⟨c.path, q, (policy c q ((World.base layers).get w)).1⟩] layers w)) := by
  induction layers with
  | nil => rfl
  | cons l layers ih =>
    obtain ⟨s, w⟩ := w
    have hbelow := ih (w := w) stocked.2
    have enough : l.Stocked
        ([⟨c.path, q, (policy.wrapped layers c q w).1⟩].countP Asked.answered) s := by
      rw [hbelow]
      exact stocked.1
    rw [wrapped, Layer.around_run (policy.wrapped layers) l c q s w enough, hbelow]
    rfl

end Sentential
