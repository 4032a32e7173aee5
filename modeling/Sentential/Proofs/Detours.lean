import Sentential.Proofs.Decoration
import Sentential.Proofs.Replies

/-!
# Detours in a conversation

A person may have any number of lines refused before one is taken: the answer, the rest of the run
and the policy for the defaults are the same. This is said about whole runs of a generator. The turns
of a run are listed, each with the lines that are left when the person begins to read, and at any of
them the lines that are refused may be exchanged for others that are refused too.
-/
namespace Sentential

open Text

variable {ρ κ σ ν ω α : Type}

namespace Question

/-- What comes of a question over some lines, and the lines that are left. -/
def reply (q : Question) (default : Option q.Answer) : Input → Outcome q.Answer × Input
  | [] => (.failed .inputClosed, [])
  | none :: rest => (.failed (.medium .notText), rest)
  | some line :: rest =>
    match Dialogue.answer q default (trim line) with
    | .ok a => (.value a, rest)
    | .error _ => reply q default rest

variable {q : Question} {default : Option q.Answer}

theorem reply_taken {line : String} {a : q.Answer} (h : q.Takes default line a) (rest : Input) :
    q.reply default (some line :: rest) = (.value a, rest) := by
  rw [reply, answer_eq_ok_iff.2 h]

theorem reply_refused {line : String} (h : q.Refuses default line) (rest : Input) :
    q.reply default (some line :: rest) = q.reply default rest := by
  obtain ⟨why, hwhy⟩ := refuses_iff.1 h
  rw [reply, hwhy]

theorem reply_refusedAll {refused : List String} (h : ∀ r ∈ refused, q.Refuses default r)
    (rest : Input) : q.reply default (refused.map some ++ rest) = q.reply default rest := by
  induction refused with
  | nil => rfl
  | cons r refused ih =>
    obtain ⟨hr, hrefused⟩ := List.forall_mem_cons.1 h
    exact (reply_refused hr _).trans (ih hrefused)

/-- Reading takes a line, if there is one, and never gives one back. -/
theorem length_reply (q : Question) (default : Option q.Answer) (first : Option String)
    (rest : Input) : (q.reply default (first :: rest)).2.length ≤ rest.length := by
  induction rest generalizing first with
  | nil =>
    cases first with
    | none => exact Nat.le_refl _
    | some line =>
      rw [reply]
      split <;> exact Nat.le_refl _
  | cons second rest ih =>
    cases first with
    | none => exact Nat.le_refl _
    | some line =>
      rw [reply]
      split
      · exact Nat.le_refl _
      · exact Nat.le_succ_of_le (ih second)

theorem length_reply_le (q : Question) (default : Option q.Answer) (input : Input) :
    (q.reply default input).2.length ≤ input.length := by
  cases input with
  | nil => exact Nat.le_refl _
  | cons first rest => exact Nat.le_succ_of_le (length_reply q default first rest)

/-- Either the question ends before some place in the input, and what is behind does not matter, or
it gets there. -/
theorem reply_append (q : Question) (default : Option q.Answer) (before tail tail' : Input) :
    (before ≠ [] ∧ ∃ outcome later, q.reply default (before ++ tail) = (outcome, later ++ tail) ∧
      q.reply default (before ++ tail') = (outcome, later ++ tail')) ∨
    q.reply default (before ++ tail) = q.reply default tail ∧
      q.reply default (before ++ tail') = q.reply default tail' := by
  induction before with
  | nil => exact .inr ⟨rfl, rfl⟩
  | cons first before ih =>
    cases first with
    | none => exact .inl ⟨List.cons_ne_nil _ _, _, before, rfl, rfl⟩
    | some line =>
      rcases q.refuses_or_takes default line with h | ⟨a, takes⟩
      · rw [List.cons_append, List.cons_append, reply_refused h, reply_refused h]
        rcases ih with ⟨-, outcome, later, hends⟩ | hreaches
        · exact .inl ⟨List.cons_ne_nil _ _, outcome, later, hends⟩
        · exact .inr hreaches
      · exact .inl ⟨List.cons_ne_nil _ _, .value a, before, reply_taken takes _, reply_taken takes _⟩

end Question

/-- A dialogue gives the reply to its input, whatever has been shown before. -/
theorem Dialogue.ask_reply (sink : Steady σ) (log : Log ν) (path : String) (q : Question)
    (default : Option q.Answer) (input : Input) (s : σ) (n : ν) (w : ω) :
    ∃ s' n', (seated sink log).ask path q default input ((input, s, n), w) =
      ((q.reply default input).1, (((q.reply default input).2, s', n'), w)) := by
  induction input generalizing s n with
  | nil => exact ⟨_, _, rfl⟩
  | cons first rest ih =>
    cases first with
    | none => exact ⟨_, _, rfl⟩
    | some line =>
      rcases q.refuses_or_takes default line with h | ⟨a, takes⟩
      · obtain ⟨n', hstep⟩ := ask_refused sink log path h rest
          (some line :: rest) s n w
        rw [hstep, Question.reply_refused h]
        exact ih _ n'
      · rw [ask_taken takes, Question.reply_taken takes]
        exact ⟨_, _, rfl⟩

/-- A question that a person begins to answer, with the lines that are left then. -/
structure Turn where
  question : Question
  default : Option question.Answer
  input : Input

/-- The turn that there is when the default has come out, if it has. -/
def Turn.ofOffer (q : Question) (input : Input) : Outcome (Option q.Answer) → List Turn
  | .value default => [⟨q, default, input⟩]
  | .failed _ | .unfinished => []

namespace Policy

variable (sink : Steady σ) (log : Log ν) (defaults : Option (Policy ρ ω))

/-- Lists the turns of a person. -/
def attended : Policy ρ (List Turn × (Seat σ ν × ω)) := fun c q w =>
  ((person sink log defaults c q w.2).1,
    w.1 ++ Turn.ofOffer q w.2.1.1 (offer defaults c q w.2.2).1,
    (person sink log defaults c q w.2).2)

variable {defaults}

theorem person_of_offer {c : Cursor ρ} {q : Question} {default : Option q.Answer} {w u : ω}
    (h : offer defaults c q w = (.value default, u)) (input : Input) (s : σ) (n : ν) :
    ∃ s' n', person sink log defaults c q ((input, s, n), w) =
      ((q.reply default input).1, (((q.reply default input).2, s', n'), u)) := by
  rw [person_run, h]
  exact Dialogue.ask_reply sink log c.path q default input s n u

theorem person_of_failed {c : Cursor ρ} {q : Question} {why : Fault} {w u : ω}
    (h : offer defaults c q w = (.failed why, u)) (seat : Seat σ ν) :
    person sink log defaults c q (seat, w) = (.failed why, (seat, u)) := by
  rw [person_run, h]

theorem person_of_unfinished {c : Cursor ρ} {q : Question} {w u : ω}
    (h : offer defaults c q w = (.unfinished, u)) (seat : Seat σ ν) :
    person sink log defaults c q (seat, w) = (.unfinished, (seat, u)) := by
  rw [person_run, h]

end Policy

/-- A turn at which some lines are refused before one is taken, and other lines that would be refused
as well. -/
structure Detour where
  question : Question
  default : Option question.Answer
  refused : List String
  other : List String
  line : String
  answer : question.Answer
  rest : Input
  refuses : ∀ r ∈ refused, question.Refuses default r
  refuses_other : ∀ r ∈ other, question.Refuses default r
  takes : question.Takes default line answer

namespace Detour

/-- The input at the turn. -/
def tail (d : Detour) : Input := d.refused.map some ++ some d.line :: d.rest

def otherTail (d : Detour) : Input := d.other.map some ++ some d.line :: d.rest

def turn (d : Detour) : Turn := ⟨d.question, d.default, d.tail⟩

theorem reply_tail (d : Detour) :
    d.question.reply d.default d.tail = (.value d.answer, d.rest) := by
  rw [tail, Question.reply_refusedAll d.refuses, Question.reply_taken d.takes]

theorem reply_otherTail (d : Detour) :
    d.question.reply d.default d.otherTail = (.value d.answer, d.rest) := by
  rw [otherTail, Question.reply_refusedAll d.refuses_other, Question.reply_taken d.takes]

theorem length_reply_tail (d : Detour) (q : Question) (default : Option q.Answer) :
    (q.reply default d.tail).2.length < d.tail.length := by
  have hne : d.tail ≠ [] := by simp [tail]
  obtain ⟨first, rest, htail⟩ := List.exists_cons_of_ne_nil hne
  rw [htail]
  exact Nat.lt_succ_of_le (q.length_reply default first rest)

theorem turn_ne_of_length (d : Detour) {q : Question} {default : Option q.Answer} {input : Input}
    (h : input.length ≠ d.tail.length) : d.turn ≠ ⟨q, default, input⟩ := by
  intro heq
  exact h (congrArg (fun t : Turn => t.input.length) heq).symm

/-- A question that is asked in front of the turn ends there, or it is the turn itself, or the run
goes past the turn. -/
theorem reply_before (d : Detour) (q : Question) (default : Option q.Answer) (before : Input) :
    (d.turn ≠ ⟨q, default, before ++ d.tail⟩ ∧ ∃ outcome later,
      q.reply default (before ++ d.tail) = (outcome, later ++ d.tail) ∧
      q.reply default (before ++ d.otherTail) = (outcome, later ++ d.otherTail)) ∨
    (d.turn = ⟨q, default, before ++ d.tail⟩ ∧
      q.reply default (before ++ d.tail) = q.reply default (before ++ d.otherTail)) ∨
    d.turn ≠ ⟨q, default, before ++ d.tail⟩ ∧
      (q.reply default (before ++ d.tail)).2.length < d.tail.length := by
  rcases q.reply_append default before d.tail d.otherTail with ⟨hne, ends⟩ | ⟨hreach, hreach'⟩
  · refine .inl ⟨d.turn_ne_of_length ?_, ends⟩
    have hpos := List.length_pos_iff.2 hne
    rw [List.length_append]
    omega
  · by_cases heq : d.turn = ⟨q, default, before ++ d.tail⟩
    · obtain ⟨rfl, hdefault, -⟩ := Turn.mk.inj heq
      obtain rfl := eq_of_heq hdefault
      exact .inr (.inl ⟨heq, by rw [hreach, hreach', reply_tail, reply_otherTail]⟩)
    · exact .inr (.inr ⟨heq, by rw [hreach]; exact d.length_reply_tail q default⟩)

end Detour

namespace Tandem

/-- A run with a list of its turns, and the same run with the other lines of a detour in its input.
Their inputs differ up to the turn of the detour and are the same from there on. The first run is lost
when it goes past that place without taking the turn. -/
def detour (σ ν ω : Type) (d : Detour) :
    Tandem (List Turn × (Seat σ ν × ω)) (Seat σ ν × ω) where
  close v w := v.2.2 = w.2 ∧
    (d.turn ∉ v.1 ∧ (∃ before, v.2.1.1 = before ++ d.tail ∧ w.1.1 = before ++ d.otherTail) ∨
      d.turn ∈ v.1 ∧ v.2.1.1 = w.1.1)
  lost v := d.turn ∉ v.1 ∧ v.2.1.1.length < d.tail.length

variable {d : Detour}

/-- What is done beside the seats is done to the same. -/
theorem detour_perform (x : Act ω α) : (detour σ ν ω d).Acts
    (((.snd : Part (List Turn × (Seat σ ν × ω)) _).inside .snd).perform x)
    ((.snd : Part (Seat σ ν × ω) ω).perform x) where
  stays _ lost := lost
  keeps := by
    rintro ⟨turns, seat, v⟩ ⟨seat', _⟩ ⟨rfl, inputs⟩
    exact .inr ⟨rfl, rfl, inputs⟩

variable (sink : Steady σ) (log : Log ν) (defaults : Option (Policy ρ ω))

/-- Nobody gives back lines that have been read, and nobody takes a turn again. -/
theorem detour_stays (c : Cursor ρ) (q : Question) (v : List Turn × (Seat σ ν × ω))
    (lost : (detour σ ν ω d).lost v) :
    (detour σ ν ω d).lost (Policy.attended sink log defaults c q v).2 := by
  obtain ⟨turns, ⟨input, s, n⟩, w⟩ := v
  obtain ⟨hturns, hlength⟩ := lost
  rcases h : Policy.offer defaults c q w with ⟨default | why | _, u⟩
  · obtain ⟨s', n', hperson⟩ := Policy.person_of_offer sink log h input s n
    rw [Policy.attended, h, hperson]
    refine ⟨fun hmem => ?_, Nat.lt_of_le_of_lt (q.length_reply_le default input) hlength⟩
    rcases List.mem_append.1 hmem with hmem | hmem
    · exact hturns hmem
    · exact d.turn_ne_of_length (Nat.ne_of_lt hlength) (List.mem_singleton.1 hmem)
  · rw [Policy.attended, h, Policy.person_of_failed sink log h]
    exact ⟨by simpa [Turn.ofOffer] using hturns, hlength⟩
  · rw [Policy.attended, h, Policy.person_of_unfinished sink log h]
    exact ⟨by simpa [Turn.ofOffer] using hturns, hlength⟩

theorem detour_policies (d : Detour) : (detour σ ν ω d).Policies
    (Policy.attended sink log defaults) (Policy.person sink log defaults) := by
  refine fun c q => ⟨detour_stays sink log defaults c q, ?_⟩
  rintro ⟨turns, ⟨input, s, n⟩, w⟩ ⟨⟨input', s', n'⟩, _⟩ ⟨rfl, inputs⟩
  rcases h : Policy.offer defaults c q w with ⟨default | why | _, u⟩
  · obtain ⟨s₁, n₁, hperson⟩ := Policy.person_of_offer sink log h input s n
    obtain ⟨s₂, n₂, hperson'⟩ := Policy.person_of_offer sink log h input' s' n'
    rw [Policy.attended, h, hperson, hperson']
    rcases inputs with ⟨hturns, before, rfl, rfl⟩ | ⟨hturns, rfl⟩
    · have notMem {turn : Turn} (hne : d.turn ≠ turn) : d.turn ∉ turns ++ [turn] := by
        simpa using ⟨hturns, hne⟩
      rcases d.reply_before q default before with
        ⟨hne, outcome, later, hreply, hreply'⟩ | ⟨heq, hreply⟩ | ⟨hne, hpast⟩
      · rw [hreply, hreply']
        exact .inr ⟨rfl, rfl, .inl ⟨notMem hne, later, rfl, rfl⟩⟩
      · rw [hreply]
        exact .inr ⟨rfl, rfl, .inr ⟨List.mem_append_right _ (List.mem_singleton.2 heq), rfl⟩⟩
      · exact .inl ⟨notMem hne, hpast⟩
    · exact .inr ⟨rfl, rfl, .inr ⟨List.mem_append_left _ hturns, rfl⟩⟩
  · rw [Policy.attended, h, Policy.person_of_failed sink log h, Policy.person_of_failed sink log h]
    exact .inr ⟨rfl, rfl, by simpa [Turn.ofOffer] using inputs⟩
  · rw [Policy.attended, h, Policy.person_of_unfinished sink log h, Policy.person_of_unfinished sink log h]
    exact .inr ⟨rfl, rfl, by simpa [Turn.ofOffer] using inputs⟩

end Tandem

/-- An act in a world with a person, and the same act with a list of the turns. At each of the turns
other lines may be refused than those that were, and the act comes to the same: only what has been
shown and the messages about it differ. -/
def Undeterred (x : Act (Seat σ ν × ω) α) (y : Act (List Turn × (Seat σ ν × ω)) α) : Prop :=
  ∀ input s n w, ∃ turns,
    let plain := x ((input, s, n), w)
    y ([], (input, s, n), w) = (plain.1, turns, plain.2) ∧
      ∀ d : Detour, d.turn ∈ turns → ∀ before, input = before ++ d.tail →
        ∃ s' n', x ((before ++ d.otherTail, s, n), w) =
          (plain.1, ((plain.2.1.1, s', n'), plain.2.2))

theorem undeterred {x : Act (Seat σ ν × ω) α} {y : Act (List Turn × (Seat σ ν × ω)) α}
    (listed : (Tandem.part .snd).Acts x y) (detours : ∀ d, (Tandem.detour σ ν ω d).Acts y x) :
    Undeterred x y := by
  intro input s n w
  have hy : y ([], (input, s, n), w) = ((x ((input, s, n), w)).1,
      (y ([], (input, s, n), w)).2.1, (x ((input, s, n), w)).2) := by
    rcases listed.keeps _ ([], (input, s, n), w) rfl with lost | ⟨hresult, hworld⟩
    · exact lost.elim
    · exact Prod.ext hresult.symm (Prod.ext rfl hworld)
  refine ⟨_, hy, ?_⟩
  rintro d hturn before rfl
  rcases (detours d).keeps ([], (before ++ d.tail, s, n), w) ((before ++ d.otherTail, s, n), w)
      ⟨rfl, .inl ⟨List.not_mem_nil, before, rfl, rfl⟩⟩ with lost | ⟨hresult, hworld, inputs⟩
  · exact absurd hturn lost.1
  · rcases inputs with ⟨hnot, -⟩ | ⟨-, hinput⟩
    · exact absurd hturn hnot
    · rw [hy] at hresult hworld hinput
      let other := x ((before ++ d.otherTail, s, n), w)
      refine ⟨other.2.1.2.1, other.2.1.2.2, ?_⟩
      exact Prod.ext hresult.symm (Prod.ext (Prod.ext hinput.symm rfl) hworld.symm)

namespace Design

variable (d : Design κ ω) (sink : Steady σ) (log : Log ν) (defaults : Option (Policy κ ω))

/-- The generator with a person for its policy, whose log it shares. -/
def asking : Generator κ (Seat σ ν × ω) :=
  { d.inside .snd (.person sink log defaults) with
    log := log.within (Part.fst.inside (Part.snd.inside .snd)) }

def attending : Generator κ (List Turn × (Seat σ ν × ω)) :=
  { d.inside (Part.snd.inside .snd) (.attended sink log defaults) with
    log := (log.within (Part.fst.inside (Part.snd.inside .snd))).within .snd }

theorem asking_listed :
    (Tandem.part .snd).Generators (d.asking sink log defaults) (d.attending sink log defaults) := by
  have policies : (Tandem.part .snd).Policies (Policy.person sink log defaults)
      (Policy.attended sink log defaults) := by
    refine fun c q => ⟨fun _ lost => lost.elim, ?_⟩
    rintro _ v rfl
    exact .inr ⟨rfl, rfl⟩
  have parts {β : Type} (x : Act ω β) : (Tandem.part .snd).Acts
      ((.snd : Part (Seat σ ν × ω) ω).perform x)
      (((.snd : Part (List Turn × (Seat σ ν × ω)) _).inside .snd).perform x) :=
    Tandem.part_perform .snd _
  have together := d.tandem parts policies
  exact ⟨together.grammar, together.budget, together.policy, together.replacements,
    together.context, fun level text => Tandem.part_perform .snd (Log.say _ level text)⟩

theorem attending_detour (detour : Detour) : (Tandem.detour σ ν ω detour).Generators
    (d.attending sink log defaults) (d.asking sink log defaults) := by
  have together := d.tandem Tandem.detour_perform (Tandem.detour_policies sink log defaults detour)
  refine ⟨together.grammar, together.budget, together.policy, together.replacements,
    together.context, fun level text => ⟨fun _ lost => lost, ?_⟩⟩
  rintro ⟨turns, ⟨input, s, n⟩, v⟩ ⟨⟨input', s', n'⟩, _⟩ ⟨rfl, inputs⟩
  exact .inr ⟨rfl, rfl, inputs⟩

end Design

def Outcome.isValue : Outcome α → Bool
  | .value _ => true
  | .failed _ | .unfinished => false

/-- The prompts are as many as the lines that are read, and one more where the input is closed. -/
theorem Question.Ends.countP_exchange {q : Question} {default : Option q.Answer}
    {lines refused rest : List String} {outcome : Outcome q.Answer}
    (h : q.Ends default lines refused outcome rest) (path : String) :
    (q.exchange path default refused).countP Utterance.isPrompt =
      lines.length - rest.length + if outcome.isValue then 0 else 1 := by
  rw [Question.countP_exchange]
  cases h with
  | taken =>
    simp only [Outcome.isValue, List.length_append, List.length_cons, if_true]
    omega
  | closed => simp [Outcome.isValue]

/-- A person who is asked something answers by the first line that is taken, once the policy for the
defaults has been asked, and reads no further. At every turn of a run, other lines could be refused
before the one that is taken, and the run would be the same. -/
theorem Design.takes_first_line (d : Design κ ω) (sink : Steady σ) (log : Log ν)
    (defaults : Option (Policy κ ω)) :
    (∀ c q text s n w, match Policy.offer defaults c q w with
      | (.value default, u) => ∃ refused outcome rest n',
          q.Ends default (lines text) refused outcome rest ∧
          Policy.person sink log defaults c q ((Input.ofString text, s, n), w) = (outcome,
            ((rest.map some, (q.exchange c.path default refused).foldl sink.utter s, n'), u)) ∧
          (q.exchange c.path default refused).countP Utterance.isPrompt =
            (lines text).length - rest.length + if outcome.isValue then 0 else 1
      | (.failed why, u) => Policy.person sink log defaults c q ((Input.ofString text, s, n), w) =
          (.failed why, ((Input.ofString text, s, n), u))
      | (.unfinished, u) => Policy.person sink log defaults c q ((Input.ofString text, s, n), w) =
          (.unfinished, ((Input.ofString text, s, n), u))) ∧
    (∀ c q, Undeterred (Policy.person sink log defaults c q)
      (Policy.attended sink log defaults c q)) ∧
    (∀ start, Undeterred ((d.asking sink log defaults).document start)
      ((d.attending sink log defaults).document start)) ∧
    ∀ out : Sink ω,
      (∀ document, Undeterred ((d.asking sink log defaults).write (out.within .snd) document)
        ((d.attending sink log defaults).write (out.within (Part.snd.inside .snd)) document)) ∧
      ∀ start, Undeterred ((d.asking sink log defaults).sentence start (out.within .snd))
        ((d.attending sink log defaults).sentence start (out.within (Part.snd.inside .snd))) := by
  have listed := d.asking_listed sink log defaults
  have detours := d.attending_detour sink log defaults
  refine ⟨fun c q text s n w => ?_, fun c q => ?_, fun start => ?_, fun out => ?_⟩
  · rcases h : Policy.offer defaults c q w with ⟨default | why | _, u⟩
    · obtain ⟨refused, outcome, rest, ends⟩ := q.exists_ends default (lines text)
      obtain ⟨n', hask⟩ := Dialogue.ask_ends sink log c.path ends s n u
      refine ⟨refused, outcome, rest, n', ends, ?_, ends.countP_exchange c.path⟩
      rw [Policy.person_run, h, Input.ofString_eq_lines]
      exact hask
    · exact Policy.person_of_failed sink log h _
    · exact Policy.person_of_unfinished sink log h _
  · exact undeterred (listed.policy c q) fun detour => (detours detour).policy c q
  · exact undeterred (listed.document start) fun detour => (detours detour).document start
  · have sinks : (Tandem.part .snd).Sinks (out.within (Part.snd : Part (Seat σ ν × ω) ω))
        (out.within ((Part.snd : Part (List Turn × (Seat σ ν × ω)) _).inside .snd)) :=
      Sink.tandem (fun x => Tandem.part_perform .snd (Part.snd.perform x)) out
    have sinks' (detour : Detour) : (Tandem.detour σ ν ω detour).Sinks
        (out.within (Part.snd.inside .snd)) (out.within .snd) :=
      Sink.tandem Tandem.detour_perform out
    exact ⟨fun document => undeterred (listed.write sinks document) fun detour =>
        (detours detour).write (sinks' detour) document,
      fun start => undeterred (listed.sentence sinks start) fun detour =>
        (detours detour).sentence (sinks' detour) start⟩

/-- The letter that is excluded is refused, and so are no letter and several. -/
def Detour.letter : Detour where
  question := .character (.anyExcept ['a'])
  default := none
  refused := ["a"]
  other := ["", "aa", "a"]
  line := "b"
  answer := 'b'
  rest := []
  refuses := List.forall_mem_singleton.2
    (Question.refuses_iff.2 ⟨some (.notInSet 'a' "ANY"), by rfl⟩)
  refuses_other := List.forall_mem_cons.2 ⟨Question.refuses_iff.2 ⟨none, by rfl⟩,
    List.forall_mem_cons.2
      ⟨Question.refuses_iff.2 ⟨some (.notANumber .invalidDigit), by rfl⟩,
        List.forall_mem_singleton.2
          (Question.refuses_iff.2 ⟨some (.notInSet 'a' "ANY"), by rfl⟩)⟩⟩
  takes := Question.answer_eq_ok_iff.1 (by rfl)

/-- A text is written with the letter that is taken in the end, whatever has been refused. -/
theorem Design.takes_first_line_marked :
    ∃ s n, (marked.asking Steady.transcript (Log.silent : Log Unit) none).sentence "call"
        ((Sink.transcript .whole).within .snd)
        (([some "", some "aa", some "a", some "b"], Transcript.empty, ()), Transcript.empty) =
      (.value (), (([], s, n), ⟨["!", "b"]⟩)) := by
  let out : Sink Transcript := .transcript .whole
  let attending := marked.attending Steady.transcript (Log.silent : Log Unit) none
  have hdocument : ∃ seat : Seat Transcript Unit, seat.1 = [] ∧ attending.document "call"
      ([], ([some "a", some "b"], Transcript.empty, ()), Transcript.empty) =
      (.value (.tree "call" [.tree "letter" [.literal "b"], .deferred "mark" ()]),
        [Detour.letter.turn], seat, Transcript.empty) := ⟨_, rfl, by rfl⟩
  obtain ⟨seat, hseat, hdocument⟩ := hdocument
  have hsentence : attending.sentence "call" (out.within (Part.snd.inside .snd))
      ([], ([some "a", some "b"], Transcript.empty, ()), Transcript.empty) =
        (.value (), [Detour.letter.turn], seat, ⟨["!", "b"]⟩) := by
    rw [Generator.sentence, Act.bind_value hdocument, Generator.write, Spot.write_eq_traverse]
    rfl
  obtain ⟨turns, hlisted, hdetours⟩ := (takes_first_line marked Steady.transcript
    (Log.silent : Log Unit) none).2.2.2 out |>.2 "call" [some "a", some "b"] Transcript.empty ()
      Transcript.empty
  have hboth := hlisted.symm.trans hsentence
  obtain rfl : turns = [Detour.letter.turn] := congrArg (fun r => r.2.1) hboth
  obtain ⟨s, n, hrun⟩ := hdetours Detour.letter List.mem_cons_self [] rfl
  refine ⟨s, n, hrun.trans ?_⟩
  rw [congrArg Prod.fst hboth, congrArg (fun r => r.2.2.2) hboth,
    congrArg (fun r => r.2.2.1) hboth, hseat]

end Sentential
