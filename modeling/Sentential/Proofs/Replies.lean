import Sentential.Proofs.Layers
import Sentential.Proofs.Lines

/-!
# Replies of a person

A question to a person is settled by the first line that takes it: a blank one where there is a
default, or one that can be read as an answer. The lines in front of it are refused, each after a
prompt of its own and with a remark. Nothing behind the line that is taken is read, and where no
line is taken the whole input is. The policy for the defaults is asked once, before that.
-/
namespace Sentential

open Text

variable {ρ σ ν ω : Type}

namespace Question

/-- Whether a line is taken for an answer: as the default where it is blank, or as what it says. -/
def Takes (q : Question) (default : Option q.Answer) (line : String) (a : q.Answer) : Prop :=
  trim line = "" ∧ default = some a ∨ trim line ≠ "" ∧ q.read (trim line) = .ok a

def Refuses (q : Question) (default : Option q.Answer) (line : String) : Prop :=
  ∀ a, ¬ q.Takes default line a

/-- What is said about a line that is refused. -/
def remark (q : Question) (line : String) : String :=
  if trim line = "" then "Invalid input, no default choices available."
  else match q.read (trim line) with
    | .ok _ => ""
    | .error rejection => "Invalid input: " ++ rejection.message

variable {q : Question} {default : Option q.Answer} {line : String} {a : q.Answer}

theorem answer_eq_ok_iff : Dialogue.answer q default (trim line) = .ok a ↔ q.Takes default line a := by
  unfold Dialogue.answer Takes
  by_cases h : trim line = ""
  · cases default <;> simp [h]
  · rw [if_neg (mt String.isEmpty_iff.1 h)]
    cases q.read (trim line) <;> simp [h]

theorem refuses_or_takes (q : Question) (default : Option q.Answer) (line : String) :
    q.Refuses default line ∨ ∃ a, q.Takes default line a := by
  by_cases h : ∃ a, q.Takes default line a
  · exact .inr h
  · exact .inl (not_exists.1 h)

theorem refuses_iff : q.Refuses default line ↔
    ∃ why, Dialogue.answer q default (trim line) = .error why := by
  unfold Refuses
  simp only [← answer_eq_ok_iff]
  cases Dialogue.answer q default (trim line) <;> simp

/-- How a question ends over some lines, which of them are refused and which are left: one line is
taken, or the input is closed. -/
inductive Ends (q : Question) (default : Option q.Answer) :
    List String → List String → Outcome q.Answer → List String → Prop
  | taken {refused rest : List String} {line : String} {a : q.Answer}
      (refuses : ∀ r ∈ refused, q.Refuses default r) (takes : q.Takes default line a) :
      Ends q default (refused ++ line :: rest) refused (.value a) rest
  | closed {refused : List String} (refuses : ∀ r ∈ refused, q.Refuses default r) :
      Ends q default refused refused (.failed .inputClosed) []

theorem exists_ends (q : Question) (default : Option q.Answer) (lines : List String) :
    ∃ refused outcome rest, q.Ends default lines refused outcome rest := by
  induction lines with
  | nil => exact ⟨[], _, [], .closed nofun⟩
  | cons line lines ih =>
    rcases q.refuses_or_takes default line with h | ⟨a, takes⟩
    · obtain ⟨refused, outcome, rest, ends⟩ := ih
      cases ends with
      | taken refuses takes =>
        exact ⟨_, _, _, .taken (List.forall_mem_cons.2 ⟨h, refuses⟩) takes⟩
      | closed refuses => exact ⟨_, _, _, .closed (List.forall_mem_cons.2 ⟨h, refuses⟩)⟩
    · exact ⟨[], _, lines, .taken (List.forall_mem_nil _) takes⟩

end Question

/-- What is shown to a person: a question, or why a line was refused. -/
inductive Utterance where
  | prompt (text : String)
  | remark (text : String)

def Utterance.isPrompt : Utterance → Bool
  | prompt _ => true
  | remark _ => false

/-- The state of a sink after something has been shown. -/
def Steady.utter (s : Steady σ) (w : σ) : Utterance → σ
  | .prompt text => s.present w text
  | .remark text => s.append (String.singleton '\n') (s.append text w)

/-- What is shown over a question for which some lines are refused before it ends. -/
def Question.exchange (q : Question) (path : String) (default : Option q.Answer)
    (refused : List String) : List Utterance :=
  refused.flatMap (fun line => [.prompt ("At " ++ path ++ q.prompt default), .remark (q.remark line)]) ++
    [.prompt ("At " ++ path ++ q.prompt default)]

/-- Each line that is refused takes one prompt, and so does the end. -/
theorem Question.countP_exchange (q : Question) (path : String) (default : Option q.Answer)
    (refused : List String) :
    (q.exchange path default refused).countP Utterance.isPrompt = refused.length + 1 := by
  induction refused with
  | nil => rfl
  | cons line refused ih =>
    have hcons : q.exchange path default (line :: refused) =
        .prompt ("At " ++ path ++ q.prompt default) :: .remark (q.remark line) ::
          q.exchange path default refused := rfl
    rw [hcons, List.countP_cons_of_pos rfl, List.countP_cons_of_neg Bool.false_ne_true, ih,
      List.length_cons]

/-- What belongs to a person and to nothing else: the lines that are left, what has been shown, and
the messages about it. -/
abbrev Seat (σ ν : Type) : Type := Input × σ × ν

/-- A dialogue with a person who has a seat beside a world. -/
def Dialogue.seated (sink : Steady σ) (log : Log ν) : Dialogue (Seat σ ν × ω) where
  input := Part.fst.inside .fst
  sink := sink.sink.within (Part.fst.inside (Part.snd.inside .fst))
  log := log.within (Part.fst.inside (Part.snd.inside .snd))

namespace Dialogue

variable {sink : Steady σ} {log : Log ν} {q : Question} {default : Option q.Answer} {path : String}

theorem present_seated (input : Input) (s : σ) (n : ν) (w : ω) :
    (seated sink log).present path q default ((input, s, n), w) =
      (.value (), ((input, sink.utter s (.prompt ("At " ++ path ++ q.prompt default)), n), w)) := rfl

theorem ask_taken {line : String} {a : q.Answer} (h : q.Takes default line a) (rest input : Input)
    (s : σ) (n : ν) (w : ω) :
    (seated sink log).ask path q default (some line :: rest) ((input, s, n), w) =
      (.value a, ((rest, sink.utter s (.prompt ("At " ++ path ++ q.prompt default)), n), w)) := by
  rw [ask, Act.bind_value (present_seated input s n w), Act.bind_value (Act.modify_run _ _),
    Question.answer_eq_ok_iff.2 h]
  rfl

variable (sink log path)

/-- A line that is refused is commented on, and the question is asked again. -/
theorem ask_refused {line : String} (h : q.Refuses default line) (rest input : Input) (s : σ) (n : ν)
    (w : ω) : ∃ n', (seated sink log).ask path q default (some line :: rest) ((input, s, n), w) =
      (seated sink log).ask path q default rest
        ((rest, [.prompt ("At " ++ path ++ q.prompt default), .remark (q.remark line)].foldl
          sink.utter s, n'), w) := by
  obtain ⟨why, hwhy⟩ := Question.refuses_iff.1 h
  obtain ⟨n', hreject⟩ : ∃ n', (seated sink log).reject (trim line) why
      ((rest, sink.utter s (.prompt ("At " ++ path ++ q.prompt default)), n), w) =
        (.value (), ((rest, [.prompt ("At " ++ path ++ q.prompt default),
          .remark (q.remark line)].foldl sink.utter s, n'), w)) := by
    by_cases hline : trim line = ""
    · rw [hline] at hwhy
      cases default with
      | some a => cases hwhy
      | none =>
        cases hwhy
        refine ⟨n, ?_⟩
        rw [Question.remark, if_pos hline]
        rfl
    · unfold Dialogue.answer at hwhy
      rw [if_neg (mt String.isEmpty_iff.1 hline)] at hwhy
      rw [Question.remark, if_neg hline]
      cases hread : q.read (trim line) with
      | ok a =>
        rw [hread] at hwhy
        cases hwhy
      | error rejection =>
        rw [hread] at hwhy
        cases hwhy
        exact ⟨_, rfl⟩
  refine ⟨n', ?_⟩
  rw [ask, Act.bind_value (present_seated input s n w), Act.bind_value (Act.modify_run _ _), hwhy]
  exact Act.bind_value hreject

theorem ask_ends {lines refused rest : List String} {outcome : Outcome q.Answer}
    (h : q.Ends default lines refused outcome rest) (s : σ) (n : ν) (w : ω) :
    ∃ n', (seated sink log).ask path q default (lines.map some) ((lines.map some, s, n), w) =
      (outcome, ((rest.map some, (q.exchange path default refused).foldl sink.utter s, n'), w)) := by
  cases h with
  | @taken refused rest line a refuses takes =>
    induction refused generalizing s n with
    | nil => exact ⟨n, ask_taken takes _ _ s n w⟩
    | cons r refused ih =>
      obtain ⟨hr, hrefused⟩ := List.forall_mem_cons.1 refuses
      obtain ⟨n', hstep⟩ := ask_refused sink log path hr
        ((refused ++ line :: rest).map some) ((r :: refused ++ line :: rest).map some) s n w
      obtain ⟨n'', hrest⟩ := ih _ n' hrefused
      exact ⟨n'', hstep.trans hrest⟩
  | closed refuses =>
    induction lines generalizing s n with
    | nil => exact ⟨n, rfl⟩
    | cons r refused ih =>
      obtain ⟨hr, hrefused⟩ := List.forall_mem_cons.1 refuses
      obtain ⟨n', hstep⟩ := ask_refused sink log path hr
        (refused.map some) ((r :: refused).map some) s n w
      obtain ⟨n'', hrest⟩ := ih _ n' hrefused
      exact ⟨n'', hstep.trans hrest⟩

end Dialogue

namespace Policy

/-- What the policy for the defaults offers, if there is one. -/
def offer (defaults : Option (Policy ρ ω)) (c : Cursor ρ) (q : Question) :
    Act ω (Option q.Answer) :=
  match defaults with
  | some policy => some <$> policy c q
  | none => pure none

/-- Asks a person with a seat of their own. -/
def person (sink : Steady σ) (log : Log ν) (defaults : Option (Policy ρ ω)) :
    Policy ρ (Seat σ ν × ω) :=
  .asking (.seated sink log) (defaults.map (.within .snd))

variable (sink : Steady σ) (log : Log ν) (defaults : Option (Policy ρ ω))

/-- The person is asked when the default is there, or when there is none to wait for. -/
theorem person_run (c : Cursor ρ) (q : Question) (seat : Seat σ ν) (w : ω) :
    person sink log defaults c q (seat, w) = match offer defaults c q w with
      | (.value default, u) =>
        (Dialogue.seated sink log).ask c.path q default seat.1 (seat, u)
      | (.failed why, u) => (.failed why, (seat, u))
      | (.unfinished, u) => (.unfinished, (seat, u)) := by
  cases defaults with
  | none => rfl
  | some policy =>
    rw [person, Option.map_some, asking_run, offer, map_eq_pure_bind, Act.bind_run]
    have below : (Policy.within .snd policy : Policy ρ (Seat σ ν × ω)) c q (seat, w) =
        ((policy c q w).1, (seat, (policy c q w).2)) := rfl
    rw [below]
    rcases policy c q w with ⟨a | why | _, u⟩ <;> rfl

end Policy

end Sentential
