import Mathlib.Logic.ExistsUnique
import Sentential.Proofs.Completeness
import Sentential.Proofs.Decoration
import Sentential.Proofs.Replies

/-!
# Offers

A prompt shows the default in the notation of the line that is typed for it: the number of the one
alternative that is marked, a number, a letter in upper case, a code point. Four printers and four
readers agree, so that typing what a prompt shows is the same as accepting it with a blank line.
What is shown is told from the prompt itself, next to the prompt that offers nothing.
-/
namespace Sentential

open Text

variable {ρ σ ν ω Ω : Type}

namespace Question

/-- Some alternatives, numbered from a position on, with a mark on any of the lines. -/
def menu (marks : Nat → Bool) : Nat → List Choice → String
  | _, [] => ""
  | i, option :: rest =>
    Numeral.decimal i ++ ". " ++ option.item.display ++
      (if marks i then " [default]\n" else "\n") ++ menu marks (i + 1) rest

theorem showOptions_eq_menu (default : Option Nat) (i : Nat) (options : List Choice) :
    showOptions default i options = menu (fun j => decide (default = some j)) i options := by
  induction options generalizing i with
  | nil => rfl
  | cons option rest ih => simp only [showOptions, menu, ih, decide_eq_true_eq]

/-- A line of a menu either ends or goes on with a mark; what comes behind it cannot hide which. -/
theorem mark_append_inj {m m' : Bool} {rest rest' : String}
    (h : (if m then " [default]\n" else "\n") ++ rest =
      (if m' then " [default]\n" else "\n") ++ rest') : m = m' ∧ rest = rest' := by
  have hhead := congrArg (fun text : String => text.toList.head?) h
  simp only [String.toList_append, List.head?_append] at hhead
  cases m <;> cases m'
  · exact ⟨rfl, (String.append_right_inj _).1 h⟩
  · simp at hhead
  · simp at hhead
  · exact ⟨rfl, (String.append_right_inj _).1 h⟩

/-- The marks of a menu can be read off, also where alternatives look alike. -/
theorem marks_eq_of_menu_eq {marks marks' : Nat → Bool} {i : Nat} {options : List Choice}
    (h : menu marks i options = menu marks' i options) {j : Nat} (hj : j < options.length) :
    marks (i + j) = marks' (i + j) := by
  induction options generalizing i j with
  | nil => cases hj
  | cons option rest ih =>
    simp only [menu, String.append_assoc, String.append_right_inj] at h
    obtain ⟨hmark, hrest⟩ := mark_append_inj h
    cases j with
    | zero => exact hmark
    | succ j =>
      have hlater := ih hrest (Nat.lt_of_succ_lt_succ hj)
      rwa [Nat.add_right_comm] at hlater

/-- A prompt for a choice, with the given marks. -/
def choicePrompt (marks : Nat → Bool) (options : List Choice) : String :=
  ", choose one of:\n" ++ menu marks 0 options ++
    "Choose an alternative [0-" ++ Numeral.decimal (options.length - 1) ++ "]: "

theorem prompt_choice (options : List Choice) (default : Fin options.length) :
    (choice options).prompt (some default) =
      choicePrompt (fun j => decide (some default.val = some j)) options := by
  unfold choicePrompt
  rw [← showOptions_eq_menu]
  rfl

theorem menu_eq_of_choicePrompt_eq {marks marks' : Nat → Bool} {options : List Choice}
    (h : choicePrompt marks options = choicePrompt marks' options) :
    menu marks 0 options = menu marks' 0 options := by
  unfold choicePrompt at h
  have hbound := (String.append_left_inj _).1 h
  have hfooter := (String.append_left_inj _).1 hbound
  have hmenu := (String.append_left_inj _).1 hfooter
  exact (String.append_right_inj _).1 hmenu

def Marked (options : List Choice) (prompt : String) (i : Nat) : Prop :=
  i < options.length ∧ ∃ marks, prompt = choicePrompt marks options ∧ marks i = true

theorem marked_prompt_iff {options : List Choice} {default : Fin options.length} {i : Nat} :
    Marked options ((choice options).prompt (some default)) i ↔ i = default.val := by
  rw [prompt_choice]
  constructor
  · rintro ⟨hi, marks, hmarks, hmark⟩
    have hdefault := marks_eq_of_menu_eq (menu_eq_of_choicePrompt_eq hmarks) hi
    rw [Nat.zero_add, hmark, decide_eq_true_eq] at hdefault
    exact (Option.some.inj hdefault).symm
  · intro h
    rw [h]
    exact ⟨default.isLt, _, rfl, decide_eq_true rfl⟩

/-- What a prompt shows as the default: the number of a line with a mark, or, compared with the
prompt that offers nothing, the letter in upper case or what is put in behind `default`. -/
inductive Shows : Question → String → String → Prop
  | choice {options : List Choice} {prompt : String} {i : Nat} (marked : Marked options prompt i) :
      Shows (.choice options) prompt (Numeral.decimal i)
  | count {term : Term} {bounds : Bounds} {stem text : String}
      (plain : (Question.count term bounds).prompt none = stem ++ ": ") :
      Shows (.count term bounds) (stem ++ " [default=" ++ text ++ "]: ") text
  | yes {term : Term} {probability : Float} {stem : String}
      (plain : (Question.inclusion term probability).prompt none = stem ++ "[yn]: ") :
      Shows (.inclusion term probability) (stem ++ "[Yn]: ") "y"
  | no {term : Term} {probability : Float} {stem : String}
      (plain : (Question.inclusion term probability).prompt none = stem ++ "[yn]: ") :
      Shows (.inclusion term probability) (stem ++ "[yN]: ") "n"
  | character {set : CharacterSet} {stem text : String}
      (plain : (Question.character set).prompt none = stem ++ ": ") :
      Shows (.character set) (stem ++ " [default: " ++ text ++ "]: ") text

/-- Where a default is put in, brackets are closed in front of what ends the prompt anyway. -/
theorem bracketed (stem opening text : String) :
    stem ++ (opening ++ text ++ "]") ++ ": " = stem ++ opening ++ text ++ "]: " := by
  have hclosing : "]" ++ ": " = "]: " := by decide
  rw [← hclosing]
  simp only [String.append_assoc]

theorem exists_stem_count (term : Term) (bounds : Bounds) :
    ∃ stem, (Question.count term bounds).prompt none = stem ++ ": " ∧
      ∀ n, (Question.count term bounds).prompt (some n) =
        stem ++ " [default=" ++ Numeral.decimal n ++ "]: " :=
  ⟨_, congrArg (fun stem => stem ++ ": ") String.append_empty, fun _ => bracketed _ _ _⟩

theorem exists_stem_inclusion (term : Term) (probability : Float) :
    ∃ stem, (Question.inclusion term probability).prompt none = stem ++ "[yn]: " ∧
      (Question.inclusion term probability).prompt (some true) = stem ++ "[Yn]: " ∧
      (Question.inclusion term probability).prompt (some false) = stem ++ "[yN]: " :=
  ⟨_, rfl, rfl, rfl⟩

theorem exists_stem_character (set : CharacterSet) :
    ∃ stem, (Question.character set).prompt none = stem ++ ": " ∧
      ∀ c, (Question.character set).prompt (some c) =
        stem ++ " [default: " ++ ("0x" ++ Numeral.hexadecimal c.toNat) ++ "]: " := by
  have hopening (digits : String) :
      " [default: 0x" ++ digits = " [default: " ++ ("0x" ++ digits) := by
    have hradix : " [default: 0x" = " [default: " ++ "0x" := by decide
    rw [hradix, String.append_assoc]
  refine ⟨_, congrArg (fun stem => stem ++ ": ") String.append_empty, fun c => ?_⟩
  rw [← bracketed, ← hopening]
  rfl

theorem between_inj {front back text text' : String}
    (h : front ++ text ++ back = front ++ text' ++ back) : text = text' :=
  (String.append_right_inj front).1 ((String.append_left_inj back).1 h)

theorem yes_ne_no {stem : String} : stem ++ "[Yn]: " ≠ stem ++ "[yN]: " := by
  intro h
  have hletters : "[Yn]: " ≠ "[yN]: " := by decide
  exact hletters ((String.append_right_inj stem).1 h)

/-- A prompt shows the line of its default and nothing else. -/
theorem shows_prompt_iff {q : Question} {a : q.Answer} {text : String} :
    q.Shows (q.prompt (some a)) text ↔ text = q.line a := by
  generalize hprompt : q.prompt (some a) = prompt
  cases q with
  | choice options =>
    subst hprompt
    constructor
    · rintro (marked | _)
      rw [marked_prompt_iff.1 marked]
      rfl
    · rintro rfl
      exact .choice (marked_prompt_iff.2 rfl)
  | count term bounds =>
    obtain ⟨stem, plain, offering⟩ := exists_stem_count term bounds
    rw [offering] at hprompt
    constructor
    · intro h
      cases h with
      | count plain' =>
        obtain rfl := (String.append_left_inj _).1 (plain.symm.trans plain')
        exact (between_inj hprompt).symm
    · rintro rfl
      rw [← hprompt]
      exact .count plain
  | inclusion term probability =>
    obtain ⟨stem, plain, yes, no⟩ := exists_stem_inclusion term probability
    constructor
    · intro h
      cases h with
      | yes plain' =>
        obtain rfl := (String.append_left_inj _).1 (plain.symm.trans plain')
        cases a with
        | true => rfl
        | false => exact absurd (hprompt.symm.trans no) yes_ne_no
      | no plain' =>
        obtain rfl := (String.append_left_inj _).1 (plain.symm.trans plain')
        cases a with
        | true => exact absurd (yes.symm.trans hprompt) yes_ne_no
        | false => rfl
    · rintro rfl
      rw [← hprompt]
      cases a with
      | true => exact yes ▸ .yes plain
      | false => exact no ▸ .no plain
  | character set =>
    obtain ⟨stem, plain, offering⟩ := exists_stem_character set
    rw [offering] at hprompt
    constructor
    · intro h
      cases h with
      | character plain' =>
        obtain rfl := (String.append_left_inj _).1 (plain.symm.trans plain')
        exact (between_inj hprompt).symm
    · rintro rfl
      rw [← hprompt]
      exact .character plain

variable {q : Question} {a : q.Answer} {default : Option q.Answer} {line : String}

theorem takes_typed (respects : q.Respects a) (fits : q.Fits a) (h : trim line = q.line a) :
    q.Takes default line a := by
  refine .inr ⟨?_, ?_⟩
  · rw [h]
    exact q.line_ne_empty a
  · rw [h]
    exact read_line respects fits

theorem takes_blank (h : trim line = "") : q.Takes (some a) line a := .inl ⟨h, rfl⟩

end Question

/-- Two lines that are taken for the same answer are interchangeable, also where the prompt cannot
be shown. -/
theorem Dialogue.ask_eq_ask_of_takes (d : Dialogue Ω) {path : String} {q : Question} {a : q.Answer}
    {default : Option q.Answer} {line line' : String} (h : q.Takes default line a)
    (h' : q.Takes default line' a) (rest : Input) :
    d.ask path q default (some line :: rest) = d.ask path q default (some line' :: rest) := by
  rw [ask, ask, Question.answer_eq_ok_iff.2 h, Question.answer_eq_ok_iff.2 h']

namespace Policy

variable {defaults : Policy ρ ω} {c : Cursor ρ} {q : Question} {a : q.Answer} {w u : ω}

/-- A line that is taken is the only one that is read. -/
theorem person_taken (offered : defaults c q w = (.value a, u)) {line : String}
    (takes : q.Takes (some a) line a) (sink : Steady σ) (log : Log ν) (rest : Input) (s : σ) (n : ν) :
    person sink log (some defaults) c q ((some line :: rest, s, n), w) =
      (.value a,
        ((rest, sink.utter s (.prompt ("At " ++ c.path ++ q.prompt (some a))), n), u)) := by
  have hoffer : offer (some defaults) c q w = (.value (some a), u) := by
    rw [offer, map_eq_pure_bind, Act.bind_value offered]
    rfl
  rw [person_run, hoffer]
  exact Dialogue.ask_taken takes rest (some line :: rest) s n u

/-- For a default that respects its question, a prompt shows one text, and a line that says this
text and a blank line are both taken for the default; either is the only line that is read. The
prompt for a choice has a mark on the line of one alternative and no other. -/
theorem typed_default (offered : defaults c q w = (.value a, u)) (respects : q.Respects a)
    (fits : q.Fits a) :
    (∃! text, q.Shows (q.prompt (some a)) text) ∧
    (∀ text typed blank, q.Shows (q.prompt (some a)) text → trim typed = text → trim blank = "" →
      (∀ (sink : Steady σ) (log : Log ν) rest s n, ∀ line ∈ [typed, blank],
        person sink log (some defaults) c q ((some line :: rest, s, n), w) =
          (.value a,
            ((rest, sink.utter s (.prompt ("At " ++ c.path ++ q.prompt (some a))), n), u))) ∧
      ∀ (d : Dialogue Ω) path rest, d.ask path q (some a) (some typed :: rest) =
        d.ask path q (some a) (some blank :: rest)) ∧
    ∀ options (default : Fin options.length),
      ∃! i, Question.Marked options ((Question.choice options).prompt (some default)) i := by
  refine ⟨?_, fun text typed blank shown htyped hblank => ?_, fun options default => ?_⟩
  · exact ⟨q.line a, Question.shows_prompt_iff.2 rfl, fun text => Question.shows_prompt_iff.1⟩
  · rw [Question.shows_prompt_iff.1 shown] at htyped
    have typed_takes : q.Takes (some a) typed a := Question.takes_typed respects fits htyped
    have blank_takes : q.Takes (some a) blank a := Question.takes_blank hblank
    refine ⟨fun sink log rest s n line hline => ?_, fun d path rest => ?_⟩
    · have takes : ∀ line ∈ [typed, blank], q.Takes (some a) line a :=
        List.forall_mem_cons.2 ⟨typed_takes, List.forall_mem_singleton.2 blank_takes⟩
      exact person_taken offered (takes line hline) sink log rest s n
    · exact d.ask_eq_ask_of_takes typed_takes blank_takes rest
  · exact ⟨default.val, Question.marked_prompt_iff.2 rfl, fun i => Question.marked_prompt_iff.1⟩

end Policy

/-- The second of several alternatives, as few repetitions as possible, nothing that is optional,
and blanks. -/
def Policy.modest : Policy Unit Unit := fun _ q =>
  match q with
  | .choice (_ :: _ :: _) => pure (1 : Fin (_ + 2))
  | .choice _ => Act.fail .noAlternatives
  | .count _ bounds => pure bounds.least.toNat
  | .inclusion _ _ => pure false
  | .character _ => pure ' '

def Choice.twins : List Choice := [⟨.literal "la", 1⟩, ⟨.literal "la", 1⟩]

/-- The prompt that offers the second of them. -/
def Choice.twinsPrompt : String :=
  ", choose one of:\n0. \"la\"\n1. \"la\" [default]\nChoose an alternative [0-1]: "

/-- Between equal alternatives the mark is on the second one only. A blank is a default that has to
be typed by its code point. -/
theorem Policy.typed_default_modest :
    (∀ line ∈ [" 1\t", "\t"],
      person Steady.transcript (Log.silent : Log Unit) (some modest) (.root "song")
          (.choice Choice.twins) (([some line, some "0"], .empty, ()), ()) =
        (.value (1 : Fin 2), (([some "0"], ⟨["At song" ++ Choice.twinsPrompt]⟩, ()), ()))) ∧
    (∃! i, Question.Marked Choice.twins Choice.twinsPrompt i) ∧
    ∀ line ∈ ["0x20", " "],
      person Steady.transcript (Log.silent : Log Unit) (some modest) (.root "song")
          (.character (.anyExcept ['a'])) (([some line], .empty, ()), ()) =
        (.value ' ', (([], ⟨["At song, emit character [default: 0x20]: "]⟩, ()), ())) := by
  have chosen : modest (.root "song") (.choice Choice.twins) () = (.value (1 : Fin 2), ()) := rfl
  have emitted : modest (.root "song") (.character (.anyExcept ['a'])) () = (.value ' ', ()) := rfl
  have choosing := typed_default (σ := Transcript) (ν := Unit) (Ω := Unit) chosen trivial
    (by decide : Choice.twins.length ≤ UInt32.size)
  have emitting := typed_default (σ := Transcript) (ν := Unit) (Ω := Unit) emitted
    (by rfl : (CharacterSet.anyExcept ['a']).contains ' ' = true) trivial
  have hplace : "At " ++ (Cursor.root "song" : Cursor Unit).path = "At song" := by decide +kernel
  have hprompt : (Question.choice Choice.twins).prompt (some (1 : Fin 2)) = Choice.twinsPrompt := by
    decide +kernel
  have hprompt' : (Question.character (.anyExcept ['a'])).prompt (some ' ') =
      ", emit character [default: 0x20]: " := by decide +kernel
  refine ⟨fun line hline => ?_, ?_, fun line hline => ?_⟩
  · have hrun := (choosing.2.1 "1" " 1\t" "\t" (Question.shows_prompt_iff.2 (by decide +kernel))
      (by decide +kernel) (by decide +kernel)).1 Steady.transcript .silent [some "0"] .empty () line hline
    rw [hprompt, hplace] at hrun
    exact hrun
  · rw [← hprompt]
    exact choosing.2.2 Choice.twins (1 : Fin 2)
  · have hrun := (emitting.2.1 "0x20" "0x20" " " (Question.shows_prompt_iff.2 (by decide +kernel))
      (by decide +kernel) (by decide +kernel)).1 Steady.transcript .silent [] .empty () line hline
    rw [hprompt', hplace] at hrun
    exact hrun

end Sentential
