import Sentential.Proofs.Lines
import Sentential.Proofs.Numerals
import Sentential.Proofs.Soundness

/-!
# Completeness

Everything that can be derived from a sound grammar can be entered. The line of an answer is read
back as that answer: numbers in decimal digits, and characters by their code points, since a blank
would be trimmed away and a digit can mean itself. The lines of the decisions of a derivation, in
their order, make a dialogue build its document.
-/
namespace Sentential

open Text

variable {ρ ω : Type}

namespace Question

def line : (q : Question) → q.Answer → String
  | .choice _, i => Numeral.decimal i.val
  | .count _ _, n => Numeral.decimal n
  | .inclusion _ _, yes => if yes then "y" else "n"
  | .character _, c => "0x" ++ Numeral.hexadecimal c.toNat

/-- Whether the number of an answer has 32 bits. -/
def Fits : (q : Question) → q.Answer → Prop
  | .choice options, _ => options.length ≤ UInt32.size
  | .count _ _, n => n < UInt32.size
  | _, _ => True

/-- Whether an answer respects what its question says: in addition to what is admitted, a character
is a member of its set. -/
def Respects : (q : Question) → q.Answer → Prop
  | .character set, c => set.contains c = true
  | q, a => q.Admits a

/-- In a sound grammar nothing but an exclusion keeps a character from being a member. -/
theorem respects_of_admits {q : Question} {a : q.Answer} (sensible : q.Sensible)
    (admitted : q.Admits a) : q.Respects a := by
  cases q with
  | choice options => exact admitted
  | count t bounds => exact admitted
  | inclusion t p => exact admitted
  | character set =>
    have hmeaning : Meaning.ofName? set.name = some .any := by
      change set.meaning = .ok .any at sensible
      unfold CharacterSet.meaning at sensible
      split at sensible
      · rename_i hname
        cases sensible
        exact hname
      · cases sensible
    change set.excludes a = false at admitted
    change set.contains a = true
    simp [CharacterSet.contains, admitted, hmeaning]

theorem readNumber_write {radix : Nat} (h2 : 2 ≤ radix) (h36 : radix ≤ 36) {n : Nat}
    (h : n < UInt32.size) : readNumber radix (Numeral.write radix n) = .ok n := by
  rw [readNumber, Numeral.read_write h2 h36 h]

theorem isBlank_write {radix : Nat} (h2 : 2 ≤ radix) (h36 : radix ≤ 36) (n : Nat) :
    ∀ c ∈ (Numeral.write radix n).toList, isBlank c = false := by
  intro c hc
  rw [Numeral.write, String.toList_ofList] at hc
  obtain ⟨v, hv, rfl⟩ := Numeral.mem_digits h2 hc
  exact Numeral.isBlank_digitOf (Nat.lt_of_lt_of_le hv h36)

theorem isBlank_line (q : Question) (a : q.Answer) :
    ∀ c ∈ (q.line a).toList, isBlank c = false := by
  cases q with
  | choice options => exact isBlank_write (by decide) (by decide) a.val
  | count t bounds => exact isBlank_write (by decide) (by decide) a
  | inclusion t p =>
    have hyes : (line (.inclusion t p) true).toList = ['y'] := by simp [line]
    have hno : (line (.inclusion t p) false).toList = ['n'] := by simp [line]
    cases a
    · rw [hno]
      exact List.forall_mem_singleton.2 (by decide)
    · rw [hyes]
      exact List.forall_mem_singleton.2 (by decide)
  | character set =>
    have hmark : ∀ c ∈ ['0', 'x'], isBlank c = false :=
      List.forall_mem_cons.2 ⟨by decide, List.forall_mem_singleton.2 (by decide)⟩
    intro c hc
    rw [line, String.toList_append] at hc
    rcases List.mem_append.1 hc with hc | hc
    · exact hmark c hc
    · exact isBlank_write (by decide) (by decide) a.toNat c hc

theorem write_ne_empty (radix n : Nat) : Numeral.write radix n ≠ "" := by
  intro h
  have hlist : (Numeral.write radix n).toList = [] := by rw [h]; rfl
  rw [Numeral.write, String.toList_ofList] at hlist
  exact Numeral.digits_ne_nil radix n hlist

theorem line_ne_empty (q : Question) (a : q.Answer) : q.line a ≠ "" := by
  cases q with
  | choice options => exact write_ne_empty 10 a.val
  | count t bounds => exact write_ne_empty 10 a
  | inclusion t p => cases a <;> simp [line]
  | character set =>
    intro h
    have hlist : ("0x" ++ Numeral.hexadecimal a.toNat).toList = [] := by
      change (line (.character set) a).toList = []
      rw [h]
      rfl
    rw [String.toList_append] at hlist
    cases hlist

/-- A character is read back from its code point, whatever character it is. -/
theorem readCharacter_hexadecimal (c : Char) :
    readCharacter ("0x" ++ Numeral.hexadecimal c.toNat) = .ok c := by
  have hsize : c.toNat < UInt32.size := UInt32.toNat_lt_size c.val
  have hread : readNumber 16 (String.ofList (Numeral.digits 16 c.toNat)) = .ok c.toNat :=
    readNumber_write (by decide) (by decide) hsize
  have hlist : ("0x" ++ Numeral.hexadecimal c.toNat).toList =
      '0' :: 'x' :: Numeral.digits 16 c.toNat := by
    simp only [String.toList_append, Numeral.hexadecimal, Numeral.write, String.toList_ofList]
    rfl
  have hvalid : c.toNat.isValidChar := c.valid
  simp only [readCharacter, hlist, hread, bind, Except.bind]
  rw [if_pos hvalid, Char.ofNat_toNat]

/-- An answer is read back from its line. -/
theorem read_line {q : Question} {a : q.Answer} (respects : q.Respects a) (fits : q.Fits a) :
    q.read (q.line a) = .ok a := by
  cases q with
  | choice options =>
    have hread : readNumber 10 (Numeral.decimal a.val) = .ok a.val :=
      readNumber_write (by decide) (by decide) (Nat.lt_of_lt_of_le a.isLt fits)
    simp [read, line, hread, bind, Except.bind]
  | count t bounds =>
    have hread : readNumber 10 (Numeral.decimal a) = .ok a :=
      readNumber_write (by decide) (by decide) fits
    have hmost : (bounds.most.all fun most => decide (a ≤ most.toNat)) = true := by
      rw [Option.all_eq_true]
      intro most h
      exact decide_eq_true (respects.2 most h)
    simp only [read, line, hread, bind, Except.bind]
    rw [if_pos ⟨respects.1, hmost⟩]
  | inclusion t p => cases a <;> simp [read, line]
  | character set =>
    have hmember : set.contains a = true := respects
    simp only [read, line, readCharacter_hexadecimal, bind, Except.bind]
    rw [if_pos hmember]

end Question

/-- The text that enters some decisions, each on a line of its own. -/
def entry (xs : List Decision) : String :=
  String.join (xs.map fun x => x.question.line x.answer ++ "\n")

theorem ofString_entry (xs : List Decision) :
    Input.ofString (entry xs) = xs.map fun x => some (x.question.line x.answer) := by
  let lines := xs.map fun x => x.question.line x.answer
  have hentry : entry xs = String.join (lines.map fun line => line ++ "\n") := by
    rw [List.map_map]
    rfl
  have hlines : ∀ line ∈ lines, ∀ c ∈ line.toList, c ≠ '\n' := by
    intro line hline c hc heq
    obtain ⟨x, -, rfl⟩ := List.mem_map.1 hline
    have hblank := x.question.isBlank_line x.answer c hc
    rw [heq] at hblank
    cases hblank
  rw [hentry, Input.ofString_join hlines, List.map_map]
  rfl

namespace Dialogue

variable {d : Dialogue ω}

/-- The line of an answer is taken for that answer. -/
theorem answer_line {q : Question} {a : q.Answer} (sensible : q.Sensible) (admitted : q.Admits a)
    (fits : q.Fits a) (default : Option q.Answer) :
    answer q default (trim (q.line a)) = .ok a := by
  have hempty : (q.line a).isEmpty = false := by
    rw [Bool.eq_false_iff]
    intro h
    exact q.line_ne_empty a (String.isEmpty_iff.1 h)
  rw [trim_eq_self (q.isBlank_line a)]
  simp only [answer, hempty, Question.read_line (Question.respects_of_admits sensible admitted) fits]
  rfl

/-- Nothing gets in the way of a dialogue: prompts are shown, and neither they nor what is written
to a log change the input. -/
structure Clear (d : Dialogue ω) (log : Log ω) : Prop where
  append : ∀ text w, ∃ v, d.sink.append text w = (.value (), v) ∧ d.input.get v = d.input.get w
  flush : ∀ w, ∃ v, d.sink.flush w = (.value (), v) ∧ d.input.get v = d.input.get w
  record : ∀ level text w, d.input.get (log.record level text w) = d.input.get w

variable {log : Log ω}

theorem Clear.present (clear : d.Clear log) (path : String) (q : Question)
    (default : Option q.Answer) (w : ω) :
    ∃ v, d.present path q default w = (.value (), v) ∧ d.input.get v = d.input.get w := by
  obtain ⟨u, hu, hinput⟩ := clear.append ("At " ++ path ++ q.prompt default) w
  obtain ⟨v, hv, hinput'⟩ := clear.flush u
  exact ⟨v, (Act.bind_value hu).trans hv, hinput'.trans hinput⟩

/-- A line that answers a question is taken from the input. -/
theorem Clear.asking (clear : d.Clear log) {q : Question} {a : q.Answer} {line : String}
    (h : answer q none (trim line) = .ok a) {rest : Input} {w : ω}
    (hw : d.input.get w = some line :: rest) (c : Cursor ρ) :
    ∃ v, Policy.asking d none c q w = (.value a, v) ∧ d.input.get v = rest := by
  obtain ⟨u, hu, -⟩ := clear.present c.path q none w
  refine ⟨d.input.set rest u, ?_, d.input.get_set rest u⟩
  have hask : Policy.asking d none c q w = d.ask c.path q none (some line :: rest) w := by
    rw [← hw]
    rfl
  rw [hask, Dialogue.ask, Act.bind_value hu, Act.bind_value (Act.modify_run _ u), h]
  rfl

/-- Asks for everything and defers nothing. -/
def builder (d : Dialogue ω) (grammar : Grammar) (log : Log ω) : Builder ρ ω where
  grammar := grammar
  policy := .asking d none
  deferral := undeferred
  log := log

/-- The lines of some decisions are what is left of the input. -/
def Ready (d : Dialogue ω) (xs : List Decision) (w : ω) : Prop :=
  (∀ x ∈ xs, answer x.question none (trim (x.question.line x.answer)) = .ok x.answer) ∧
    d.input.get w = xs.map fun x => some (x.question.line x.answer)

theorem Clear.makes (clear : d.Clear log) (grammar : Grammar) :
    Builder.Makes (d.builder (ρ := ρ) grammar log) d.Ready where
  traced c t h := ⟨h.1, (clear.record _ _ _).trans h.2⟩
  asked := by
    rintro x later w c - ⟨hanswers, hinput⟩
    obtain ⟨hanswer, hlater⟩ := List.forall_mem_cons.1 hanswers
    obtain ⟨v, hv, hrest⟩ := clear.asking hanswer hinput c
    exact ⟨v, hv, hlater, hrest⟩

/-- The lines of the decisions make the dialogue build the document of their derivation. -/
theorem Clear.define (clear : d.Clear log) {grammar : Grammar} (sound : grammar.Sound)
    {start : String} (x : Derivation grammar (undeferred (ρ := ρ)) (.reference start))
    (h : ∀ y ∈ x.decisions [], y.Admissible ∧ y.question.Fits y.answer) {w : ω}
    (hw : d.input.get w = (x.decisions []).map fun y => some (y.question.line y.answer)) :
    ∃ c v k, Node.coalesce x.forest = [c.document] ∧ d.input.get v = [] ∧
      ∀ n, k ≤ n → (d.builder (ρ := ρ) grammar log).define n start (.root start) w =
        (.value c, v) := by
  cases x with
  | deferred _ payload given => cases given
  | @reference _ definition kept defined inner =>
    have flawless := sound.flawless (Grammar.production?_of_definition defined)
    have hready : d.Ready (inner.decisions (Cursor.root (ρ := ρ) start).names) w := by
      refine ⟨fun y hy => ?_, hw⟩
      have hsensible := inner.sensible sound flawless _ y hy
      exact answer_line hsensible (h y hy).1 (h y hy).2 none
    obtain ⟨v, k, hv, hbuild⟩ := Builder.build_of_derivation (clear.makes grammar) inner _ hready
    refine ⟨(Cursor.root start).grow inner.forest, v, k, ?_, hv.2, fun n hn => ?_⟩
    · rw [Cursor.document_grow rfl rfl]
      exact Node.coalesce_tree start inner.forest []
    · exact Builder.define_eq_value_iff.2 ⟨definition, defined, hbuild n hn⟩

/-- For every derivation from a sound grammar there is an input of one line for each decision that
makes a dialogue without defaults build its document and that is used up by then. Every character
that is not excluded can be entered where all characters are meant. -/
theorem exists_input_of_derivation {grammar : Grammar} (sound : grammar.Sound)
    (clear : d.Clear log) :
    (∀ {start : String} (x : Derivation grammar (undeferred (ρ := ρ)) (.reference start)),
      (∀ y ∈ x.decisions [], y.Admissible ∧ y.question.Fits y.answer) →
      ∃ text, (Input.ofString text).length = (x.decisions []).length ∧
        ∀ w, d.input.get w = Input.ofString text →
          ∃ c v k, Node.coalesce x.forest = [c.document] ∧ d.input.get v = [] ∧
            ∀ n, k ≤ n → (d.builder (ρ := ρ) grammar log).define n start (.root start) w =
              (.value c, v)) ∧
    ∀ (set : CharacterSet) (char : Char), set.meaning = .ok .any → set.excludes char = false →
      ∃ text, ∀ (c : Cursor ρ) w, d.input.get w = Input.ofString text →
        ∃ v, Policy.asking d none c (.character set) w = (.value char, v) ∧ d.input.get v = [] := by
  refine ⟨fun x h => ?_, fun set char means kept => ?_⟩
  · refine ⟨entry (x.decisions []), by rw [ofString_entry, List.length_map], fun w hw => ?_⟩
    rw [ofString_entry] at hw
    exact clear.define sound x h hw
  · refine ⟨entry [⟨[], .character set, char⟩], fun c w hw => ?_⟩
    rw [ofString_entry] at hw
    exact clear.asking (answer_line (q := .character set) means kept trivial none) hw c

end Dialogue

/-- A dialogue whose prompts are kept behind its input. -/
def Dialogue.plain : Dialogue (Input × Transcript) := ⟨.fst, .transcript .snd, .silent⟩

/-- A blank and a digit. -/
def Derivation.cheer :
    Derivation Generator.cheer.grammar (undeferred (ρ := Unit)) (.reference "cheer") :=
  let vowels := Derivation.repetition (.characters (.anyExcept ['b'])) ⟨2, some 3, none⟩ 2
    (.cons (.any _ ' ' rfl) (.cons (.any _ '7' rfl) .nil))
  .reference "cheer" rfl rfl
    (.sequence (.cons (.reference "vowels" rfl rfl vowels) (.cons (.literal "!") .nil)))

/-- Three lines enter how many characters there are and which ones. -/
theorem Dialogue.exists_input_of_cheer :
    ∃ text, (Input.ofString text).length = 3 ∧
      ∀ w : Input × Transcript, w.1 = Input.ofString text →
        ∃ c v k, c.document = .tree "cheer" [.tree "vowels" [.literal " 7"], .literal "!"] ∧
          v.1 = [] ∧ ∀ n, k ≤ n →
            (plain.builder (ρ := Unit) Generator.cheer.grammar .silent).define n "cheer"
              (.root "cheer") w = (.value c, v) := by
  have clear : plain.Clear .silent :=
    ⟨fun _ _ => ⟨_, rfl, rfl⟩, fun _ => ⟨_, rfl, rfl⟩, fun _ _ _ => rfl⟩
  have hadmissible : ∀ y ∈ Derivation.cheer.decisions [], y.Admissible ∧ y.question.Fits y.answer :=
    List.forall_mem_cons.2 ⟨⟨⟨by decide, fun _ h => by cases h; decide⟩,
        (by decide : 2 < UInt32.size)⟩,
      List.forall_mem_cons.2 ⟨⟨by rfl, trivial⟩, List.forall_mem_singleton.2 ⟨by rfl, trivial⟩⟩⟩
  obtain ⟨text, hlength, h⟩ :=
    (exists_input_of_derivation Generator.cheer_sound clear).1 Derivation.cheer hadmissible
  refine ⟨text, hlength, fun w hw => ?_⟩
  obtain ⟨c, v, k, hforest, hv, hdefine⟩ := h w hw
  exact ⟨c, v, k, (List.singleton_inj.1 hforest).symm, hv, hdefine⟩

end Sentential
